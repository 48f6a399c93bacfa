import FriscaOS.Lib.ByteMemory
import FriscaOS.Memory.Pmm

/-! The two-level page tables of `paging.c`, and the walk of the MMU over them. -/
namespace FriscaOS

open ByteMemory

def pagePresent : UInt32 := 0x1

def pageRw : UInt32 := 0x2

/-- The control registers that paging uses. -/
structure ControlRegs where
  cr0 : UInt32
  cr3 : UInt32

def loadPageDirectory (r : ControlRegs) (pageDirectory : UInt32) : ControlRegs :=
  { r with cr3 := pageDirectory }

/-- Set the PG bit. -/
def enablePaging (r : ControlRegs) : ControlRegs := { r with cr0 := r.cr0 ||| 0x80000000 }

/-- The address of entry `i` of the directory or table at `p`. -/
def entryAddr (p i : UInt32) : Nat := (p + 4 * i).toNat

/-- Store entries of the directory or table at `p`, `n` of them from entry `i` on. -/
def fillEntries (p : UInt32) (value : UInt32 → UInt32) : Nat → UInt32 → Mem → Mem
  | 0, _, m => m
  | n + 1, i, m => fillEntries p value n (i + 1) (m.write32 (entryAddr p i) (value i))

/-- A directory entry that is not present, writable, and without a table. -/
def emptyEntry : UInt32 := 0x00000002

/-- Entry `i` of table `t`: the page at the same physical address, present and writable. -/
def identityEntry (t i : UInt32) : UInt32 :=
  (t * 4 * 1024 * 1024 + i * 0x1000) ||| pagePresent ||| pageRw

/-- The loop body of `paging_init` on memory: table `t` is filled, and then registered. -/
def mapTable (pageDirectory pageTable t : UInt32) (m : Mem) : Mem :=
  let m := fillEntries pageTable (identityEntry t) 1024 0 m
  m.write32 (entryAddr pageDirectory t) (pageTable ||| pagePresent ||| pageRw)

/-- The loop of `paging_init` over the page tables, with `n` of them left from table `t` on. -/
def mapTables (pageDirectory : UInt32) : Nat → UInt32 → Pmm → Mem → Pmm × Mem
  | 0, _, s, m => (s, m)
  | n + 1, t, s, m =>
    let (s, pageTable) := pmmAllocBlock s
    mapTables pageDirectory n (t + 1) s (mapTable pageDirectory pageTable t m)

def pagingInit (s : Pmm) (m : Mem) (r : ControlRegs) : Pmm × Mem × ControlRegs :=
  let (s, pageDirectory) := pmmAllocBlock s
  let m := fillEntries pageDirectory (fun _ => emptyEntry) 1024 0 m
  let (s, m) := mapTables pageDirectory 4 0 s m
  (s, m, enablePaging (loadPageDirectory r pageDirectory))

/-! ### The walk -/

/-- Bits 31-12: the page or table that an entry points to. -/
def frameOf (entry : UInt32) : UInt32 := entry &&& 0xFFFFF000

def directoryIndex (v : UInt32) : UInt32 := v >>> 22

def tableIndex (v : UInt32) : UInt32 := (v >>> 12) &&& 0x3FF

def directoryEntry (m : Mem) (r : ControlRegs) (v : UInt32) : UInt32 :=
  m.read32 (entryAddr (frameOf r.cr3) (directoryIndex v))

def tableEntry (m : Mem) (r : ControlRegs) (v : UInt32) : UInt32 :=
  m.read32 (entryAddr (frameOf (directoryEntry m r v)) (tableIndex v))

/-- The physical address behind a virtual one, or `none` for a page fault. -/
def translate (m : Mem) (r : ControlRegs) (v : UInt32) : Option UInt32 :=
  if r.cr0 &&& 0x80000000 = 0 then some v
  else if directoryEntry m r v &&& pagePresent = 0 then none
  else if tableEntry m r v &&& pagePresent = 0 then none
  else some (frameOf (tableEntry m r v) ||| (v &&& 0xFFF))

/-! ### Entries -/

variable {m : Mem} {p q t i v : UInt32} {n j : Nat} {value : UInt32 → UInt32} {tables : List UInt32}

/-- The bytes of the 4 KB page at `p`. -/
def pageBytes (p : UInt32) : Set Nat := {x | p.toNat ≤ x ∧ x < p.toNat + 4096}

theorem toNat_entryAddr (aligned : p.toNat % 4096 = 0) (bound : i.toNat < 1024) :
    entryAddr p i = p.toNat + 4 * i.toNat := by
  have top := p.toNat_lt
  have four : (4 : UInt32).toNat = 4 := rfl
  have offset : (4 * i).toNat = 4 * i.toNat := by
    rw [UInt32.toNat_mul, four, Nat.mod_eq_of_lt (by omega)]
  rw [entryAddr, toNat_add_of_lt (by omega), offset]

/-- Entries lie in their page. -/
theorem entryAddr_mem (aligned : p.toNat % 4096 = 0) (bound : i.toNat < 1024) {x : Nat}
    (lower : entryAddr p i ≤ x) (upper : x < entryAddr p i + 4) : x ∈ pageBytes p := by
  rw [toNat_entryAddr aligned bound] at lower upper
  exact ⟨by omega, by omega⟩

theorem fillEntries_spec (aligned : p.toNat % 4096 = 0) (last : i.toNat + n ≤ 1024) :
    Within {x | p.toNat + 4 * i.toNat ≤ x ∧ x < p.toNat + 4 * (i.toNat + n)} m
        (fillEntries p value n i m) ∧
      ∀ j : UInt32, i.toNat ≤ j.toNat → j.toNat < i.toNat + n →
        (fillEntries p value n i m).read32 (entryAddr p j) = value j := by
  induction n generalizing i m with
  | zero => exact ⟨.refl _ m, fun j lower upper => absurd upper (by omega)⟩
  | succ n ih =>
    have one : (1 : UInt32).toNat = 1 := rfl
    have next : (i + 1).toNat = i.toNat + 1 := toNat_add_of_lt (by omega)
    have place := toNat_entryAddr (i := i) aligned (by omega)
    obtain ⟨frame, entries⟩ := ih (i := i + 1) (m := m.write32 (entryAddr p i) (value i)) (by omega)
    rw [fillEntries]
    constructor
    · refine (Within.write32 (value i) fun x lower upper => ?_).trans (frame.mono ?_)
      · rw [Set.mem_ofPred_eq]
        omega
      · rintro x ⟨lower, upper⟩
        rw [Set.mem_ofPred_eq]
        omega
    · intro j lower upper
      rcases Nat.eq_or_lt_of_le lower with same | later
      · -- the first entry is not touched by the rest of the loop
        obtain rfl : i = j := UInt32.toNat_inj.mp same
        rw [frame.read32, Mem.read32_write32]
        rintro x low high ⟨start, -⟩
        omega
      · exact entries j (by omega) (by omega)

/-- A filled page. -/
theorem fillEntries_page (m : Mem) (value : UInt32 → UInt32) (aligned : p.toNat % 4096 = 0)
    (count : n = 1024) :
    Within (pageBytes p) m (fillEntries p value n 0 m) ∧
      ∀ j : UInt32, j.toNat < 1024 →
        (fillEntries p value n 0 m).read32 (entryAddr p j) = value j := by
  have zero : (0 : UInt32).toNat = 0 := rfl
  have last : (0 : UInt32).toNat + n ≤ 1024 := by omega
  obtain ⟨frame, entries⟩ := fillEntries_spec aligned last
  refine ⟨frame.mono ?_, fun j bound => entries j (by omega) (by omega)⟩
  rintro x ⟨lower, upper⟩
  exact ⟨by omega, by omega⟩

/-! ### The tables -/

/-- `n` calls of `pmm_alloc_block`, with the addresses they return. -/
def pmmAllocBlocks : Nat → Pmm → Pmm × List UInt32
  | 0, s => (s, [])
  | n + 1, s =>
    let (s, p) := pmmAllocBlock s
    let (s, ps) := pmmAllocBlocks n s
    (s, p :: ps)

/-- What the loop of `paging_init` does to memory, given the tables it obtains. -/
def mapTablesAt (pageDirectory : UInt32) : List UInt32 → UInt32 → Mem → Mem
  | [], _, m => m
  | pageTable :: tables, t, m =>
    mapTablesAt pageDirectory tables (t + 1) (mapTable pageDirectory pageTable t m)

theorem mapTables_eq {s : Pmm} : mapTables p n t s m =
    ((pmmAllocBlocks n s).1, mapTablesAt p (pmmAllocBlocks n s).2 t m) := by
  induction n generalizing t s m with
  | zero => rfl
  | succ n ih => simp only [mapTables, ih, pmmAllocBlocks, mapTablesAt]

/-- Two pages without a common byte. -/
def PagesApart (p q : UInt32) : Prop := ∀ x ∈ pageBytes p, x ∉ pageBytes q

theorem PagesApart.symm (apart : PagesApart p q) : PagesApart q p :=
  fun x right left => apart x left right

/-- Different aligned pages have no common byte. -/
theorem pagesApart_of_ne (hp : p.toNat % 4096 = 0) (hq : q.toNat % 4096 = 0) (other : p ≠ q) :
    PagesApart p q := by
  have different : p.toNat ≠ q.toNat := fun same => other (UInt32.toNat_inj.mp same)
  rintro x ⟨_, _⟩ ⟨_, _⟩
  omega

/-- Where a page directory, from entry `t` on, and page tables may be stored. -/
structure TablesPlaced (pageDirectory : UInt32) (tables : List UInt32) : Prop where
  directory : pageDirectory.toNat % 4096 = 0
  aligned : ∀ q ∈ tables, q.toNat % 4096 = 0
  apart : ∀ q ∈ tables, PagesApart pageDirectory q
  distinct : tables.Pairwise PagesApart

theorem TablesPlaced.tail (placed : TablesPlaced p (q :: tables)) : TablesPlaced p tables where
  directory := placed.directory
  aligned r member := placed.aligned r (.tail q member)
  apart r member := placed.apart r (.tail q member)
  distinct := (List.pairwise_cons.mp placed.distinct).2

/-- The entries that map table `q` as table `i`. -/
structure TableMapped (m : Mem) (pageDirectory i q : UInt32) : Prop where
  registered : m.read32 (entryAddr pageDirectory i) = q ||| pagePresent ||| pageRw
  entries : ∀ j : UInt32, j.toNat < 1024 → m.read32 (entryAddr q j) = identityEntry i j

/-- The bytes that the loop writes: the directory entries from `t` on, and the tables. -/
def mapBytes (pageDirectory t : UInt32) (tables : List UInt32) : Set Nat :=
  {x | (pageDirectory.toNat + 4 * t.toNat ≤ x ∧
    x < pageDirectory.toNat + 4 * (t.toNat + tables.length)) ∨ ∃ q ∈ tables, x ∈ pageBytes q}

/-- One iteration maps its table. -/
theorem mapTable_spec (placed : TablesPlaced p (q :: tables)) (bound : t.toNat < 1024) :
    TableMapped (mapTable p q t m) p t q ∧
      Within {x | x ∈ pageBytes q ∨ (entryAddr p t ≤ x ∧ x < entryAddr p t + 4)} m
        (mapTable p q t m) := by
  have page := placed.apart q (.head _)
  have aligned := placed.aligned q (.head _)
  obtain ⟨frame, entries⟩ := fillEntries_page m (identityEntry t) aligned rfl
  rw [mapTable]
  refine ⟨⟨Mem.read32_write32 .., fun j below => ?_⟩, ?_⟩
  · -- the directory entry lies outside the table
    rw [Mem.read32_congr, entries j below]
    intro x lower upper
    apply Mem.write32_other
    by_contra inside
    exact page x (entryAddr_mem placed.directory bound (by omega) (by omega))
      (entryAddr_mem aligned below lower upper)
  · exact (frame.mono fun x inside => .inl inside).trans
      (Within.write32 _ fun x lower upper => .inr ⟨lower, upper⟩)

theorem TableMapped.congr {m' : Mem} {i : UInt32} (mapped : TableMapped m p i q)
    (aligned : q.toNat % 4096 = 0)
    (entry : ∀ x, entryAddr p i ≤ x → x < entryAddr p i + 4 → m' x = m x)
    (page : ∀ x ∈ pageBytes q, m' x = m x) : TableMapped m' p i q := by
  refine ⟨?_, fun j below => ?_⟩
  · rw [← mapped.registered]
    exact Mem.read32_congr entry
  · rw [← mapped.entries j below]
    exact Mem.read32_congr fun x lower upper => page x (entryAddr_mem aligned below lower upper)

theorem mapTablesAt_spec (placed : TablesPlaced p tables)
    (last : t.toNat + tables.length ≤ 1024) :
    Within (mapBytes p t tables) m (mapTablesAt p tables t m) ∧
      ∀ k q, tables[k]? = some q → ∀ i : UInt32, i.toNat = t.toNat + k →
        TableMapped (mapTablesAt p tables t m) p i q := by
  induction tables generalizing t m with
  | nil => exact ⟨.refl _ m, fun k q found => by simp at found⟩
  | cons q tables ih =>
    rw [List.length_cons] at last
    have one : (1 : UInt32).toNat = 1 := rfl
    have next : (t + 1).toNat = t.toNat + 1 := toNat_add_of_lt (by omega)
    have place := toNat_entryAddr (i := t) placed.directory (by omega)
    obtain ⟨mapped, frame⟩ := mapTable_spec (t := t) (m := m) placed (by omega)
    obtain ⟨rest, later⟩ := ih (t := t + 1) (m := mapTable p q t m) placed.tail (by omega)
    rw [mapTablesAt]
    refine ⟨(frame.mono ?_).trans (rest.mono ?_), ?_⟩
    · rintro x (inside | ⟨lower, upper⟩)
      · exact .inr ⟨q, .head _, inside⟩
      · refine .inl ⟨by omega, ?_⟩
        rw [List.length_cons]
        omega
    · rintro x (⟨lower, upper⟩ | ⟨r, member, inside⟩)
      · refine .inl ⟨by omega, ?_⟩
        rw [List.length_cons]
        omega
      · exact .inr ⟨r, .tail q member, inside⟩
    · intro k r found i index
      cases k with
      | zero =>
        obtain rfl : q = r := by simpa using found
        obtain rfl : t = i := UInt32.toNat_inj.mp index.symm
        apply mapped.congr (placed.aligned q (.head _))
        · -- the later entries and tables lie elsewhere
          intro x lower upper
          have inPage := entryAddr_mem placed.directory (by omega) lower upper
          apply rest
          rintro (⟨start, -⟩ | ⟨r, member, inside⟩)
          · omega
          · exact placed.apart r (.tail q member) x inPage inside
        · intro x inPage
          apply rest
          rintro (⟨start, stop⟩ | ⟨r, member, inside⟩)
          · refine placed.apart q (.head _) x ⟨by omega, by omega⟩ inPage
          · exact (List.pairwise_cons.mp placed.distinct).1 r member x inPage inside
      | succ k =>
        exact later k r (by simpa using found) i (by omega)

/-- What `paging_init` does to memory, given the directory and the tables it obtains. -/
def pagingMem (pageDirectory : UInt32) (tables : List UInt32) (m : Mem) : Mem :=
  mapTablesAt pageDirectory tables 0 (fillEntries pageDirectory (fun _ => emptyEntry) 1024 0 m)

theorem pagingInit_eq {s u : Pmm} {r : ControlRegs} (five : pmmAllocBlocks 5 s = (u, p :: tables)) :
    pagingInit s m r = (u, pagingMem p tables m, enablePaging (loadPageDirectory r p)) := by
  simp only [pmmAllocBlocks, Prod.mk.injEq, List.cons.injEq] at five
  simp only [pagingInit, mapTables_eq, pmmAllocBlocks, pagingMem, ← five.1, ← five.2.1, ← five.2.2]

/-- The directory maps its tables and nothing else, and no other memory is written. -/
structure DirectoryBuilt (pageDirectory : UInt32) (tables : List UInt32) (m m' : Mem) : Prop where
  frame : Within {x | x ∈ pageBytes pageDirectory ∨ ∃ q ∈ tables, x ∈ pageBytes q} m m'
  mapped : ∀ (i : UInt32) q, tables[i.toNat]? = some q → TableMapped m' pageDirectory i q
  empty : ∀ i : UInt32, tables.length ≤ i.toNat → i.toNat < 1024 →
    m'.read32 (entryAddr pageDirectory i) = emptyEntry

theorem pagingMem_spec (placed : TablesPlaced p tables) (room : tables.length ≤ 1024) :
    DirectoryBuilt p tables m (pagingMem p tables m) := by
  have zero : (0 : UInt32).toNat = 0 := rfl
  have last : (0 : UInt32).toNat + tables.length ≤ 1024 := by omega
  obtain ⟨cleared, empty⟩ := fillEntries_page m (fun _ => emptyEntry) placed.directory rfl
  obtain ⟨frame, mapped⟩ := mapTablesAt_spec
    (m := fillEntries p (fun _ => emptyEntry) 1024 0 m) placed last
  refine ⟨(cleared.mono fun x inside => .inl inside).trans (frame.mono ?_), ?_, ?_⟩
  · rintro x (⟨lower, upper⟩ | inside)
    · exact .inl ⟨by omega, by omega⟩
    · exact .inr inside
  · exact fun i q found => mapped i.toNat q found i (by omega)
  · intro i above below
    have place := toNat_entryAddr (i := i) placed.directory below
    rw [pagingMem, frame.read32, empty i below]
    rintro x lower upper (⟨start, stop⟩ | ⟨q, member, inside⟩)
    · omega
    · exact placed.apart q member x (entryAddr_mem placed.directory below lower upper) inside

/-! ### Reading the walk -/

theorem directoryIndex_lt (v : UInt32) : (directoryIndex v).toNat < 1024 := by
  have bound := v.toNat_lt
  have shifted : (directoryIndex v).toNat = v.toNat / 2 ^ 22 := by
    rw [directoryIndex, UInt32.toNat_shiftRight, Nat.shiftRight_eq_div_pow]
    rfl
  omega

theorem tableIndex_lt (v : UInt32) : (tableIndex v).toNat < 1024 := by
  rw [tableIndex, UInt32.toNat_and]
  exact Nat.lt_of_le_of_lt Nat.and_le_right (by decide)

theorem toNat_frameOf (entry : UInt32) : (frameOf entry).toNat = entry.toNat / 4096 * 4096 := by
  rw [frameOf, UInt32.toNat_and]
  exact and_highBits (k := 12) entry.toNat_lt

theorem frameOf_aligned (aligned : q.toNat % 4096 = 0) : frameOf q = q := by
  apply UInt32.toNat_inj.mp
  rw [toNat_frameOf]
  omega

/-- The flags of an entry lie below the address of its page. -/
theorem toNat_flags (aligned : q.toNat % 4096 = 0) :
    (q ||| pagePresent ||| pageRw).toNat = q.toNat + 3 := by
  have split : q.toNat = 2 ^ 12 * (q.toNat / 4096) := by omega
  have three : pagePresent ||| pageRw = 3 := rfl
  rw [UInt32.or_assoc, three, UInt32.toNat_or, split,
    ← Nat.two_pow_add_eq_or_of_lt (show (3 : UInt32).toNat < 2 ^ 12 by decide)]
  rfl

theorem frameOf_flags (aligned : q.toNat % 4096 = 0) :
    frameOf (q ||| pagePresent ||| pageRw) = q := by
  apply UInt32.toNat_inj.mp
  rw [toNat_frameOf, toNat_flags aligned]
  omega

/-- The walk reads entries of the directory, and of the tables that are present in it. -/
theorem translate_congr {m' : Mem} {r : ControlRegs}
    (directory : ∀ i : UInt32, i.toNat < 1024 →
      m'.read32 (entryAddr (frameOf r.cr3) i) = m.read32 (entryAddr (frameOf r.cr3) i))
    (tables : ∀ i : UInt32, i.toNat < 1024 →
      m.read32 (entryAddr (frameOf r.cr3) i) &&& pagePresent ≠ 0 → ∀ j : UInt32, j.toNat < 1024 →
        m'.read32 (entryAddr (frameOf (m.read32 (entryAddr (frameOf r.cr3) i))) j) =
          m.read32 (entryAddr (frameOf (m.read32 (entryAddr (frameOf r.cr3) i))) j)) :
    translate m' r v = translate m r v := by
  have same : directoryEntry m' r v = directoryEntry m r v := directory _ (directoryIndex_lt v)
  rw [translate, translate, same]
  by_cases present : directoryEntry m r v &&& pagePresent = 0
  · simp only [if_pos present]
  · have entry : tableEntry m' r v = tableEntry m r v := by
      rw [tableEntry, same]
      exact tables _ (directoryIndex_lt v) present _ (tableIndex_lt v)
    rw [entry]

end FriscaOS
