import FriscaOS.Memory.HeapRuns
import FriscaOS.Memory.Paging
import FriscaOS.Memory.PmmRefinement
import Mathlib.Data.Bool.AllAny
import Mathlib.Order.CompletePartialOrder

/-! The memory of the booted kernel in layers: the heap, the page tables and the blocks of other
callers, all obtained from the frame allocator, share no byte in any run. -/
namespace FriscaOS

open ByteMemory FramePool Transition

/-- The memory subsystems with what their callers hold: the pointers from `kmalloc` and the
addresses from `pmm_alloc_block` that were not yet given back. -/
structure Layers where
  pmm : Pmm
  heap : Heap
  regs : ControlRegs
  live : List UInt32
  owned : List UInt32

/-- `pmm_init`, `heap_init` and `paging_init`, as `kernel_main` calls them. -/
def memoryInit (memSize : UInt32) (m : Mem) (r : ControlRegs) : Layers :=
  let s := pmmInit memSize
  let (s, heap) := heapInit s m
  let (s, mem, regs) := pagingInit s heap.mem r
  ⟨s, { heap with mem := mem }, regs, [], []⟩

/-- What callers may store to: the payloads and the blocks that they hold. -/
def Layers.clientBytes (s : Layers) : Set Nat :=
  {x | (∃ q ∈ s.live, x ∈ payloadBytes s.heap.mem q) ∨ ∃ q ∈ s.owned, x ∈ pageBytes q}

inductive LayerOp
  | kmalloc (size : UInt32)
  | kfree (ptr : UInt32)
  | allocBlock
  | freeBlock (addr : UInt32)
  -- stores of callers to what they hold, as the memory they leave
  | client (mem : Mem)

inductive LayerStep : Layers → LayerOp → Layers → Prop
  | kmalloc {s size h p} : kmalloc s.heap size = some (h, p) →
      LayerStep s (.kmalloc size)
        { s with heap := h, live := if p = NULL then s.live else p :: s.live }
  | kfree {s ptr h} : ptr = NULL ∨ ptr ∈ s.live → kfree s.heap ptr = some h →
      LayerStep s (.kfree ptr) { s with heap := h, live := s.live.erase ptr }
  | allocBlock {s pmm addr} : pmmAllocBlock s.pmm = (pmm, addr) →
      LayerStep s .allocBlock
        { s with pmm := pmm, owned := if addr = 0 then s.owned else addr :: s.owned }
  | freeBlock {s addr} : addr ∈ s.owned →
      LayerStep s (.freeBlock addr)
        { s with pmm := pmmFreeBlock s.pmm addr, owned := s.owned.erase addr }
  | client {s mem} : Within s.clientBytes s.heap.mem mem →
      LayerStep s (.client mem) { s with heap := ⟨mem, s.heap.heapStart⟩ }

/-! ### The regions -/

/-- The page directory and the four page tables it maps. -/
def Layers.pagingPages (s : Layers) : List UInt32 :=
  s.regs.cr3 :: [0, 1, 2, 3].map fun t => frameOf (s.heap.mem.read32 (entryAddr s.regs.cr3 t))

/-- The 16 KB of the heap. -/
def Layers.heapBytes (s : Layers) : Set Nat :=
  {x | s.heap.heapStart.toNat ≤ x ∧ x < s.heap.heapStart.toNat + 16384}

/-- Every region that was obtained from the frame allocator. -/
def Layers.regions (s : Layers) : List (Set Nat) :=
  s.heapBytes :: (s.pagingPages ++ s.owned).map pageBytes

/-- The layers share no byte, and the page tables are those of `b`. -/
structure LayersSeparated (b s : Layers) : Prop where
  disjoint : s.regions.Pairwise Disjoint
  inside : ∀ region ∈ s.regions, region ⊆ Set.Ico 0x100000 0x1000000
  pages : s.pagingPages = b.pagingPages
  entries : ∀ q ∈ b.pagingPages, ∀ i : UInt32, i.toNat < 1024 →
    s.heap.mem.read32 (entryAddr q i) = b.heap.mem.read32 (entryAddr q i)
  translation : ∀ v, translate s.heap.mem s.regs v = translate b.heap.mem b.regs v

/-! ### Boot -/

/-- The addresses of `n` frames from frame `k` on. -/
def frameAddrs (k n : Nat) : List UInt32 := (List.range' k n).map fun i => .ofNat (i * 4096)

/-- The nine frames that boot takes, the last one first. -/
def bootBlocks : List UInt32 := (frameAddrs 256 9).reverse

variable {s t : Pmm} {memSize addr : UInt32} {m : Mem} {r : ControlRegs} {owned : List UInt32}
  {p : Pool Nat} {k n : Nat} {ps : List UInt32}

/-- With no free frame below `k`, a free frame `k` is handed out. -/
theorem FrameInv.alloc_first (inv : FrameInv memSize ⟨s, owned⟩ p)
    (lowest : ∀ i ∈ s.freeBlocks, k ≤ i) (free : k ∈ s.freeBlocks) :
    ∃ t q, pmmAllocBlock s = (t, .ofNat (k * 4096)) ∧
      FrameInv memSize ⟨t, .ofNat (k * 4096) :: owned⟩ q ∧ t.freeBlocks = s.freeBlocks.erase k := by
  obtain ⟨t, a, q, result, least, after, rest⟩ := inv.alloc ⟨k, free⟩
  obtain rfl : a = k := Nat.le_antisymm (least.2 free) (lowest a least.1)
  exact ⟨t, q, result, after, rest⟩

theorem FrameInv.alloc_contiguous (inv : FrameInv memSize ⟨s, owned⟩ p)
    (lowest : ∀ i ∈ s.freeBlocks, k ≤ i) (free : ∀ i < n, k + i ∈ s.freeBlocks) :
    ∃ t q, pmmAllocBlocks n s = (t, frameAddrs k n) ∧
      FrameInv memSize ⟨t, (frameAddrs k n).reverse ++ owned⟩ q ∧
      ∀ i, i ∈ t.freeBlocks ↔ i ∈ s.freeBlocks ∧ k + n ≤ i := by
  induction n generalizing s owned p k with
  | zero => exact ⟨s, p, rfl, inv, fun i => ⟨fun member => ⟨member, lowest i member⟩, And.left⟩⟩
  | succ n ih =>
    obtain ⟨t, q, first, inv', free'⟩ := inv.alloc_first lowest (free 0 (Nat.succ_pos n))
    have lowest' (i : Nat) (member : i ∈ t.freeBlocks) : k + 1 ≤ i := by
      rw [free'] at member
      obtain ⟨other, old⟩ := Finset.mem_erase.mp member
      exact Nat.lt_of_le_of_ne (lowest i old) (Ne.symm other)
    have next (i : Nat) (below : i < n) : k + 1 + i ∈ t.freeBlocks := by
      rw [free', Nat.add_assoc, Nat.add_comm 1 i]
      exact Finset.mem_erase.mpr ⟨by omega, free (i + 1) (Nat.succ_lt_succ below)⟩
    obtain ⟨u, q', rest, inv'', free''⟩ := ih inv' lowest' next
    have addresses : frameAddrs k (n + 1) = .ofNat (k * 4096) :: frameAddrs (k + 1) n := rfl
    refine ⟨u, q', ?_, ?_, fun i => ?_⟩
    · simp only [pmmAllocBlocks, first, rest, addresses]
    · rw [addresses, List.reverse_cons, List.append_assoc]
      exact inv''
    · rw [free'', free', Finset.mem_erase]
      constructor
      · rintro ⟨⟨-, old⟩, above⟩
        exact ⟨old, by omega⟩
      · rintro ⟨old, above⟩
        exact ⟨⟨by omega, old⟩, by omega⟩

/-- As `pmm_init` leaves them, the frames from `k` on are free and no other ones. -/
theorem FrameInv.alloc_many (inv : FrameInv memSize ⟨s, owned⟩ p)
    (free : s.freeBlocks = Finset.Ico k (managedBlocks memSize))
    (room : k + n ≤ managedBlocks memSize) :
    ∃ t q, pmmAllocBlocks n s = (t, frameAddrs k n) ∧
      FrameInv memSize ⟨t, (frameAddrs k n).reverse ++ owned⟩ q ∧
      t.freeBlocks = Finset.Ico (k + n) (managedBlocks memSize) := by
  obtain ⟨t, q, result, inv', free'⟩ := inv.alloc_contiguous (n := n)
    (fun i member => (Finset.mem_Ico.mp (free ▸ member)).1)
    (fun i below => free ▸ Finset.mem_Ico.mpr ⟨Nat.le_add_right .., by omega⟩)
  refine ⟨t, q, result, inv', ?_⟩
  ext i
  rw [free', free, Finset.mem_Ico, Finset.mem_Ico]
  omega

/-- Calls of the allocator while there are enough free frames. -/
theorem FrameInv.alloc_blocks (inv : FrameInv memSize ⟨s, owned⟩ p)
    (room : n ≤ s.freeBlocks.card) : ∃ t ps q, pmmAllocBlocks n s = (t, ps) ∧ ps.length = n ∧
      FrameInv memSize ⟨t, ps.reverse ++ owned⟩ q := by
  induction n generalizing s owned p with
  | zero => exact ⟨s, [], p, rfl, rfl, inv⟩
  | succ n ih =>
    have some_ : s.freeBlocks.Nonempty := Finset.card_pos.mp (by omega)
    obtain ⟨t, a, q, first, least, inv', free'⟩ := inv.alloc some_
    have fewer : n ≤ t.freeBlocks.card := by
      rw [free', Finset.card_erase_of_mem least.1]
      omega
    obtain ⟨u, ps, q', rest, length, inv''⟩ := ih inv' fewer
    refine ⟨u, .ofNat (a * 4096) :: ps, q', ?_, congrArg (· + 1) length, ?_⟩
    · simp only [pmmAllocBlocks, first, rest]
    · rw [List.reverse_cons, List.append_assoc]
      exact inv''

/-- What the calls return are frames that were free. -/
theorem FrameInv.obtained_free (inv : FrameInv memSize ⟨s, owned⟩ p)
    (member : addr ∈ (pmmAllocBlocks n s).2) (nonzero : addr ≠ 0) :
    ∃ a ∈ s.freeBlocks, addr = .ofNat (a * 4096) := by
  induction n generalizing s owned p with
  | zero => cases member
  | succ n ih =>
    rcases s.freeBlocks.eq_empty_or_nonempty with none | some_
    · simp only [pmmAllocBlocks, inv.exhausted none, List.mem_cons] at member
      exact ih inv (member.resolve_left nonzero)
    · obtain ⟨t, a, q, first, least, inv', free'⟩ := inv.alloc some_
      simp only [pmmAllocBlocks, first, List.mem_cons] at member
      rcases member with rfl | later
      · exact ⟨a, least.1, rfl⟩
      · obtain ⟨b, free, place⟩ := ih inv' later
        rw [free'] at free
        exact ⟨b, Finset.mem_of_mem_erase free, place⟩

theorem heapInit_eq (four : pmmAllocBlocks 4 s = (t, addr :: ps)) :
    heapInit s m = (t, heapInitAt m addr) := by
  simp only [pmmAllocBlocks, Prod.mk.injEq, List.cons.injEq] at four
  rw [← four.1, ← four.2.1]
  rfl

/-- The page directory and the tables of `memoryInit`. -/
def bootDirectory : UInt32 := 0x104000

def bootTables : List UInt32 := [0x105000, 0x106000, 0x107000, 0x108000]

theorem bootPages_aligned : ∀ q ∈ bootDirectory :: bootTables, q.toNat % 4096 = 0 :=
  List.all_iff_forall_prop.mp (by decide)

theorem bootPages_range : ∀ q ∈ bootDirectory :: bootTables,
    0x104000 ≤ q.toNat ∧ q.toNat + 4096 ≤ 0x109000 := List.all_iff_forall_prop.mp (by decide)

theorem bootPages_apart : (bootDirectory :: bootTables).Pairwise PagesApart := by
  have different : (bootDirectory :: bootTables).Pairwise (· ≠ ·) := by decide
  apply different.imp_of_mem
  intro p q hp hq other
  exact pagesApart_of_ne (bootPages_aligned p hp) (bootPages_aligned q hq) other

theorem bootTables_placed : TablesPlaced bootDirectory bootTables where
  directory := by decide
  aligned q member := bootPages_aligned q (.tail _ member)
  apart := (List.pairwise_cons.mp bootPages_apart).1
  distinct := (List.pairwise_cons.mp bootPages_apart).2

/-- Boot gives the first four frames above 1 MB to the heap, and the next five to paging. -/
structure Booted (memSize : UInt32) (r : ControlRegs) (b : Layers) : Prop where
  frames : ∃ p, FrameInv memSize ⟨b.pmm, bootBlocks⟩ p
  heap : ∃ bs, HeapInv bootRegion ⟨b.heap, []⟩ bs
  directory : ∃ m, DirectoryBuilt bootDirectory bootTables m b.heap.mem
  regs : b.regs = enablePaging (loadPageDirectory r bootDirectory)
  live : b.live = []
  owned : b.owned = []

theorem memoryInit_booted (enough : 0x100000 + 9 * 4096 ≤ memSize.toNat) (m : Mem)
    (r : ControlRegs) : Booted memSize r (memoryInit memSize m r) := by
  have room : 265 ≤ managedBlocks memSize := Nat.le_min.mpr ⟨by omega, by decide⟩
  obtain ⟨inv, free⟩ := FrameInv.initial memSize
  obtain ⟨s, _, four, inv, free⟩ := inv.alloc_many (n := 4) free (by omega)
  obtain ⟨u, p, five, inv, -⟩ := inv.alloc_many (n := 5) free (by omega)
  have heap : heapInit (pmmInit memSize) m = (s, heapInitAt m bootRegion.base) := heapInit_eq four
  have paging : pagingInit s (heapInitAt m bootRegion.base).mem r =
      (u, pagingMem bootDirectory bootTables (heapInitAt m bootRegion.base).mem,
        enablePaging (loadPageDirectory r bootDirectory)) := pagingInit_eq five
  have built : DirectoryBuilt bootDirectory bootTables (heapInitAt m bootRegion.base).mem
      (pagingMem bootDirectory bootTables (heapInitAt m bootRegion.base).mem) :=
    pagingMem_spec bootTables_placed (by decide)
  have boot : memoryInit memSize m r = ⟨u, ⟨pagingMem bootDirectory bootTables
      (heapInitAt m bootRegion.base).mem, bootRegion.base⟩,
      enablePaging (loadPageDirectory r bootDirectory), [], []⟩ := by
    simp only [memoryInit, heap, paging]
    rfl
  rw [boot]
  have nobody : ∀ q ∈ ([] : List UInt32), q ∈ (HeapRun.init bootRegion m).live :=
    fun q member => absurd member List.not_mem_nil
  refine ⟨⟨p, inv⟩, ⟨_, (heapInv_init bootRegion m).client nobody (built.frame.mono ?_)⟩, ⟨_, built⟩,
    rfl, rfl, rfl⟩
  -- the tables lie above the heap
  have top : bootRegion.base.toNat + 16384 = 0x104000 := rfl
  rintro x (⟨lower, _⟩ | ⟨q, member, lower, _⟩)
  · exact .inr (.inl (top ▸ lower))
  · have above := (bootPages_range q (.tail _ member)).1
    exact .inr (.inl (by omega))

/-! ### Steps -/

/-- What every step keeps. -/
structure LayersInv (memSize : UInt32) (b s : Layers) : Prop where
  frames : ∃ p, FrameInv memSize ⟨s.pmm, s.owned ++ bootBlocks⟩ p
  heap : ∃ bs, HeapInv bootRegion ⟨s.heap, s.live⟩ bs
  tables : ∀ x, 0x104000 ≤ x → x < 0x109000 → s.heap.mem x = b.heap.mem x
  regs : s.regs = b.regs

theorem Booted.inv {b : Layers} (booted : Booted memSize r b) : LayersInv memSize b b where
  frames := by
    rw [booted.owned]
    exact booted.frames
  heap := by
    rw [booted.live]
    exact booted.heap
  tables _ _ _ := rfl
  regs := rfl

variable {b s t : Layers} {op : LayerOp} {ops : List LayerOp}

/-- A frame that boot took is not owned by anyone else. -/
theorem LayersInv.owned_above (inv : LayersInv memSize b s) (member : addr ∈ s.owned) :
    addr.toNat % 4096 = 0 ∧ 0x109000 ≤ addr.toNat ∧ addr.toNat + 4096 ≤ 0x1000000 := by
  obtain ⟨p, frames⟩ := inv.frames
  have limit : managedBlocks memSize ≤ 4096 := Nat.min_le_right ..
  have live : addr ∈ s.owned ++ bootBlocks := List.mem_append_left _ member
  have aligned := Nat.mod_eq_zero_of_dvd (frames.rep.aligned addr live)
  have above := frames.rep.above addr live
  have below := frames.rep.below addr live
  refine ⟨aligned, ?_, by omega⟩
  by_contra low
  -- otherwise it is one of the nine frames
  have boot : addr ∈ bootBlocks := by
    rw [bootBlocks, List.mem_reverse, frameAddrs, List.mem_map]
    refine ⟨addr.toNat / 4096, List.mem_range'_1.mpr ⟨by omega, by omega⟩, ?_⟩
    rw [Nat.div_mul_cancel (Nat.dvd_of_mod_eq_zero aligned), UInt32.ofNat_toNat]
  exact List.disjoint_of_nodup_append frames.rep.nodup member boot

/-- The bytes of the heap region. -/
theorem HeapInv.kmalloc_region {R : HeapRegion} {run : HeapRun} {bs : List FreeList.Block} {h : Heap}
    {size ptr : UInt32} (inv : HeapInv R run bs) (result : kmalloc run.heap size = some (h, ptr)) :
    Within {x | R.base.toNat ≤ x ∧ x < R.base.toNat + 16384} run.heap.mem h.mem := by
  cases inv.kmalloc_cases result with
  | failed => exact .refl _ _
  | granted _ _ _ _ _ change =>
    refine change.mono ?_
    rintro x ⟨b, member, _, lower, upper⟩
    have bounds := inv.bounds member
    rw [FreeList.Block.stop] at upper
    exact ⟨by omega, by omega⟩

theorem HeapInv.kfree_region {R : HeapRegion} {run : HeapRun} {bs : List FreeList.Block} {h : Heap}
    {ptr : UInt32} (inv : HeapInv R run bs) (legal : ptr = NULL ∨ ptr ∈ run.live)
    (result : kfree run.heap ptr = some h) :
    Within {x | R.base.toNat ≤ x ∧ x < R.base.toNat + 16384} run.heap.mem h.mem := by
  rcases legal with rfl | member
  · simp only [kfree, ↓reduceIte, Option.some.injEq] at result
    exact result ▸ .refl _ _
  · obtain ⟨h', result', _, change⟩ := inv.kfree_some member
    rw [result', Option.some.injEq] at result
    exact result ▸ change.mono fun x header => inv.header_region header

/-- The tables lie above the heap region. -/
theorem LayersInv.tables_of_region {mem : Mem} (inv : LayersInv memSize b s)
    (change : Within {x | bootRegion.base.toNat ≤ x ∧ x < bootRegion.base.toNat + 16384}
      s.heap.mem mem) : ∀ x, 0x104000 ≤ x → x < 0x109000 → mem x = b.heap.mem x := by
  intro x lower upper
  have top : bootRegion.base.toNat + 16384 = 0x104000 := rfl
  rw [change x (fun inside => by have := inside.2; omega), inv.tables x lower upper]

theorem LayersInv.kmalloc {h : Heap} {size ptr : UInt32} (inv : LayersInv memSize b s)
    (result : kmalloc s.heap size = some (h, ptr)) : LayersInv memSize b
      { s with heap := h, live := if ptr = NULL then s.live else ptr :: s.live } := by
  obtain ⟨bs, heap⟩ := inv.heap
  obtain ⟨cs, heap', -⟩ := heap.kmalloc_step result
  exact ⟨inv.frames, ⟨cs, heap'⟩, inv.tables_of_region (heap.kmalloc_region result), inv.regs⟩

theorem LayersInv.kfree {h : Heap} {ptr : UInt32} (inv : LayersInv memSize b s)
    (legal : ptr = NULL ∨ ptr ∈ s.live) (result : kfree s.heap ptr = some h) :
    LayersInv memSize b { s with heap := h, live := s.live.erase ptr } := by
  obtain ⟨bs, heap⟩ := inv.heap
  obtain ⟨cs, heap', -⟩ := heap.kfree_step legal result
  exact ⟨inv.frames, ⟨cs, heap'⟩, inv.tables_of_region (heap.kfree_region legal result), inv.regs⟩

/-- Stores of callers to what they hold meet neither a header nor a table. -/
theorem LayersInv.client {mem : Mem} (inv : LayersInv memSize b s)
    (change : Within s.clientBytes s.heap.mem mem) :
    LayersInv memSize b { s with heap := ⟨mem, s.heap.heapStart⟩ } := by
  obtain ⟨bs, heap⟩ := inv.heap
  have top : bootRegion.base.toNat + 16384 = 0x104000 := rfl
  refine ⟨inv.frames, ⟨bs, heap.client (fun q member => member) (change.mono ?_)⟩, ?_, inv.regs⟩
  · rintro x (payload | ⟨q, member, lower, _⟩)
    · exact .inr (.inr payload)
    · have above := (inv.owned_above member).2.1
      exact .inr (.inl (by omega))
  · intro x lower upper
    refine (change x ?_).trans (inv.tables x lower upper)
    rintro (⟨q, member, start, stop⟩ | ⟨q, member, start, stop⟩)
    · have region := heap.payload_region member
      dsimp only at region
      omega
    · have above := (inv.owned_above member).2.1
      omega

theorem LayersInv.step (inv : LayersInv memSize b s) (taken : LayerStep s op t) :
    LayersInv memSize b t := by
  cases taken with
  | kmalloc result => exact inv.kmalloc result
  | kfree legal result => exact inv.kfree legal result
  | client change => exact inv.client change
  | @allocBlock pmm addr result =>
    obtain ⟨p, frames⟩ := inv.frames
    obtain ⟨q, -, frames'⟩ := frames.step (.alloc result)
    refine ⟨⟨q, ?_⟩, inv.heap, inv.tables, inv.regs⟩
    by_cases zero : addr = 0
    · simp only [if_pos zero] at frames' ⊢
      exact frames'
    · simp only [if_neg zero] at frames' ⊢
      exact frames'
  | @freeBlock addr member =>
    obtain ⟨p, frames⟩ := inv.frames
    obtain ⟨q, -, frames'⟩ := frames.step (.free (List.mem_append_left _ member))
    rw [List.erase_append_left _ member] at frames'
    exact ⟨⟨q, frames'⟩, inv.heap, inv.tables, inv.regs⟩

/-! ### Separation -/

/-- The entry of a table that boot mapped. -/
theorem Booted.entry {i q : UInt32} (booted : Booted memSize r b)
    (mapped : bootTables[i.toNat]? = some q) :
    b.heap.mem.read32 (entryAddr bootDirectory i) = q ||| pagePresent ||| pageRw := by
  obtain ⟨m, built⟩ := booted.directory
  exact (built.mapped i q mapped).registered

/-- Words of the directory and the tables are as boot left them. -/
theorem LayersInv.word (inv : LayersInv memSize b s) {q i : UInt32}
    (page : q ∈ bootDirectory :: bootTables) (bound : i.toNat < 1024) :
    s.heap.mem.read32 (entryAddr q i) = b.heap.mem.read32 (entryAddr q i) := by
  have range := bootPages_range q page
  apply Mem.read32_congr
  intro x lower upper
  obtain ⟨start, stop⟩ := entryAddr_mem (bootPages_aligned q page) bound lower upper
  exact inv.tables x (by omega) (by omega)

theorem LayersInv.pagingPages (inv : LayersInv memSize b s) (booted : Booted memSize r b) :
    s.pagingPages = bootDirectory :: bootTables := by
  have directory : s.regs.cr3 = bootDirectory := by
    rw [inv.regs, booted.regs]
    rfl
  have table (i q : UInt32) (bound : i.toNat < 1024) (mapped : bootTables[i.toNat]? = some q)
      (aligned : q.toNat % 4096 = 0) :
      frameOf (s.heap.mem.read32 (entryAddr bootDirectory i)) = q := by
    rw [inv.word (.head _) bound, booted.entry mapped, frameOf_flags aligned]
  rw [Layers.pagingPages, directory, bootTables, List.map_cons, List.map_cons, List.map_cons,
    List.map_cons, List.map_nil, table 0 _ (by decide) rfl (by decide),
    table 1 _ (by decide) rfl (by decide), table 2 _ (by decide) rfl (by decide),
    table 3 _ (by decide) rfl (by decide)]

theorem LayersInv.translation (inv : LayersInv memSize b s) (booted : Booted memSize r b)
    (v : UInt32) : translate s.heap.mem s.regs v = translate b.heap.mem b.regs v := by
  have directory : frameOf b.regs.cr3 = bootDirectory := by
    rw [booted.regs]
    exact frameOf_aligned (q := bootDirectory) (by decide)
  rw [inv.regs]
  apply translate_congr
  · rw [directory]
    exact fun i bound => inv.word (.head _) bound
  · rw [directory]
    intro i bound present j below
    rcases Nat.lt_or_ge i.toNat bootTables.length with mapped | empty
    · have member := List.getElem_mem mapped
      rw [booted.entry (List.getElem?_eq_getElem mapped),
        frameOf_flags (bootPages_aligned _ (.tail _ member))]
      exact inv.word (.tail _ member) below
    · -- the other entries are not present
      obtain ⟨m, built⟩ := booted.directory
      rw [built.empty i empty bound] at present
      exact absurd rfl present

theorem LayersInv.disjoint (inv : LayersInv memSize b s) (booted : Booted memSize r b) :
    s.regions.Pairwise Disjoint := by
  obtain ⟨bs, heap⟩ := inv.heap
  obtain ⟨p, frames⟩ := inv.frames
  have start : s.heap.heapStart = bootRegion.base := heap.start
  have top : bootRegion.base.toNat + 16384 = 0x104000 := rfl
  have pages : (bootDirectory :: bootTables ++ s.owned).Pairwise PagesApart := by
    refine List.pairwise_append.mpr ⟨bootPages_apart, ?_, ?_⟩
    · apply (List.nodup_append.mp frames.rep.nodup).1.imp_of_mem
      intro p q hp hq other
      exact pagesApart_of_ne (inv.owned_above hp).1 (inv.owned_above hq).1 other
    · rintro p hp q hq x ⟨_, below⟩ ⟨above, _⟩
      have range := bootPages_range p hp
      have owned := inv.owned_above hq
      omega
  rw [Layers.regions, inv.pagingPages booted]
  refine List.pairwise_cons.mpr ⟨?_, List.pairwise_map.mpr ?_⟩
  · intro region member
    obtain ⟨q, page, rfl⟩ := List.mem_map.mp member
    rw [Set.disjoint_left]
    rintro x ⟨_, below⟩ ⟨above, _⟩
    rw [start] at below
    rcases List.mem_append.mp page with boot | owned
    · have range := bootPages_range q boot
      omega
    · have range := inv.owned_above owned
      omega
  · exact pages.imp fun apart => Set.disjoint_left.mpr apart

theorem LayersInv.inside (inv : LayersInv memSize b s) (booted : Booted memSize r b) :
    ∀ region ∈ s.regions, region ⊆ Set.Ico 0x100000 0x1000000 := by
  obtain ⟨bs, heap⟩ := inv.heap
  have start : s.heap.heapStart = bootRegion.base := heap.start
  have base : bootRegion.base.toNat = 0x100000 := rfl
  rw [Layers.regions, inv.pagingPages booted, List.forall_mem_cons]
  constructor
  · rintro x ⟨lower, upper⟩
    rw [start, base] at lower upper
    exact Set.mem_Ico.mpr ⟨by omega, by omega⟩
  · intro region member
    obtain ⟨q, page, rfl⟩ := List.mem_map.mp member
    rintro x ⟨lower, upper⟩
    rcases List.mem_append.mp page with boot | owned
    · have range := bootPages_range q boot
      exact Set.mem_Ico.mpr ⟨by omega, by omega⟩
    · have range := inv.owned_above owned
      exact Set.mem_Ico.mpr ⟨by omega, by omega⟩

/-- In every run after boot the heap, the page tables and the blocks of other callers are
pairwise disjoint, and addresses are translated as boot set it up. -/
theorem layers_separated (enough : 0x100000 + 9 * 4096 ≤ memSize.toNat)
    (run : Run LayerStep (memoryInit memSize m r) ops s) :
    LayersSeparated (memoryInit memSize m r) s := by
  have booted := memoryInit_booted enough m r
  have inv : LayersInv memSize (memoryInit memSize m r) s :=
    run.invariant (LayersInv memSize (memoryInit memSize m r)) (fun _ _ _ inv => inv.step)
      booted.inv
  have pages := booted.inv.pagingPages booted
  refine ⟨inv.disjoint booted, inv.inside booted, (inv.pagingPages booted).trans pages.symm, ?_,
    inv.translation booted⟩
  rw [pages]
  exact fun q page i bound => inv.word page bound

/-- An allocation and a request for a block, in the smallest such memory. -/
theorem layers_separated_smallest : ∃ t,
    Run LayerStep (memoryInit 0x109000 (fun _ => 0) ⟨0, 0⟩) [.kmalloc 100, .allocBlock] t ∧
      LayersSeparated (memoryInit 0x109000 (fun _ => 0) ⟨0, 0⟩) t := by
  have enough : 0x100000 + 9 * 4096 ≤ (0x109000 : UInt32).toNat := by decide
  have calls (b : Layers) (inv : LayersInv 0x109000 b b) :
      ∃ t, Run LayerStep b [.kmalloc 100, .allocBlock] t := by
    obtain ⟨bs, heap⟩ := inv.heap
    obtain ⟨h, p, result, -⟩ := heap.kmalloc_spec 100
    exact ⟨_, .cons (.kmalloc result) (.single (.allocBlock rfl))⟩
  obtain ⟨t, run⟩ := calls _ (memoryInit_booted enough (fun _ => 0) ⟨0, 0⟩).inv
  exact ⟨t, run, layers_separated enough run⟩

end FriscaOS
