import FriscaOS.Fs.CString
import FriscaOS.Memory.Heap
import Mathlib.Logic.Function.Basic

/-! The file table of `vfs.c`. The name array of a node is a memory of its own, from index 0
on, and the contents are buffers in the kernel heap. -/
namespace FriscaOS

open ByteMemory Function

/-- `MAX_FILENAME`, with the terminator. -/
def maxFilename : UInt32 := 32

/-- `MAX_FILES`. -/
def maxFiles : UInt32 := 16

/-- `FS_FILE`. -/
def fsFile : UInt32 := 0x01

structure VfsNode where
  name : Mem
  flags : UInt32
  length : UInt32
  buffer : UInt32

/-- The bytes that may be read from the name array. -/
def VfsNode.nameBytes (n : VfsNode) : List UInt8 := n.name.bytes 0 maxFilename.toNat

structure Vfs where
  fileTable : Nat → VfsNode
  fileCount : UInt32

/-- The body of the loop of `vfs_init`. -/
def VfsNode.clear (n : VfsNode) : VfsNode :=
  { name := n.name.write8 0 0, flags := 0, length := 0, buffer := NULL }

def vfsInit (v : Vfs) : Vfs :=
  let clearSlot (v : Vfs) (i : Nat) : Vfs :=
    { v with fileTable := update v.fileTable i (v.fileTable i).clear }
  (List.range maxFiles.toNat).foldl clearSlot { v with fileCount := 0 }

/-- The loop over the files that `vfs_create_file` and `vfs_read_file` share, with `n` files left
to look at from index `i` on: the first file of that name. -/
def findLoop (v : Vfs) (name : List UInt8) : Nat → Nat → Option (Option Nat)
  | 0, _ => some none
  | n + 1, i => do
    let difference ← strcmp (v.fileTable i).nameBytes name
    if difference = 0 then some (some i) else findLoop v name n (i + 1)

def findFile (v : Vfs) (name : List UInt8) : Option (Option Nat) :=
  findLoop v name v.fileCount.toNat 0

def vfsCreateFile (h : Heap) (v : Vfs) (name content : List UInt8) :
    Option (Heap × Vfs × Int) := do
  -- the three refusals, in the order of the source
  if v.fileCount ≥ maxFiles then return (h, v, -1)
  let found ← findFile v name
  if found.isSome then return (h, v, -2)
  let len ← strlen content
  let (h, buf) ← kmalloc h (len + 1)
  if buf = NULL then return (h, v, -3)
  let m ← memcpy h.mem buf.toNat content len.toNat
  let m := m.write8 (buf.toNat + len.toNat) 0
  -- the name is cut to what the array can hold
  let nameLen ← strlen name
  let nameLen := if nameLen ≥ maxFilename then maxFilename - 1 else nameLen
  let file := v.fileTable v.fileCount.toNat
  let fileName ← memcpy file.name 0 name nameLen.toNat
  let file :=
    { name := fileName.write8 nameLen.toNat 0, flags := fsFile, length := len, buffer := buf }
  let v :=
    { fileTable := update v.fileTable v.fileCount.toNat file, fileCount := v.fileCount + 1 }
  return ({ h with mem := m }, v, 0)

/-- `vfs_read_file`, as the index of the node it points to. -/
def vfsReadFile (v : Vfs) (name : List UInt8) : Option (Option Nat) := findFile v name

/-! ### Stored names -/

/-- The name array holds the string. -/
def VfsNode.Named (n : VfsNode) (s : List UInt8) : Prop :=
  0 ∉ s ∧ ∃ rest, n.nameBytes = s ++ 0 :: rest

/-- The string that the name array holds. -/
def VfsNode.text (n : VfsNode) : List UInt8 := n.nameBytes.takeWhile (· ≠ 0)

variable {v : Vfs} {h : Heap} {names : List (List UInt8)}

theorem VfsNode.Named.text {n : VfsNode} {s : List UInt8} (named : n.Named s) : n.text = s := by
  obtain ⟨noNul, rest, bytes⟩ := named
  rw [VfsNode.text, bytes, List.takeWhile_append_of_pos]
  · simp
  · intro b member
    have nonzero : b ≠ 0 := fun zero => noNul (zero ▸ member)
    simpa using nonzero

/-- The files hold these names, in order. -/
def Vfs.Names (v : Vfs) (names : List (List UInt8)) : Prop :=
  v.fileCount.toNat = names.length ∧
    ∀ i s, names[i]? = some s → (v.fileTable i).Named s

/-- The search from index `i` on finds a file exactly if its name is among those left, and then the
first one of this name. -/
theorem findLoop_spec (name : CString) {n i : Nat}
    (named : ∀ j s, names[j]? = some s → (v.fileTable (i + j)).Named s)
    (length : names.length = n) :
    ∃ r, findLoop v name.bytes n i = some r ∧ (r = none ↔ name.chars ∉ names) ∧
      ∀ j, r = some j → i ≤ j ∧ names[j - i]? = some name.chars ∧ name.chars ∉ names.take (j - i) := by
  induction n generalizing i names with
  | zero =>
    obtain rfl := List.length_eq_zero_iff.mp length
    exact ⟨none, rfl, by simp, by simp⟩
  | succ n ih =>
    cases names with
    | nil => simp at length
    | cons s names =>
      obtain ⟨noNul, rest, bytes⟩ := named 0 s rfl
      obtain ⟨d, compared, equal⟩ :=
        strcmp_append (x := rest) (y := []) noNul name.noNul
      rw [findLoop, ← Nat.add_zero i, bytes, Nat.add_zero, CString.bytes, compared]
      by_cases same : d = 0
      · -- found: the loop ends at this slot
        refine ⟨some i, by simp [same], ?_, ?_⟩
        · simp [equal.mp same]
        · rintro j found
          obtain rfl := Option.some.inj found
          simp [equal.mp same]
      · -- the other names are those of the slots from the next one on
        obtain ⟨r, result, absent, found⟩ := ih (i := i + 1)
          (fun j t there => by simpa [Nat.add_assoc, Nat.add_comm 1] using named (j + 1) t there)
          (by simpa using length)
        refine ⟨r, ?_, ?_, fun j hit => ?_⟩
        · simpa [same, CString.bytes] using result
        · have different : s ≠ name.chars := fun s_eq => same (equal.mpr s_eq)
          simp [absent, different.symm]
        · obtain ⟨lower, there, first⟩ := found j hit
          have shift : j - i = (j - (i + 1)) + 1 := by omega
          have other : s ≠ name.chars := fun s_eq => same (equal.mpr s_eq)
          refine ⟨by omega, ?_, ?_⟩
          · rw [shift]
            exact there
          · rw [shift, List.take_succ_cons, List.mem_cons, not_or]
            exact ⟨other.symm, first⟩

theorem findFile_spec (name : CString) (named : v.Names names) :
    ∃ r, findFile v name.bytes = some r ∧ (r = none ↔ name.chars ∉ names) ∧
      ∀ j, r = some j → names[j]? = some name.chars := by
  obtain ⟨r, result, absent, found⟩ := findLoop_spec name (v := v) (i := 0)
    (fun j s there => by simpa using named.2 j s there) named.1.symm
  exact ⟨r, result, absent, fun j hit => (found j hit).2.1⟩

theorem findFile_first {name : CString} {earlier later : List (List UInt8)}
    (named : v.Names (earlier ++ name.chars :: later)) (fresh : name.chars ∉ earlier) :
    findFile v name.bytes = some (some earlier.length) := by
  obtain ⟨r, result, absent, found⟩ := findLoop_spec name (v := v) (i := 0)
    (fun j s there => by simpa using named.2 j s there) named.1.symm
  rcases r with _ | j
  · exact absurd (List.mem_append_right _ (.head _)) (absent.mp rfl)
  obtain ⟨-, there, first⟩ := found j rfl
  rw [Nat.sub_zero] at there first
  -- neither before nor after the first one
  have notBefore : ¬j < earlier.length := by
    intro before
    rw [List.getElem?_append_left before] at there
    exact fresh (List.mem_of_getElem? there)
  have notAfter : ¬earlier.length < j := by
    intro after
    refine first (List.mem_take_iff_getElem.mpr ⟨earlier.length, ?_, by simp⟩)
    rw [List.length_append, List.length_cons]
    omega
  rw [findFile, result]
  congr 2
  omega

/-! Nothing behind the terminators of a name and a content is read. -/

theorem findLoop_terminator {name x : List UInt8} {n i : Nat} :
    findLoop v (name ++ 0 :: x) n i = findLoop v (name ++ [0]) n i := by
  induction n generalizing i with
  | zero => rfl
  | succ n ih => rw [findLoop, findLoop, strcmp_terminator, ih]

theorem findFile_terminator {name x : List UInt8} :
    findFile v (name ++ 0 :: x) = findFile v (name ++ [0]) := findLoop_terminator

/-! ### Creating a file -/

/-- The bytes asked of `kmalloc` for a content. -/
def CString.size (s : CString) : UInt32 := .ofNat (s.chars.length + 1)

theorem CString.toNat_size (s : CString) : s.size.toNat = s.chars.length + 1 := by
  have fits := s.fits
  exact UInt32.toNat_ofNat_of_lt' (by simp only [UInt32.size]; omega)

/-- What a slot keeps of a name. -/
def CString.stored (s : CString) : List UInt8 := s.chars.take 31

/-- The node of a file with this name and content, given the memory of its buffer. -/
structure VfsNode.Holds (n : VfsNode) (m : Mem) (name content : CString) : Prop where
  named : n.Named name.stored
  length : n.length.toNat = content.chars.length
  content : m.bytes n.buffer.toNat (content.chars.length + 1) = content.bytes

/-- Everything that `vfs_create_file` can do on a table with these names. -/
inductive CreateOutcome (h : Heap) (v : Vfs) (names : List (List UInt8)) (name content : CString) :
    Heap → Vfs → Int → Prop
  | full : 16 ≤ names.length → CreateOutcome h v names name content h v (-1)
  | duplicate : names.length < 16 → name.chars ∈ names →
      CreateOutcome h v names name content h v (-2)
  | noMemory {h'} : names.length < 16 → name.chars ∉ names →
      kmalloc h content.size = some (h', NULL) → CreateOutcome h v names name content h' v (-3)
  | created {h' buf m file} : names.length < 16 → name.chars ∉ names →
      kmalloc h content.size = some (h', buf) → buf ≠ NULL → file.buffer = buf →
      Within {x | buf.toNat ≤ x ∧ x < buf.toNat + (content.chars.length + 1)} h'.mem m →
      file.Holds m name content →
      CreateOutcome h v names name content ⟨m, h'.heapStart⟩
        { fileTable := update v.fileTable names.length file, fileCount := v.fileCount + 1 } 0

/-- Copying characters and a terminator makes a string. -/
theorem memcpy_terminated (m : Mem) (dst : Nat) (s : CString) {n : Nat}
    (bound : n ≤ s.chars.length) :
    ∃ m', memcpy m dst s.bytes n = some m' ∧
      (m'.write8 (dst + n) 0).bytes dst (n + 1) = s.chars.take n ++ [0] ∧
      Within {x | dst ≤ x ∧ x < dst + (n + 1)} m (m'.write8 (dst + n) 0) := by
  have source : n ≤ s.bytes.length := by
    simp only [CString.bytes, List.length_append, List.length_singleton]
    omega
  obtain ⟨m', result, copied, change⟩ := memcpy_spec m dst source
  refine ⟨m', result, ?_, ?_⟩
  · have kept : (m'.write8 (dst + n) 0).bytes dst n = m'.bytes dst n :=
      Mem.bytes_congr fun x lower upper => m'.write8_other 0 (by omega)
    rw [Mem.bytes_add, Mem.bytes_one, Mem.write8_same, kept, copied, CString.bytes,
      List.take_append_of_le_length bound]
  · refine (change.mono ?_).trans (Within.write8 0 ?_)
    · rintro x ⟨lower, upper⟩
      exact ⟨lower, by omega⟩
    · exact ⟨by omega, by omega⟩

theorem nameLen_spec (name : CString) : ∃ len, strlen name.bytes = some len ∧
    (if len ≥ maxFilename then maxFilename - 1 else len).toNat = min name.chars.length 31 := by
  obtain ⟨len, measured, length⟩ := strlen_bytes name
  refine ⟨len, measured, ?_⟩
  have limit : maxFilename.toNat = 32 := rfl
  by_cases long : len ≥ maxFilename
  · rw [if_pos long]
    rw [ge_iff_le, UInt32.le_iff_toNat_le, limit] at long
    have cut : (maxFilename - 1).toNat = 31 := rfl
    omega
  · rw [if_neg long]
    rw [ge_iff_le, UInt32.le_iff_toNat_le, limit] at long
    omega

/-- The name array after the copy and the terminator of `vfs_create_file`. -/
theorem storeName_spec (file : Mem) (name : CString) (flags length buffer : UInt32) :
    let n := min name.chars.length 31
    ∃ m, memcpy file 0 name.bytes n = some m ∧
      VfsNode.Named ⟨m.write8 n 0, flags, length, buffer⟩ name.stored := by
  intro n
  obtain ⟨m, result, bytes, _⟩ := memcpy_terminated file 0 name (n := n) (by omega)
  rw [Nat.zero_add] at bytes
  have taken : name.chars.take n = name.stored := by
    rw [CString.stored, List.take_eq_take_iff]
    omega
  refine ⟨m, result, fun member => name.noNul (List.mem_of_mem_take member), ?_⟩
  -- the bytes behind the terminator are what the slot held before
  have split : maxFilename.toNat = (n + 1) + (31 - n) := by
    have limit : maxFilename.toNat = 32 := rfl
    omega
  refine ⟨(m.write8 n 0).bytes (n + 1) (31 - n), ?_⟩
  rw [VfsNode.nameBytes, split, Mem.bytes_add, bytes, taken, Nat.zero_add, List.append_assoc]
  rfl

/-- `vfs_create_file` returns, with one of the outcomes. -/
theorem vfsCreateFile_cases {name content : CString} (named : v.Names names)
    (total : ∃ h' p, kmalloc h content.size = some (h', p)) :
    ∃ h' v' r, vfsCreateFile h v name.bytes content.bytes = some (h', v', r) ∧
      CreateOutcome h v names name content h' v' r := by
  have limit : maxFiles.toNat = 16 := rfl
  rw [vfsCreateFile]
  by_cases full : v.fileCount ≥ maxFiles
  · have count := UInt32.le_iff_toNat_le.mp full
    rw [limit, named.1] at count
    exact ⟨h, v, -1, if_pos full, .full count⟩
  · have room : names.length < 16 := by
      rw [ge_iff_le, UInt32.le_iff_toNat_le, limit, named.1] at full
      omega
    rw [if_neg full]
    obtain ⟨r, found, absent, _⟩ := findFile_spec name named
    cases r with
    | some i =>
      have member : name.chars ∈ names := by
        by_contra fresh
        cases absent.mpr fresh
      exact ⟨h, v, -2, by simp [found], .duplicate room member⟩
    | none =>
      have fresh := absent.mp rfl
      obtain ⟨len, measured, length⟩ := strlen_bytes content
      -- `len + 1` does not wrap: a string leaves room for its terminator
      have size : len + 1 = content.size := by
        have fits := content.fits
        apply UInt32.toNat_inj.mp
        rw [content.toNat_size, toNat_add_of_lt, length]
        · rfl
        · simp [length]
          omega
      obtain ⟨h', buf, allocated⟩ := total
      by_cases null : buf = NULL
      · subst null
        exact ⟨h', v, -3, by simp [found, measured, size, allocated],
          .noMemory room fresh allocated⟩
      · obtain ⟨m, copied, bytes, change⟩ :=
          memcpy_terminated h'.mem buf.toNat content (Nat.le_refl _)
        obtain ⟨nameLen, nameMeasured, nameLength⟩ := nameLen_spec name
        obtain ⟨fileName, nameCopied, stored⟩ :=
          storeName_spec (v.fileTable names.length).name name fsFile len buf
        rw [← nameLength] at nameCopied stored
        rw [List.take_length] at bytes
        refine ⟨_, _, 0, ?_, .created room fresh allocated null rfl change ⟨stored, length, bytes⟩⟩
        simp [found, measured, size, allocated, null, length, copied, nameMeasured, named.1,
          nameCopied]

theorem vfsCreateFile_terminator (name content : CString) (x y : List UInt8) :
    vfsCreateFile h v (name.chars ++ 0 :: x) (content.chars ++ 0 :: y) =
      vfsCreateFile h v name.bytes content.bytes := by
  obtain ⟨len, measured, length⟩ := strlen_bytes content
  obtain ⟨nameLen, nameMeasured, cut⟩ := nameLen_spec name
  have sameLen : strlen (content.chars ++ 0 :: y) = some len := by
    rw [strlen_append content.noNul, ← strlen_append content.noNul (x := [])]
    exact measured
  have sameNameLen : strlen (name.chars ++ 0 :: x) = some nameLen := by
    rw [strlen_append name.noNul, ← strlen_append name.noNul (x := [])]
    exact nameMeasured
  have copied (m : Mem) (dst : Nat) :
      memcpy m dst (content.chars ++ 0 :: y) len.toNat = memcpy m dst content.bytes len.toNat :=
    memcpy_terminator m dst (by omega)
  have nameCopied (m : Mem) (dst : Nat) :
      memcpy m dst (name.chars ++ 0 :: x)
          (if nameLen ≥ maxFilename then maxFilename - 1 else nameLen).toNat =
        memcpy m dst name.bytes
          (if nameLen ≥ maxFilename then maxFilename - 1 else nameLen).toNat :=
    memcpy_terminator m dst (by omega)
  have found : findFile v (name.chars ++ 0 :: x) = findFile v name.bytes := findFile_terminator
  simp only [vfsCreateFile, found, measured, sameLen, nameMeasured, sameNameLen,
    Option.bind_eq_bind, Option.bind_some, copied, nameCopied]

end FriscaOS
