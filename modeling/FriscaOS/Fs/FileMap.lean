import FriscaOS.Fs.FileOwnership
import FriscaOS.Lib.BoundedMap

/-! With names that fit in a slot, the file table is a bounded map from names to contents, to
which `vfs_create_file` adds entries and nothing else does. -/
namespace FriscaOS

open ByteMemory FreeList Transition

/-- From names to contents, as many as the table has slots. -/
abbrev FileMap : Type := BoundedMap (List UInt8) (List UInt8) 16

/-- The return value of `vfs_create_file` for each answer. -/
def resultCode : BoundedMap.Answer → Int
  | .added => 0
  | .full => -1
  | .duplicate => -2
  | .refused => -3

/-- The operations of the kernel, as the map sees them. -/
inductive FileMapStep : FileMap → KernelOp → FileMap → Prop
  | createFile {M answer M'} {name content : CString} :
      M.Request name.chars content.chars answer M' →
      FileMapStep M (.createFile name content (resultCode answer)) M'
  | other {M op} : (∀ name content r, op ≠ .createFile name content r) → FileMapStep M op M

/-- The slot holds a file of this name and content. -/
structure VfsNode.Shows (n : VfsNode) (m : Mem) (name content : List UInt8) : Prop where
  named : n.Named name
  length : n.length.toNat = content.length
  content : m.bytes n.buffer.toNat (content.length + 1) = content ++ [0]

/-- The slots in use show exactly the entries of the map. -/
structure Vfs.Represents (v : Vfs) (m : Mem) (M : FileMap) : Prop where
  count : v.fileCount.toNat = M.size
  entries : ∀ name content, M.lookup name = some content ↔
    ∃ i < v.fileCount.toNat, (v.fileTable i).Shows m name content

/-- Names that a slot keeps whole. -/
def ShortNames (_ : Kernel) : KernelOp → Prop
  | .createFile name _ _ => name.chars.length ≤ 31
  | _ => True

variable {L : KernelLayout} {k k' : Kernel} {M : FileMap} {name content : CString} {op : KernelOp}
  {ops : List KernelOp}

/-! ### The simulation relation -/

/-- The map has the files created so far, whose names were all short. -/
structure FileMapInv (L : KernelLayout) (k : Kernel) (M : FileMap) : Prop where
  inv : KernelInv L k
  short : ∀ file ∈ k.created, file.1.chars.length ≤ 31
  size : M.size = k.created.length
  entries : ∀ name content, M.lookup name = some content ↔
    ∃ file ∈ k.created, file.1.chars = name ∧ file.2.chars = content

theorem fileMapInv_init (m : Mem) (v : Vfs) : FileMapInv L (.init L m v) .empty where
  inv := kernelInv_init m v
  short := by simp [Kernel.init]
  size := rfl
  entries := by simp [Kernel.init, BoundedMap.empty]

theorem FileMapInv.mem_iff (related : FileMapInv L k M) (name : List UInt8) :
    name ∈ M.toAList ↔ name ∈ k.names := by
  rw [← AList.lookup_isSome, Option.isSome_iff_exists, Kernel.names, List.mem_map]
  constructor
  · rintro ⟨content, there⟩
    obtain ⟨file, member, rfl, rfl⟩ := (related.entries name content).mp there
    exact ⟨file, member, List.take_of_length_le (related.short file member)⟩
  · rintro ⟨file, member, rfl⟩
    refine ⟨file.2.chars, (related.entries _ _).mpr ⟨file, member, ?_, rfl⟩⟩
    exact (List.take_of_length_le (related.short file member)).symm

theorem FileMapInv.full_iff (related : FileMapInv L k M) : M.Full ↔ 16 ≤ k.names.length := by
  rw [BoundedMap.Full, related.size, k.length_names]
  have bound := related.inv.bound
  omega

/-- The slot of a created file shows its whole name. -/
theorem FileMapInv.shows {i : Nat} {file : CString × CString} (related : FileMapInv L k M)
    (there : k.created[i]? = some file) :
    (k.vfs.fileTable i).Shows k.mem file.1.chars file.2.chars := by
  have stored := related.inv.stored i file.1 file.2 there
  have kept : file.1.stored = file.1.chars :=
    List.take_of_length_le (related.short file (List.mem_of_getElem? there))
  exact ⟨kept ▸ stored.holds.named, stored.holds.length, stored.holds.content⟩

/-- Related states: the table represents the map. -/
theorem FileMapInv.represents (related : FileMapInv L k M) : k.vfs.Represents k.mem M := by
  have inv := related.inv
  refine ⟨inv.count.trans related.size.symm, fun name content => ?_⟩
  rw [related.entries, inv.count]
  constructor
  · rintro ⟨file, member, rfl, rfl⟩
    obtain ⟨i, bound, rfl⟩ := List.mem_iff_getElem.mp member
    exact ⟨i, bound, related.shows (List.getElem?_eq_getElem bound)⟩
  · rintro ⟨i, bound, shows⟩
    have same := related.shows (List.getElem?_eq_getElem bound)
    refine ⟨_, List.getElem_mem bound, same.named.text.symm.trans shows.named.text, ?_⟩
    -- two terminated contents of one length in the same buffer
    have bytes := same.content
    rw [← same.length, shows.length, shows.content] at bytes
    exact (List.append_cancel_right bytes).symm

/-! ### Steps -/

theorem FileMapInv.keep (related : FileMapInv L k M) (inv : KernelInv L k')
    (created : k'.created = k.created) : FileMapInv L k' M where
  inv := inv
  short := created ▸ related.short
  size := created ▸ related.size
  entries := created ▸ related.entries

/-- A created file is a new entry. -/
theorem FileMapInv.added {h : Heap} {v : Vfs} (related : FileMapInv L k M)
    (short : name.chars.length ≤ 31)
    (result : vfsCreateFile k.heap.heap k.vfs name.bytes content.bytes = some (h, v, 0)) :
    let k' : Kernel :=
      { k with
        heap := ⟨h, (v.fileTable k.vfs.fileCount.toNat).buffer :: k.heap.live⟩
        vfs := v
        created := k.created ++ [(name, content)] }
    ∃ M', M.Request name.chars content.chars .added M' ∧ FileMapInv L k' M' := by
  intro k'
  have inv' := (related.inv.fileCreated result).1
  obtain ⟨few, new, -⟩ := related.inv.passed result
  have room : ¬M.Full := by
    rw [related.full_iff]
    omega
  have fresh : name.chars ∉ M.toAList := by
    rw [related.mem_iff]
    exact new
  refine ⟨_, .added room fresh, inv', ?_, ?_, ?_⟩
  · intro file member
    rcases List.mem_append.mp member with old | new
    · exact related.short file old
    · obtain rfl := List.mem_singleton.mp new
      exact short
  · rw [BoundedMap.size_add, related.size, List.length_append, List.length_singleton]
  · intro name' content'
    rw [BoundedMap.lookup_add, related.entries]
    constructor
    · rintro (⟨rfl, rfl⟩ | ⟨file, member, same⟩)
      · exact ⟨(name, content), by simp [k'], rfl, rfl⟩
      · exact ⟨file, List.mem_append_left _ member, same⟩
    · rintro ⟨file, member, rfl, rfl⟩
      rcases List.mem_append.mp member with old | new
      · exact .inr ⟨file, old, rfl, rfl⟩
      · obtain rfl := List.mem_singleton.mp new
        exact .inl ⟨rfl, rfl⟩

/-- A refused file is a request that leaves the map alone. -/
theorem FileMapInv.refused {h : Heap} {v : Vfs} {r : Int} (related : FileMapInv L k M)
    (result : vfsCreateFile k.heap.heap k.vfs name.bytes content.bytes = some (h, v, r))
    (negative : r ≠ 0) :
    ∃ answer, resultCode answer = r ∧ M.Request name.chars content.chars answer M := by
  have notFull (room : k.names.length < 16) : ¬M.Full := by
    rw [related.full_iff]
    omega
  cases related.inv.outcome result with
  | full count => exact ⟨.full, rfl, .full (related.full_iff.mpr count)⟩
  | duplicate room member =>
    exact ⟨.duplicate, rfl, .duplicate (notFull room) ((related.mem_iff _).mpr member)⟩
  | noMemory room fresh =>
    refine ⟨.refused, rfl, .refused (notFull room) ?_⟩
    rwa [related.mem_iff]
  | created => exact absurd rfl negative

/-- Every step of the kernel is a step of the map. -/
theorem FileMapInv.step (related : FileMapInv L k M) (short : ShortNames k op)
    (taken : KernelStep L k op k') : ∃ M', FileMapStep M op M' ∧ FileMapInv L k' M' := by
  have inv' := (related.inv.step taken).1
  cases taken with
  | fileCreated result =>
    obtain ⟨M', request, related'⟩ := related.added short result
    exact ⟨M', .createFile request, related'⟩
  | fileRefused result negative =>
    obtain ⟨answer, rfl, request⟩ := related.refused result negative
    exact ⟨M, .createFile request, related.keep inv' rfl⟩
  | _ => exact ⟨M, .other (by simp), related.keep inv' rfl⟩

/-! ### Calls -/

/-- What `vfs_create_file` answers on a table that represents the map. -/
structure CreateAnswer (k : Kernel) (M : FileMap) (name content : CString) (h : Heap) (v : Vfs)
    (r : Int) : Prop where
  full : r = -1 ↔ M.Full
  duplicate : r = -2 ↔ ¬M.Full ∧ name.chars ∈ M.toAList
  noMemory : r = -3 ↔ ¬M.Full ∧ name.chars ∉ M.toAList ∧
    ∃ h', kmalloc k.heap.heap content.size = some (h', NULL)
  success : r = 0 ↔ ¬M.Full ∧ name.chars ∉ M.toAList ∧
    ¬∃ h', kmalloc k.heap.heap content.size = some (h', NULL)
  refused : r ≠ 0 → v.fileCount = k.vfs.fileCount ∧ h.nodes = k.heap.heap.nodes ∧
    v.Represents h.mem M
  added : r = 0 → ∃ M', M.Request name.chars content.chars .added M' ∧ v.Represents h.mem M'

/-- What `vfs_read_file` finds in a table that represents the map. -/
structure ReadAnswer (k : Kernel) (M : FileMap) (name : CString) (r : Option Nat) : Prop where
  found : ∀ content, M.lookup name.chars = some content →
    ∃ i, r = some i ∧ i < k.vfs.fileCount.toNat ∧
      (k.vfs.fileTable i).Shows k.mem name.chars content
  missing : M.lookup name.chars = none → r = none

theorem FileMapInv.createAnswer {h : Heap} {v : Vfs} {r : Int} (related : FileMapInv L k M)
    (short : name.chars.length ≤ 31)
    (result : vfsCreateFile k.heap.heap k.vfs name.bytes content.bytes = some (h, v, r)) :
    CreateAnswer k M name content h v r := by
  have member := related.mem_iff name.chars
  have full := related.full_iff
  have codes : (r = -1 ↔ M.Full) ∧ (r = -2 ↔ ¬M.Full ∧ name.chars ∈ M.toAList) ∧
      (r = -3 ↔ ¬M.Full ∧ name.chars ∉ M.toAList ∧
        ∃ h', kmalloc k.heap.heap content.size = some (h', NULL)) ∧
      (r = 0 ↔ ¬M.Full ∧ name.chars ∉ M.toAList ∧
        ¬∃ h', kmalloc k.heap.heap content.size = some (h', NULL)) := by
    rw [member, full]
    cases related.inv.outcome result with
    | full count => simp [count]
    | duplicate room there => simp [room, there]
    | noMemory room fresh failed => simp [room, fresh, failed]
    | created room fresh allocated nonnull => simp [room, fresh, allocated, nonnull]
  refine ⟨codes.1, codes.2.1, codes.2.2.1, codes.2.2.2, fun negative => ?_, fun success => ?_⟩
  · obtain ⟨rfl, rfl⟩ := related.inv.refused result negative
    exact ⟨rfl, rfl, related.represents⟩
  · subst success
    obtain ⟨M', request, related'⟩ := related.added short result
    exact ⟨M', request, related'.represents⟩

theorem FileMapInv.readAnswer (related : FileMapInv L k M) (name : CString) :
    ∃ r, vfsReadFile k.vfs name.bytes = some r ∧ ReadAnswer k M name r := by
  obtain ⟨r, result, absent, found⟩ := findFile_spec name related.inv.named
  refine ⟨r, result, fun content there => ?_, fun missing => ?_⟩
  · have stored : name.chars ∈ M.toAList := by
      rw [← AList.lookup_isSome, there]
      rfl
    rw [related.mem_iff] at stored
    obtain ⟨i, hit⟩ := Option.ne_none_iff_exists'.mp fun none => absent.mp none stored
    have listed := found i hit
    rw [Kernel.names, List.getElem?_map, Option.map_eq_some_iff] at listed
    obtain ⟨file, created, same⟩ := listed
    have member := List.mem_of_getElem? created
    rw [CString.stored, List.take_of_length_le (related.short file member)] at same
    -- the entry is unique, so the slot that was found shows its content
    have entry := (related.entries name.chars file.2.chars).mpr ⟨file, member, same, rfl⟩
    obtain rfl := Option.some.inj (entry.symm.trans there)
    obtain ⟨bound, _⟩ := List.getElem?_eq_some_iff.mp created
    exact ⟨i, hit, related.inv.count.symm ▸ bound, same ▸ related.shows created⟩
  · rw [AList.lookup_eq_none, related.mem_iff] at missing
    exact absent.mpr missing

/-- Every run of the kernel in which names are short is a run of the map, with the same results.
In the state it leads to the table represents the map, and both calls answer for it. -/
theorem vfs_refines_map {m : Mem} {v : Vfs}
    (run : Run (Guarded (KernelStep L) ShortNames) (.init L m v) ops k) :
    ∃ M, Run FileMapStep .empty ops M ∧ k.vfs.Represents k.mem M ∧
      (∀ name content : CString, name.chars.length ≤ 31 →
        ∃ h v r, vfsCreateFile k.heap.heap k.vfs name.bytes content.bytes = some (h, v, r) ∧
          CreateAnswer k M name content h v r) ∧
      ∀ name : CString, ∃ r, vfsReadFile k.vfs name.bytes = some r ∧ ReadAnswer k M name r := by
  obtain ⟨M, matched, related⟩ := run.simulate (FileMapInv L)
    (fun s op t M related taken => related.step taken.1 taken.2) (fileMapInv_init m v)
  refine ⟨M, matched, related.represents, fun name content short => ?_, related.readAnswer⟩
  obtain ⟨h, v, r, result, _⟩ := related.inv.createFile name content
  exact ⟨h, v, r, result, related.createAnswer short result⟩

theorem vfs_refines_map_boot : ∃ k, KernelReachable bootLayout k ∧
    ∃ M, Run FileMapStep .empty [.createFile shortName greeting 0] M ∧
      k.vfs.Represents k.mem M ∧
      ∃ r, vfsReadFile k.vfs shortName.bytes = some r ∧ ReadAnswer k M shortName r := by
  obtain ⟨k, taken, _⟩ := bootKernel_createFile
  have length : shortName.chars.length ≤ 31 := by decide
  have short : ShortNames bootKernel (.createFile shortName greeting 0) := length
  have run : Run (Guarded (KernelStep bootLayout) ShortNames) bootKernel _ k :=
    .single ⟨short, taken⟩
  obtain ⟨M, matched, represents, _, read⟩ := vfs_refines_map run
  exact ⟨k, bootKernel_reachable.run run.unguard, M, matched, represents, read shortName⟩

end FriscaOS
