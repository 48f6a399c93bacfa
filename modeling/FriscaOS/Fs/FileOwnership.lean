import FriscaOS.Fs.KernelRuns
import Mathlib.Data.List.Nodup

/-! What a file owns in every reachable state of the kernel, and that it owns it for good. -/
namespace FriscaOS

open ByteMemory FreeList Transition

variable {L : KernelLayout} {k k' : Kernel} {name content : CString} {i : Nat}

/-- The file in slot `i` is the one created with this name and content. -/
structure FileOwned (k : Kernel) (i : Nat) (name content : CString) : Prop where
  -- the name array, of 32 bytes, holds the stored name and a terminator
  named : (k.vfs.fileTable i).Named name.stored
  allocated : ∃ ns, k.heap.heap.nodes = some ns ∧
    ∃ n ∈ ns, n.isFree = 0 ∧ (k.vfs.fileTable i).buffer = n.addr + sizeofHeapNode
  room : (k.vfs.fileTable i).length.toNat + 1 ≤
    (payloadSize k.mem (k.vfs.fileTable i).buffer).toNat
  files : ∀ j < k.vfs.fileCount.toNat, j ≠ i →
    (k.vfs.fileTable j).buffer ≠ (k.vfs.fileTable i).buffer
  others : (k.vfs.fileTable i).buffer ∉ k.taskBlocks ++ k.clientBlocks
  content : k.mem.bytes (k.vfs.fileTable i).buffer.toNat (k.vfs.fileTable i).length.toNat =
    content.chars
  terminated :
    k.mem ((k.vfs.fileTable i).buffer.toNat + (k.vfs.fileTable i).length.toNat) = 0
  noNul : ∀ x < (k.vfs.fileTable i).length.toNat,
    k.mem ((k.vfs.fileTable i).buffer.toNat + x) ≠ 0

/-- The characters of a stored content and its terminator. -/
theorem Stored.bytes {m : Mem} {n : VfsNode} (stored : Stored m n name content) :
    m.bytes n.buffer.toNat n.length.toNat = content.chars ∧
      m (n.buffer.toNat + n.length.toNat) = 0 := by
  have bytes := stored.holds.content
  rw [Mem.bytes_add, Mem.bytes_one, CString.bytes] at bytes
  obtain ⟨chars, terminator⟩ := List.append_inj bytes (by simp)
  rw [stored.holds.length]
  exact ⟨chars, List.singleton_inj.mp terminator⟩

/-- Different slots have different buffers. -/
theorem KernelInv.buffers_distinct {j : Nat} (inv : KernelInv L k) (hi : i < k.created.length)
    (hj : j < k.created.length) (other : j ≠ i) :
    (k.vfs.fileTable j).buffer ≠ (k.vfs.fileTable i).buffer := by
  have distinct : k.buffers.Nodup := (List.nodup_append.mp inv.nodup).1
  intro same
  apply other
  apply List.inj_on_of_nodup_map distinct
  · exact List.mem_range.mpr hj
  · exact List.mem_range.mpr hi
  · exact same

/-- Every file of a state with the invariant is owned. -/
theorem KernelInv.fileOwned (inv : KernelInv L k)
    (there : k.created[i]? = some (name, content)) : FileOwned k i name content := by
  obtain ⟨bs, heap⟩ := inv.heap
  obtain ⟨bound, _⟩ := List.getElem?_eq_some_iff.mp there
  have stored := inv.stored i name content there
  obtain ⟨chars, terminator⟩ := stored.bytes
  obtain ⟨live, apart⟩ := inv.buffers_apart (Kernel.mem_buffers bound)
  constructor
  case named => exact stored.holds.named
  case allocated => exact ⟨_, heap.nodes, (heap.wellFormed.allocated _).mp live⟩
  case room =>
    rw [stored.holds.length]
    exact stored.room
  case files =>
    intro j below other
    exact inv.buffers_distinct bound (inv.count ▸ below) other
  case others => exact apart
  case content => exact chars
  case terminated => exact terminator
  case noNul =>
    intro x below zero
    -- such a byte would be a character of the content
    apply content.noNul
    rw [← chars, ← zero]
    exact List.mem_map.mpr ⟨x, List.mem_range.mpr below, rfl⟩

/-- In every reachable state each file owns a live block that holds what it was created with,
and no later operation changes its node or its contents. -/
theorem files_owned (reach : KernelReachable L k) :
    k.vfs.fileCount.toNat ≤ 16 ∧
      (∀ i < k.vfs.fileCount.toNat, ∃ name content, k.created[i]? = some (name, content) ∧
        FileOwned k i name content) ∧
      ∀ ops k', Run (KernelStep L) k ops k' → FilesKept k k' := by
  have inv := reach.inv
  refine ⟨?_, fun i below => ?_, fun ops k' run => (inv.run run).2⟩
  · rw [inv.count]
    exact inv.bound
  · rw [inv.count] at below
    have there : k.created[i]? = some (k.created[i].1, k.created[i].2) :=
      List.getElem?_eq_getElem below
    exact ⟨_, _, there, inv.fileOwned there⟩

def shortName : CString := ⟨[97], by decide, by decide⟩

def greeting : CString := ⟨[104, 105], by decide, by decide⟩

/-- The first file after boot. -/
theorem bootKernel_createFile :
    ∃ k, KernelStep bootLayout bootKernel (.createFile shortName greeting 0) k ∧
      k.created = [(shortName, greeting)] := by
  have code : (vfsCreateFile bootKernel.heap.heap bootKernel.vfs shortName.bytes
      greeting.bytes).map (fun call => call.2.2) = some 0 := by decide +kernel
  obtain ⟨⟨h, v, r⟩, result, zero⟩ := Option.map_eq_some_iff.mp code
  obtain rfl : r = 0 := zero
  exact ⟨_, .fileCreated result, rfl⟩

theorem files_owned_boot : ∃ k, KernelReachable bootLayout k ∧
    ∃ name content, k.created[0]? = some (name, content) ∧ FileOwned k 0 name content := by
  obtain ⟨k, taken, created⟩ := bootKernel_createFile
  have reach := bootKernel_reachable.run (.single taken)
  refine ⟨k, reach, (files_owned reach).2.1 0 ?_⟩
  rw [reach.inv.count, created]
  exact Nat.one_pos

end FriscaOS
