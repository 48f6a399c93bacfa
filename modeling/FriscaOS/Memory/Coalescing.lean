import FriscaOS.Lib.FreeListRuns
import FriscaOS.Memory.HeapRefinement

/-! The coalescing pass of `kfree` on any node list that tiles its region, whatever its flags are:
it ends, and it leaves the canonical list of the region. -/
namespace FriscaOS

open ByteMemory FreeList

variable {m : Mem} {p : UInt32} {ns ns' : List HeapNode} {lo hi n : Nat}

/-- The walk ends within `n` iterations exactly on the chains of fewer than `n` nodes. -/
theorem nodesFrom_iff : nodesFrom m n p = some ns ↔ Chained m p ns ∧ ns.length < n := by
  induction n generalizing p ns with
  | zero => simp [nodesFrom]
  | succ n ih =>
    rw [nodesFrom]
    split
    next null => cases ns <;> simp [Chained, null]
    next nonnull =>
      cases ns with
      | nil => simp [Chained, nonnull]
      | cons a ns => simp [Chained, nonnull, ih, and_assoc, and_left_comm]

/-- On a list without two free neighbours the pass only advances. -/
theorem coalesceLoop_separated (chain : Chained m p ns)
    (separated : Separated (ns.map HeapNode.block)) (bound : ns.length < n) :
    coalesceLoop n m p = some m := by
  induction ns generalizing p n with
  | nil =>
    obtain ⟨n, rfl⟩ := Nat.exists_eq_add_of_lt bound
    have last : p = NULL := chain
    simp [coalesceLoop, last]
  | cons a ns ih =>
    obtain ⟨k, rfl⟩ : ∃ k, n = k + 1 := ⟨n - 1, by simp at bound; omega⟩
    obtain ⟨nonnull, rfl, rest⟩ := chain
    cases ns with
    | nil =>
      have last : nodeNext m p = NULL := rest
      simp [coalesceLoop, last]
    | cons d ns =>
      obtain ⟨apart, tail⟩ := List.isChain_cons_cons.mp separated
      have skip : ¬(nodeIsFree m p ≠ 0 ∧ nodeIsFree m (nodeNext m p) ≠ 0) := by
        obtain ⟨-, rfl, -⟩ := rest
        simpa [HeapNode.block, loadNode] using apart
      rw [coalesceLoop, if_pos ⟨nonnull, rest.1⟩, if_neg skip]
      exact ih rest tail (by simpa using bound)

/-- The list `ns'` has one node in place of each maximal run of free nodes of `ns`, and the region
and the allocated nodes are the same. -/
structure CanonicalMerge (lo hi : Nat) (ns ns' : List HeapNode) : Prop where
  runs : ∃ rs, MaximalRuns (ns.map HeapNode.block) rs ∧
    ns'.map HeapNode.block = rs.filterMap (merged 12)
  live : live (ns'.map HeapNode.block) = live (ns.map HeapNode.block)
  extent : Tiles 12 lo hi (ns'.map HeapNode.block)
  separated : Separated (ns'.map HeapNode.block)

theorem canonicalMerge_of_coalesce (tiles : Tiles 12 lo hi (ns.map HeapNode.block))
    (blocks : ns'.map HeapNode.block = coalesce 12 (ns.map HeapNode.block)) :
    CanonicalMerge lo hi ns ns' where
  runs := ⟨_, maximalRuns _, blocks.trans (coalesce_eq_runs 12 _)⟩
  live := by rw [blocks, live_coalesce]
  extent := by
    rw [blocks]
    exact tiles_coalesce tiles
  separated := by
    rw [blocks]
    exact separated_coalesce _

/-- The pass ends on every list that tiles a region of the address space and merges it; a second
pass changes nothing. -/
theorem coalesce_canonical {h : Heap} (list : h.nodes = some ns)
    (tiles : Tiles 12 lo hi (ns.map HeapNode.block)) (top : hi ≤ 2 ^ 32) :
    ∃ m ns', coalesceLoop walkBound h.mem h.heapStart = some m ∧
      Heap.nodes ⟨m, h.heapStart⟩ = some ns' ∧ CanonicalMerge lo hi ns ns' ∧
      coalesceLoop walkBound m h.heapStart = some m := by
  obtain ⟨chain, length⟩ := nodesFrom_iff.mp list
  obtain ⟨m, ns', result, final, blocks⟩ : ∃ m ns',
      coalesceLoop walkBound h.mem h.heapStart = some m ∧ Chained m h.heapStart ns' ∧
        ns'.map HeapNode.block = coalesce 12 (ns.map HeapNode.block) := by
    cases ns with
    | nil => exact ⟨h.mem, [], coalesceLoop_separated chain .nil length, chain, rfl⟩
    | cons a ns =>
      obtain ⟨m, ns', result, final, blocks, -⟩ :=
        coalesceLoop_chained chain tiles top (Nat.lt_of_succ_lt length)
      exact ⟨m, ns', result, final, blocks⟩
  have canonical := canonicalMerge_of_coalesce tiles blocks
  have length' := length_lt_walkBound canonical.extent top
  rw [List.length_map] at length'
  exact ⟨m, ns', result, nodesFrom_iff.mpr ⟨final, length'⟩, canonical,
    coalesceLoop_separated final canonical.separated length'⟩

/-- An allocated node and a run of three free ones, the last of them empty. -/
def fragmentedNodes : List HeapNode :=
  [⟨16, 4, 0, 32⟩, ⟨32, 8, 1, 52⟩, ⟨52, 100, 1, 164⟩, ⟨164, 0, 1, NULL⟩]

/-- The nodes stored in an empty memory. -/
def fragmentedHeap : Heap :=
  let store (m : Mem) (a : HeapNode) : Mem :=
    setNodeNext (setNodeIsFree (setNodeSize m a.addr a.size) a.addr a.isFree) a.addr a.next
  ⟨fragmentedNodes.foldl store fun _ => 0, 16⟩

theorem coalesce_canonical_fragmented :
    ∃ m ns', coalesceLoop walkBound fragmentedHeap.mem fragmentedHeap.heapStart = some m ∧
      Heap.nodes ⟨m, fragmentedHeap.heapStart⟩ = some ns' ∧
      CanonicalMerge 16 176 fragmentedNodes ns' ∧
      coalesceLoop walkBound m fragmentedHeap.heapStart = some m :=
  coalesce_canonical (by decide +kernel) ⟨rfl, rfl, rfl, rfl, rfl⟩ (by decide)

end FriscaOS
