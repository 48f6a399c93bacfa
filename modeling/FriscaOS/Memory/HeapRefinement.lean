import FriscaOS.Lib.FreeListGaps
import FriscaOS.Memory.Heap

/-! The loops of `kmalloc` and `kfree` refine the block-list allocator, and each changes
bytes of free blocks or of headers only. -/
namespace FriscaOS

open ByteMemory FreeList

/-! ### 32-bit arithmetic -/

@[simp] theorem toNat_NULL : NULL.toNat = 0 := rfl

@[simp] theorem toNat_sizeofHeapNode : sizeofHeapNode.toNat = 12 := rfl

theorem toNat_roundUp (n : UInt32) :
    (roundUp n).toNat = (n.toNat + 3) % 4294967296 / 4 * 4 := by
  rw [roundUp, UInt32.toNat_and, UInt32.toNat_add]
  exact and_highBits (k := 2) (Nat.mod_lt _ (by decide))

theorem roundUp_le (n : UInt32) (small : n.toNat ≤ 4294967292) :
    n.toNat ≤ (roundUp n).toNat ∧ (roundUp n).toNat < n.toNat + 4 := by
  rw [toNat_roundUp]
  omega

/-- The last three sizes wrap: they are rounded to 0. -/
theorem roundUp_wraps (n : UInt32) (large : 4294967292 < n.toNat) : (roundUp n).toNat = 0 := by
  have bound := n.toNat_lt
  rw [toNat_roundUp]
  omega

/-! ### Representation -/

/-- The chain of nodes from `p` on holds exactly the blocks `bs`. -/
def Represents (m : Mem) : UInt32 → List Block → Prop
  | p, [] => p = NULL
  | p, b :: bs => p ≠ NULL ∧ p.toNat = b.addr ∧ (nodeSize m p).toNat = b.size ∧
      nodeIsFree m p = (if b.free then 1 else 0) ∧ Represents m (nodeNext m p) bs

/-- The header bytes of the blocks. -/
def headerBytes (bs : List Block) : Set Nat := {x | ∃ b ∈ bs, b.addr ≤ x ∧ x < b.addr + 12}

/-- The bytes of the free blocks, headers included. -/
def freeBytes (bs : List Block) : Set Nat :=
  {x | ∃ b ∈ bs, b.free = true ∧ b.addr ≤ x ∧ x < b.stop 12}

/-- The block of a node. Any flag but 0 counts as free. -/
def HeapNode.block (a : HeapNode) : Block := ⟨a.addr.toNat, a.size.toNat, a.isFree != 0⟩

/-- The chain from `p` on meets exactly these nodes. -/
def Chained (m : Mem) : UInt32 → List HeapNode → Prop
  | p, [] => p = NULL
  | p, a :: ns => p ≠ NULL ∧ loadNode m p = a ∧ Chained m (nodeNext m p) ns

variable {m m' : Mem} {p : UInt32} {b c : Block} {bs cs : List Block} {lo hi n : Nat}
  {ns ns' : List HeapNode}

/-- A header's three fields depend on its twelve bytes only. -/
theorem fields_congr (same : ∀ x, p.toNat ≤ x → x < p.toNat + 12 → m' x = m x) :
    nodeSize m' p = nodeSize m p ∧ nodeIsFree m' p = nodeIsFree m p ∧
      nodeNext m' p = nodeNext m p :=
  ⟨Mem.read32_congr fun x _ _ => same x (by omega) (by omega),
    Mem.read32_congr fun x _ _ => same x (by omega) (by omega),
    Mem.read32_congr fun x _ _ => same x (by omega) (by omega)⟩

theorem Chained.congr (chain : Chained m p ns)
    (same : ∀ x ∈ headerBytes (ns.map HeapNode.block), m' x = m x) : Chained m' p ns := by
  induction ns generalizing p with
  | nil => exact chain
  | cons a ns ih =>
    obtain ⟨nonnull, rfl, rest⟩ := chain
    obtain ⟨sameSize, sameFree, sameNext⟩ := fields_congr (p := p) fun x lower upper =>
      same x ⟨_, .head _, lower, upper⟩
    -- the chain goes on at the same node, since its link is among the kept bytes
    refine ⟨nonnull, by simp [loadNode, sameSize, sameFree, sameNext], sameNext ▸ ih rest ?_⟩
    rintro x ⟨b, member, bounds⟩
    exact same x ⟨b, .tail _ member, bounds⟩

theorem Chained.unique (left : Chained m p ns) (right : Chained m p ns') : ns = ns' := by
  induction ns generalizing p ns' with
  | nil =>
    cases ns' with
    | nil => rfl
    | cons a ns' => exact absurd left right.1
  | cons a ns ih =>
    cases ns' with
    | nil => exact absurd right left.1
    | cons b ns' => rw [left.2.1.symm.trans right.2.1, ih left.2.2 right.2.2]

/-- The blocks of a chain whose flags are all 0 or 1. -/
theorem represents_iff : Represents m p bs ↔
    ∃ ns, Chained m p ns ∧ (∀ a ∈ ns, a.isFree = 0 ∨ a.isFree = 1) ∧
      ns.map HeapNode.block = bs := by
  constructor
  · intro rep
    induction bs generalizing p with
    | nil => exact ⟨[], rep, by simp, rfl⟩
    | cons b bs ih =>
      obtain ⟨nonnull, addr, size, free, rest⟩ := rep
      obtain ⟨ns, chain, flags, rfl⟩ := ih rest
      refine ⟨loadNode m p :: ns, ⟨nonnull, rfl, chain⟩, List.forall_mem_cons.mpr ⟨?_, flags⟩, ?_⟩
      · cases hb : b.free <;> simp [loadNode, free, hb]
      · have same : (loadNode m p).block = b := by
          obtain ⟨_, _, flag⟩ := b
          cases flag <;> simp_all [loadNode, HeapNode.block]
        rw [List.map_cons, same]
  · rintro ⟨ns, chain, flags, rfl⟩
    induction ns generalizing p with
    | nil => exact chain
    | cons a ns ih =>
      obtain ⟨nonnull, rfl, rest⟩ := chain
      obtain ⟨flag, flags⟩ := List.forall_mem_cons.mp flags
      refine ⟨nonnull, rfl, rfl, ?_, ih rest flags⟩
      rcases flag with zero | one
      · exact zero.trans (by simp [HeapNode.block, zero])
      · exact one.trans (by simp [HeapNode.block, one])

theorem Represents.congr (rep : Represents m p bs)
    (same : ∀ x ∈ headerBytes bs, m' x = m x) : Represents m' p bs := by
  obtain ⟨ns, chain, flags, rfl⟩ := represents_iff.mp rep
  exact represents_iff.mpr ⟨ns, chain.congr same, flags, rfl⟩

/-- The chain from `p` determines the blocks. -/
theorem Represents.unique (left : Represents m p bs) (right : Represents m p cs) : bs = cs := by
  obtain ⟨ns, chain, -, rfl⟩ := represents_iff.mp left
  obtain ⟨ns', chain', -, rfl⟩ := represents_iff.mp right
  rw [chain.unique chain']

/-! ### Allocation -/

theorem toNat_pos (nonnull : p ≠ NULL) : 0 < p.toNat := by
  rw [Nat.pos_iff_ne_zero]
  exact fun zero => nonnull (UInt32.toNat_inj.mp zero)

/-- The split test of `kmalloc` does not wrap on a node that fits the request. -/
private theorem split_test {s r : UInt32} (fits : r.toNat ≤ s.toNat)
    (bound : s.toNat + 28 < 2 ^ 32) :
    s ≥ r + sizeofHeapNode + 16 ↔ r.toNat + 12 + 16 ≤ s.toNat := by
  have header : (r + sizeofHeapNode).toNat = r.toNat + 12 :=
    toNat_add_of_lt (by simp; omega)
  have total : (r + sizeofHeapNode + 16).toNat = r.toNat + 12 + 16 := by
    rw [toNat_add_of_lt] <;> simp [header]
    omega
  rw [ge_iff_le, UInt32.le_iff_toNat_le, total]

/-- Splitting the node at `p` writes the header of the node at `q` and the three fields of
`p`. -/
private theorem takeNode_split {r q : UInt32} (worth : nodeSize m p ≥ r + sizeofHeapNode + 16)
    (next : q = p + sizeofHeapNode + r) (apart : p.toNat + 12 ≤ q.toNat) :
    let m' := takeNode m p r
    (nodeSize m' p = r ∧ nodeIsFree m' p = 0 ∧ nodeNext m' p = q) ∧
      (nodeSize m' q = nodeSize m p - r - sizeofHeapNode ∧ nodeIsFree m' q = 1 ∧
        nodeNext m' q = nodeNext m p) ∧
      ∀ x, (x < p.toNat ∨ p.toNat + 12 ≤ x) → (x < q.toNat ∨ q.toNat + 12 ≤ x) → m' x = m x := by
  simp only [takeNode, if_pos worth, ← next]
  refine ⟨⟨?_, ?_, ?_⟩, ⟨?_, ?_, ?_⟩, fun x _ _ => ?_⟩
  all_goals
    simp (disch := omega) only [setNodeIsFree, setNodeNext, setNodeSize, nodeSize, nodeIsFree,
      nodeNext, Mem.read32_write32, Mem.read32_write32_apart, Mem.write32_other]

private theorem takeNode_whole {r : UInt32} (keep : ¬nodeSize m p ≥ r + sizeofHeapNode + 16) :
    let m' := takeNode m p r
    (nodeSize m' p = nodeSize m p ∧ nodeIsFree m' p = 0 ∧ nodeNext m' p = nodeNext m p) ∧
      ∀ x, (x < p.toNat ∨ p.toNat + 12 ≤ x) → m' x = m x := by
  simp only [takeNode, if_neg keep]
  refine ⟨⟨?_, ?_, ?_⟩, fun x _ => ?_⟩
  all_goals
    simp (disch := omega) only [setNodeIsFree, nodeSize, nodeIsFree, nodeNext,
      Mem.read32_write32, Mem.read32_write32_apart, Mem.write32_other]

/-- After changes inside a block the chain behind it is as it was. -/
private theorem Represents.behind (rest : Represents m (nodeNext m p) bs)
    (tiles : Tiles 12 lo hi (b :: bs))
    (change : Within {x | b.addr ≤ x ∧ x < b.stop 12} m m') :
    Represents m' (nodeNext m p) bs := by
  apply rest.congr
  rintro x ⟨c, member, start, _⟩
  apply change
  rintro ⟨_, before⟩
  rw [Block.stop] at before
  have ahead := tiles.after member
  omega

section takeNode

variable {r : UInt32} (rep : Represents m p (b :: bs)) (tiles : Tiles 12 lo hi (b :: bs))
  (bound : hi + 16 < 2 ^ 32) (fits : r.toNat ≤ b.size)

include rep tiles bound fits

/-- The split test on the node of a block that fits the request. -/
private theorem split_iff :
    nodeSize m p ≥ r + sizeofHeapNode + 16 ↔ r.toNat + 12 + 16 ≤ b.size := by
  obtain ⟨nonnull, addr, size, _⟩ := rep
  have inside := (tiles.mem (.head bs : b ∈ b :: bs)).2
  have positive := toNat_pos nonnull
  rw [split_test (by omega) (by omega), size]

/-- Splitting: the granted block comes first, then the leftover, which took over the link. -/
private theorem takeNode_represents_split (worth : r.toNat + 12 + 16 ≤ b.size) :
    Represents (takeNode m p r) p
        (⟨b.addr, r.toNat, false⟩ :: ⟨b.addr + 12 + r.toNat, b.size - r.toNat - 12, true⟩ :: bs) ∧
      Within {x | b.addr ≤ x ∧ x < b.stop 12} m (takeNode m p r) := by
  have test := split_iff rep tiles bound fits
  obtain ⟨nonnull, addr, size, free, rest⟩ := rep
  have inside := (tiles.mem (.head bs : b ∈ b :: bs)).2
  obtain ⟨q, next⟩ : ∃ q, q = p + sizeofHeapNode + r := ⟨_, rfl⟩
  have header : (p + sizeofHeapNode).toNat = p.toNat + 12 := toNat_add_of_lt (by simp; omega)
  have qaddr : q.toNat = p.toNat + 12 + r.toNat := by
    rw [next, toNat_add_of_lt, header]
    omega
  obtain ⟨⟨sizeP, freeP, nextP⟩, ⟨sizeQ, freeQ, nextQ⟩, frame⟩ :=
    takeNode_split (test.mpr worth) next (by omega)
  have change : Within {x | b.addr ≤ x ∧ x < b.stop 12} m (takeNode m p r) := by
    intro x outside
    simp only [Set.mem_ofPred_eq, Block.stop] at outside
    exact frame x (by omega) (by omega)
  have tail := rest.behind tiles change
  rw [← nextQ] at tail
  have sizes : (nodeSize m p - r - sizeofHeapNode).toNat = b.size - r.toNat - 12 := by
    have once : (nodeSize m p - r).toNat = b.size - r.toNat := by
      rw [toNat_sub_of_le, size]
      omega
    rw [toNat_sub_of_le, once, toNat_sizeofHeapNode]
    rw [once, toNat_sizeofHeapNode]
    omega
  refine ⟨⟨nonnull, addr, by rw [sizeP], by simp [freeP], ?_⟩, change⟩
  rw [nextP]
  refine ⟨?_, by rw [qaddr, addr], by rw [sizeQ, sizes], by simp [freeQ], tail⟩
  rintro rfl
  rw [toNat_NULL] at qaddr
  omega

/-- No split: only the flag of the node changes. -/
private theorem takeNode_represents_whole (keep : ¬r.toNat + 12 + 16 ≤ b.size) :
    Represents (takeNode m p r) p (⟨b.addr, b.size, false⟩ :: bs) ∧
      Within {x | b.addr ≤ x ∧ x < b.stop 12} m (takeNode m p r) := by
  have test := split_iff rep tiles bound fits
  obtain ⟨nonnull, addr, size, free, rest⟩ := rep
  obtain ⟨⟨sizeP, freeP, nextP⟩, frame⟩ := takeNode_whole (mt test.mp keep)
  have change : Within {x | b.addr ≤ x ∧ x < b.stop 12} m (takeNode m p r) := by
    intro x outside
    simp only [Set.mem_ofPred_eq, Block.stop] at outside
    exact frame x (by omega)
  refine ⟨⟨nonnull, addr, by rw [sizeP, size], by simp [freeP], ?_⟩, change⟩
  rw [nextP]
  exact rest.behind tiles change

/-- What the body of `kmalloc` does to the node at `p`: it becomes the granted block, followed
by the leftover if there is one, and only its own bytes change. -/
theorem takeNode_represents :
    Represents (takeNode m p r) p (granted 12 16 r.toNat b :: (leftover 12 16 r.toNat b ++ bs)) ∧
      Within {x | b.addr ≤ x ∧ x < b.stop 12} m (takeNode m p r) := by
  by_cases worth : r.toNat + 12 + 16 ≤ b.size
  · simp only [granted, leftover, if_pos worth, List.singleton_append]
    exact takeNode_represents_split rep tiles bound fits worth
  · simp only [granted, leftover, if_neg worth, List.nil_append]
    exact takeNode_represents_whole rep tiles bound fits worth

end takeNode

/-- The search of `kmalloc` fails where first fit does and leaves the memory alone. -/
theorem kmallocLoop_none {r : UInt32} (rep : Represents m p bs)
    (absent : allocate 12 16 r.toNat bs = none) (bound : bs.length < n) :
    kmallocLoop r m n p = some (m, NULL) := by
  induction bs generalizing p n with
  | nil =>
    obtain ⟨n, rfl⟩ := Nat.exists_eq_add_of_lt bound
    have last : p = NULL := rep
    simp [kmallocLoop, last]
  | cons b bs ih =>
    obtain ⟨k, rfl⟩ : ∃ k, n = k + 1 := ⟨n - 1, by simp at bound; omega⟩
    obtain ⟨nonnull, _, size, free, rest⟩ := rep
    rw [allocate_none, List.forall_mem_cons, ← allocate_none] at absent
    have skip : ¬(nodeIsFree m p ≠ 0 ∧ nodeSize m p ≥ r) := by
      rintro ⟨isFree, big⟩
      rw [ge_iff_le, UInt32.le_iff_toNat_le, size] at big
      have small := absent.1 (by by_contra busy; simp [busy] at free; exact isFree free)
      omega
    rw [kmallocLoop, if_neg nonnull, if_neg skip]
    exact ih rest absent.2 (by simpa using bound)

/-- The search of `kmalloc` succeeds where first fit does, with the same result, and changes
bytes of free blocks only. -/
theorem kmallocLoop_some {r : UInt32} (rep : Represents m p bs) (tiles : Tiles 12 lo hi bs)
    (top : hi + 16 < 2 ^ 32) (found : allocate 12 16 r.toNat bs = some (c, cs))
    (bound : bs.length < n) :
    ∃ m' q, kmallocLoop r m n p = some (m', q) ∧ q.toNat = c.addr + 12 ∧
      Represents m' p cs ∧ Within (freeBytes bs) m m' := by
  induction bs generalizing p n lo c cs with
  | nil => simp [allocate] at found
  | cons b bs ih =>
    obtain ⟨k, rfl⟩ : ∃ k, n = k + 1 := ⟨n - 1, by simp at bound; omega⟩
    have whole := rep
    obtain ⟨nonnull, addr, size, free, rest⟩ := rep
    have inside := (tiles.mem (.head bs : b ∈ b :: bs)).2
    have test : (nodeIsFree m p ≠ 0 ∧ nodeSize m p ≥ r) ↔ (b.free = true ∧ r.toNat ≤ b.size) := by
      rw [ge_iff_le, UInt32.le_iff_toNat_le, size, free]
      cases b.free <;> simp
    rw [kmallocLoop, if_neg nonnull]
    by_cases fit : b.free = true ∧ r.toNat ≤ b.size
    · -- the walk stops here
      simp only [allocate, if_pos fit, Option.some.injEq, Prod.mk.injEq] at found
      obtain ⟨rfl, rfl⟩ := found
      obtain ⟨taken, change⟩ := takeNode_represents whole tiles top fit.2
      refine ⟨_, _, if_pos (test.mpr fit), ?_, taken, change.mono ?_⟩
      · rw [toNat_add_of_lt, addr] <;> simp [granted]
        omega
      · exact fun x inside => ⟨b, by simp, fit.1, inside⟩
    · -- the walk goes on, over the rest of the tiling
      simp only [allocate, if_neg fit, Option.map_eq_some_iff, Prod.exists, Prod.mk.injEq] at found
      obtain ⟨d, ds, later, rfl, rfl⟩ := found
      obtain ⟨m', q, result, payload, tail, change⟩ :=
        ih rest tiles.2 later (by simpa using bound)
      refine ⟨m', q, (if_neg (mt test.mp fit)).trans result, payload, ?_, change.mono ?_⟩
      · -- the header of a skipped node is not among the bytes of the free blocks behind it
        have ahead (x : Nat) (lower : p.toNat ≤ x) (upper : x < p.toNat + 12) : m' x = m x := by
          apply change
          rintro ⟨e, member, -, start, -⟩
          have later := tiles.after member
          omega
        obtain ⟨sameSize, sameFree, sameNext⟩ := fields_congr ahead
        exact ⟨nonnull, addr, sameSize ▸ size, sameFree.trans free, sameNext ▸ tail⟩
      · rintro x ⟨e, member, bounds⟩
        exact ⟨e, by simp [member], bounds⟩

theorem length_lt_walkBound (tiles : Tiles 12 lo hi bs) (top : hi ≤ 2 ^ 32) :
    bs.length < walkBound := by
  have bound := tiles.length_le
  rw [walkBound]
  omega

section kmalloc

variable {h : Heap} {size : UInt32} (rep : Represents h.mem h.heapStart bs)
  (tiles : Tiles 12 lo hi bs) (top : hi + 16 < 2 ^ 32) (nonzero : size ≠ 0)

include rep tiles top nonzero

theorem kmalloc_none (absent : allocate 12 16 (roundUp size).toNat bs = none) :
    kmalloc h size = some (h, NULL) := by
  have searched := kmallocLoop_none rep absent (length_lt_walkBound tiles (by omega))
  simp [kmalloc, nonzero, searched]

theorem kmalloc_some (found : allocate 12 16 (roundUp size).toNat bs = some (c, cs)) :
    ∃ m' q, kmalloc h size = some (⟨m', h.heapStart⟩, q) ∧ q.toNat = c.addr + 12 ∧
      Represents m' h.heapStart cs ∧ Within (freeBytes bs) h.mem m' := by
  obtain ⟨m', q, searched, rest⟩ :=
    kmallocLoop_some rep tiles top found (length_lt_walkBound tiles (by omega))
  exact ⟨m', q, by simp [kmalloc, nonzero, searched], rest⟩

end kmalloc

/-! ### Release -/

/-- Setting the flag of one node of the chain marks its block. -/
private theorem setNodeIsFree_represents {q : UInt32} (rep : Represents m p bs)
    (headers : ∀ b ∈ bs, b.addr = q.toNat ∨ q.toNat + 12 ≤ b.addr ∨ b.addr + 12 ≤ q.toNat) :
    Represents (setNodeIsFree m q 1) p (mark q.toNat bs) := by
  induction bs generalizing p with
  | nil => exact rep
  | cons b bs ih =>
    obtain ⟨nonnull, addr, size, free, rest⟩ := rep
    have tail := ih rest fun c member => headers c (by simp [member])
    have next : nodeNext (setNodeIsFree m q 1) p = nodeNext m p := by
      have here := headers b (by simp)
      simp (disch := omega) only [nodeNext, setNodeIsFree, Mem.read32_write32_apart]
    have sizes : nodeSize (setNodeIsFree m q 1) p = nodeSize m p := by
      have here := headers b (by simp)
      simp (disch := omega) only [nodeSize, setNodeIsFree, Mem.read32_write32_apart]
    rw [← next] at tail
    by_cases here : b.addr = q.toNat
    · -- the node whose flag is set
      have same : p = q := UInt32.toNat_inj.mp (by omega)
      subst same
      have flag : nodeIsFree (setNodeIsFree m p 1) p = 1 := by simp [nodeIsFree, setNodeIsFree]
      simp only [mark, List.map_cons, if_pos here]
      exact ⟨nonnull, addr, sizes ▸ size, by simp [flag], tail⟩
    · have flag : nodeIsFree (setNodeIsFree m q 1) p = nodeIsFree m p := by
        have apart := (headers b (by simp)).resolve_left here
        simp (disch := omega) only [nodeIsFree, setNodeIsFree, Mem.read32_write32_apart]
      simp only [mark, List.map_cons, if_neg here]
      exact ⟨nonnull, addr, sizes ▸ size, flag.trans free, tail⟩

/-- The node that takes over the node after it. -/
def HeapNode.absorb (a b : HeapNode) : HeapNode :=
  { a with size := a.size + (sizeofHeapNode + b.size), next := b.next }

/-- What one merge of the coalescing loop writes. The link that is copied is not touched by the
store to the size field before it. -/
private theorem merge_fields {q : UInt32} (next : nodeNext m p = q)
    (apart : p.toNat + 12 ≤ q.toNat) :
    let m' := setNodeSize m p (nodeSize m p + (sizeofHeapNode + nodeSize m q))
    let m'' := setNodeNext m' p (nodeNext m' (nodeNext m' p))
    loadNode m'' p = (loadNode m p).absorb (loadNode m q) ∧
      ∀ x, (x < p.toNat ∨ p.toNat + 12 ≤ x) → m'' x = m x := by
  intro m' m''
  have same : nodeNext m' p = q := by
    rw [← next]
    simp (disch := omega) only [m', nodeNext, setNodeSize, Mem.read32_write32_apart]
  have skip : nodeNext m' (nodeNext m' p) = nodeNext m q := by
    rw [same]
    simp (disch := omega) only [m', nodeNext, setNodeSize, Mem.read32_write32_apart]
  refine ⟨?_, fun x _ => ?_⟩
  · simp only [loadNode, HeapNode.absorb, HeapNode.mk.injEq, true_and, ← skip]
    refine ⟨?_, ?_, ?_⟩
    all_goals
      simp (disch := omega) only [m'', m', nodeSize, nodeIsFree, nodeNext, setNodeSize,
        setNodeNext, Mem.read32_write32, Mem.read32_write32_apart]
  · simp (disch := omega) only [m'', m', setNodeSize, setNodeNext, Mem.write32_other]

/-- One merge of the coalescing loop. -/
private theorem merge_chained {a d : HeapNode} (chain : Chained m p (a :: d :: ns))
    (tiles : Tiles 12 lo hi (a.block :: d.block :: ns.map HeapNode.block)) (top : hi ≤ 2 ^ 32) :
    let m' := setNodeSize m p (nodeSize m p + (sizeofHeapNode + nodeSize m (nodeNext m p)))
    let m'' := setNodeNext m' p (nodeNext m' (nodeNext m' p))
    Chained m'' p (a.absorb d :: ns) ∧ (a.absorb d).block = FreeList.absorb 12 a.block d.block ∧
      Within (headerBytes [a.block]) m m'' := by
  intro m' m''
  obtain ⟨nonnull, rfl, -, rfl, rest⟩ := chain
  have inside : (nodeNext m p).toNat + 12 + (nodeSize m (nodeNext m p)).toNat ≤ hi :=
    (tiles.2.mem (.head _)).2
  have start : (nodeNext m p).toNat = p.toNat + 12 + (nodeSize m p).toNat := tiles.2.1
  have positive := toNat_pos nonnull
  obtain ⟨node, frame⟩ := merge_fields (m := m) (p := p) rfl (by omega)
  have change : Within (headerBytes [(loadNode m p).block]) m m'' := by
    intro x outside
    apply frame
    by_contra inside
    exact outside ⟨_, .head _, show p.toNat ≤ x ∧ x < p.toNat + 12 by omega⟩
  have next : nodeNext m'' p = nodeNext m (nodeNext m p) := congrArg HeapNode.next node
  refine ⟨⟨nonnull, node, ?_⟩, ?_, change⟩
  · rw [next]
    refine rest.congr fun x ⟨b, member, lower, _⟩ => frame x (.inr ?_)
    have ahead : (nodeNext m p).toNat + 12 + (nodeSize m (nodeNext m p)).toNat ≤ b.addr :=
      tiles.2.after member
    omega
  · -- both nodes lie below the top of the address space, so the sum of their sizes does not wrap
    have inner : (sizeofHeapNode + nodeSize m (nodeNext m p)).toNat =
        12 + (nodeSize m (nodeNext m p)).toNat := by
      rw [toNat_add_of_lt] <;> simp
      omega
    have total : (nodeSize m p + (sizeofHeapNode + nodeSize m (nodeNext m p))).toNat =
        (nodeSize m p).toNat + (12 + (nodeSize m (nodeNext m p)).toNat) := by
      rw [toNat_add_of_lt, inner]
      omega
    simp only [HeapNode.block, HeapNode.absorb, FreeList.absorb, loadNode, total]

theorem headerBytes_mono (sub : cs ⊆ bs) : headerBytes cs ⊆ headerBytes bs := by
  rintro x ⟨b, member, bounds⟩
  exact ⟨b, sub member, bounds⟩

/-- A merge writes to the header of the block that stays. -/
theorem headerBytes_absorb :
    headerBytes (FreeList.absorb 12 b c :: bs) ⊆ headerBytes (b :: c :: bs) := by
  rintro x ⟨d, member, bounds⟩
  rcases List.mem_cons.mp member with rfl | later
  · exact ⟨b, .head _, bounds⟩
  · exact ⟨d, .tail _ (.tail _ later), bounds⟩

/-- The loop of `kfree` ends and coalesces the list, by rewriting headers only. -/
theorem coalesceLoop_chained {a : HeapNode} (chain : Chained m p (a :: ns))
    (tiles : Tiles 12 lo hi (a.block :: ns.map HeapNode.block)) (top : hi ≤ 2 ^ 32)
    (bound : ns.length < n) :
    ∃ m' ns', coalesceLoop n m p = some m' ∧ Chained m' p ns' ∧
      ns'.map HeapNode.block = coalesceFrom 12 a.block (ns.map HeapNode.block) ∧
      (∀ c ∈ ns', ∃ d ∈ a :: ns, c.isFree = d.isFree) ∧
      Within (headerBytes (a.block :: ns.map HeapNode.block)) m m' := by
  induction ns generalizing a p m lo n with
  | nil =>
    obtain ⟨k, rfl⟩ : ∃ k, n = k + 1 := ⟨n - 1, by simp at bound; omega⟩
    have last : nodeNext m p = NULL := chain.2.2
    exact ⟨m, [a], by simp [coalesceLoop, last], chain, rfl, fun c member => ⟨c, member, rfl⟩,
      .refl _ m⟩
  | cons d ns ih =>
    obtain ⟨k, rfl⟩ : ∃ k, n = k + 1 := ⟨n - 1, by simp at bound; omega⟩
    have shorter : ns.length < k := by simpa using bound
    have whole := chain
    obtain ⟨nonnull, rfl, rest⟩ := chain
    have second : loadNode m (nodeNext m p) = d := rest.2.1
    rw [List.map_cons] at tiles ⊢
    have test : (nodeIsFree m p ≠ 0 ∧ nodeIsFree m (nodeNext m p) ≠ 0) ↔
        ((loadNode m p).block.free = true ∧ d.block.free = true) := by
      simp [← second, HeapNode.block, loadNode]
    rw [coalesceLoop, if_pos ⟨nonnull, rest.1⟩]
    by_cases both : (loadNode m p).block.free = true ∧ d.block.free = true
    · -- merge: the node stays where it is and the list gets one node shorter
      rw [if_pos (test.mpr both), coalesceFrom, if_pos both]
      obtain ⟨merged, block, change⟩ := merge_chained whole tiles top
      obtain ⟨m', ns', result, final, blocks, flags, rest⟩ :=
        ih merged (block ▸ Tiles.absorb tiles) shorter
      rw [block] at blocks rest
      refine ⟨m', ns', result, final, blocks, fun c member => ?_, ?_⟩
      · obtain ⟨e, old, same⟩ := flags c member
        rcases List.mem_cons.mp old with rfl | later
        · exact ⟨_, .head _, same⟩
        · exact ⟨e, .tail _ (.tail _ later), same⟩
      · exact (change.mono (headerBytes_mono (by simp))).trans (rest.mono headerBytes_absorb)
    · -- advance: the loop never comes back to this header
      rw [if_neg (mt test.mp both), coalesceFrom, if_neg both]
      obtain ⟨m', ns', result, tail, blocks, flags, change⟩ := ih rest tiles.2 shorter
      have ahead (x : Nat) (lower : p.toNat ≤ x) (upper : x < p.toNat + 12) : m' x = m x := by
        apply change
        rintro ⟨b, member, start, -⟩
        have later : p.toNat + 12 + (nodeSize m p).toNat ≤ b.addr := tiles.after member
        omega
      obtain ⟨sameSize, sameFree, sameNext⟩ := fields_congr ahead
      refine ⟨m', loadNode m p :: ns', result, ⟨nonnull, ?_, sameNext ▸ tail⟩,
        congrArg _ blocks, fun c member => ?_,
        change.mono (headerBytes_mono (List.subset_cons_self _ _))⟩
      · simp only [loadNode, sameSize, sameFree, sameNext]
      · rcases List.mem_cons.mp member with rfl | later
        · exact ⟨_, .head _, rfl⟩
        · obtain ⟨e, old, same⟩ := flags c later
          exact ⟨e, .tail _ old, same⟩

/-- The loop on a list of blocks whose flags are 0 or 1. -/
theorem coalesceLoop_represents (rep : Represents m p (b :: bs))
    (tiles : Tiles 12 lo hi (b :: bs)) (top : hi < 2 ^ 32) (bound : bs.length < n) :
    ∃ m', coalesceLoop n m p = some m' ∧ Represents m' p (coalesceFrom 12 b bs) ∧
      Within (headerBytes (b :: bs)) m m' := by
  obtain ⟨ns, chain, flags, blocks⟩ := represents_iff.mp rep
  obtain ⟨a, ns, rfl, rfl, rfl⟩ := List.map_eq_cons_iff.mp blocks
  obtain ⟨m', ns', result, final, blocks', kept, change⟩ :=
    coalesceLoop_chained chain tiles (Nat.le_of_lt top) (by simpa using bound)
  refine ⟨m', result, represents_iff.mpr ⟨ns', final, fun c member => ?_, blocks'⟩, change⟩
  obtain ⟨d, old, same⟩ := kept c member
  exact same ▸ flags d old

theorem kfree_represents {h : Heap} {ptr : UInt32} (rep : Represents h.mem h.heapStart bs)
    (tiles : Tiles 12 lo hi bs) (top : hi < 2 ^ 32) (member : c ∈ bs)
    (payload : ptr.toNat = c.addr + 12) :
    ∃ m', kfree h ptr = some ⟨m', h.heapStart⟩ ∧
      Represents m' h.heapStart (release 12 c.addr bs) ∧ Within (headerBytes bs) h.mem m' := by
  have nonnull : ptr ≠ NULL := by
    rintro rfl
    rw [toNat_NULL] at payload
    omega
  have node : (ptr - sizeofHeapNode).toNat = c.addr := by
    rw [toNat_sub_of_le] <;> simp [payload]
  have marked := setNodeIsFree_represents (q := ptr - sizeofHeapNode) rep fun b there => by
    rw [node]
    rcases tiles.apart there member with rfl | before | after
    · exact .inl rfl
    · exact .inr (.inr (by omega))
    · exact .inr (.inl (by omega))
  rw [node] at marked
  have flag : Within (headerBytes bs) h.mem (setNodeIsFree h.mem (ptr - sizeofHeapNode) 1) :=
    Within.write32 _ fun x _ _ => ⟨c, member, by omega, by omega⟩
  have tilesM : Tiles 12 lo hi (mark c.addr bs) := tiles_mark tiles
  cases list : mark c.addr bs with
  | nil =>
    -- a heap with an allocated block has a first node
    have empty : bs = [] := by simpa [mark] using list
    simp [empty] at member
  | cons b rest =>
    rw [list] at marked tilesM
    have length := length_lt_walkBound tilesM (Nat.le_of_lt top)
    rw [List.length_cons] at length
    obtain ⟨m', result, final, change⟩ :=
      coalesceLoop_represents (n := walkBound) marked tilesM top (by omega)
    refine ⟨m', by simp [kfree, nonnull, result],
      by simpa [release, coalesce, list] using final, ?_⟩
    refine flag.trans (change.mono ?_)
    rintro x ⟨d, there, bounds⟩
    rw [← list, mark, List.mem_map] at there
    obtain ⟨e, old, rfl⟩ := there
    refine ⟨e, old, ?_⟩
    split at bounds <;> exact bounds

end FriscaOS
