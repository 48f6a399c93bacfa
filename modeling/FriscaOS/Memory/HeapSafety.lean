import FriscaOS.Memory.HeapRuns

/-! What clients of the heap rely on in every reachable state: the shape of the node list, the
safety of the blocks handed out, and the frame law between payloads and headers. -/
namespace FriscaOS

open ByteMemory FreeList Transition

variable {R : HeapRegion} {s t : HeapRun} {bs cs : List Block} {b c : Block} {p q size : UInt32}

/-! ### The node list -/

/-- The node a block is stored as, in front of the node at `next`. -/
def nodeOf (b : Block) (next : UInt32) : HeapNode :=
  ⟨.ofNat b.addr, .ofNat b.size, if b.free then 1 else 0, next⟩

/-- The node list of a block list. -/
def nodesOf : List Block → List HeapNode
  | [] => []
  | [b] => [nodeOf b NULL]
  | b :: c :: bs => nodeOf b (.ofNat c.addr) :: nodesOf (c :: bs)

/-- A walk along the chain meets exactly the nodes of its blocks. -/
theorem Represents.nodesFrom {m : Mem} {n : Nat} (rep : Represents m p bs)
    (bound : bs.length < n) : nodesFrom m n p = some (nodesOf bs) := by
  induction bs generalizing p n with
  | nil =>
    obtain ⟨k, rfl⟩ : ∃ k, n = k + 1 := ⟨n - 1, by simp at bound; omega⟩
    simp [FriscaOS.nodesFrom, nodesOf, show p = NULL from rep]
  | cons b bs ih =>
    obtain ⟨k, rfl⟩ : ∃ k, n = k + 1 := ⟨n - 1, by simp at bound; omega⟩
    obtain ⟨nonnull, addr, size, free, rest⟩ := rep
    have node (next : UInt32) (same : nodeNext m p = next) : loadNode m p = nodeOf b next := by
      simp only [loadNode, nodeOf, ← addr, ← size, UInt32.ofNat_toNat, free, same]
    rw [FriscaOS.nodesFrom, if_neg nonnull, ih rest (by simpa using bound), Option.map_some]
    cases bs with
    | nil => simp [nodesOf, node NULL rest]
    | cons c cs =>
      have next : nodeNext m p = .ofNat c.addr := by rw [← rest.2.1, UInt32.ofNat_toNat]
      simp [nodesOf, node _ next]

theorem HeapInv.nodes (inv : HeapInv R s bs) : s.heap.nodes = some (nodesOf bs) :=
  inv.rep.nodesFrom (length_lt_walkBound inv.tiles (Nat.le_of_lt R.fits))

theorem mem_nodesOf {n : HeapNode} (member : n ∈ nodesOf bs) : ∃ b ∈ bs, n = nodeOf b n.next := by
  induction bs using nodesOf.induct with
  | case1 => simp [nodesOf] at member
  | case2 b => exact ⟨b, by simp, by simp_all [nodesOf, nodeOf]⟩
  | case3 b c bs ih =>
    rcases List.mem_cons.mp member with rfl | later
    · exact ⟨b, by simp, rfl⟩
    · obtain ⟨d, there, same⟩ := ih later
      exact ⟨d, List.mem_cons_of_mem _ there, same⟩

theorem exists_mem_nodesOf (member : b ∈ bs) : ∃ next, nodeOf b next ∈ nodesOf bs := by
  induction bs using nodesOf.induct with
  | case1 => simp at member
  | case2 c => exact ⟨NULL, by simp_all [nodesOf]⟩
  | case3 c d bs ih =>
    rcases List.mem_cons.mp member with rfl | later
    · exact ⟨.ofNat d.addr, .head _⟩
    · obtain ⟨next, there⟩ := ih later
      exact ⟨next, List.mem_cons_of_mem _ there⟩

/-- What holds of neighbouring blocks, whatever follows them, holds of their nodes. -/
theorem isChain_nodesOf {rel : Block → Block → Prop} {rel' : HeapNode → HeapNode → Prop}
    (lift : ∀ b c next, b ∈ bs → c ∈ bs → rel b c →
      rel' (nodeOf b (.ofNat c.addr)) (nodeOf c next))
    (chain : bs.IsChain rel) : (nodesOf bs).IsChain rel' := by
  induction bs using nodesOf.induct with
  | case1 => exact .nil
  | case2 b => exact .singleton _
  | case3 b c bs ih =>
    obtain ⟨here, rest⟩ := List.isChain_cons_cons.mp chain
    have tail := ih (fun d e next hd he => lift d e next (by simp_all) (by simp_all)) rest
    -- the node of `c` is the head of the tail in both cases, with a different `next`
    cases bs <;> exact List.isChain_cons_cons.mpr ⟨lift b c _ (by simp) (by simp) here, tail⟩

/-- The shape of the node list, given the pointers handed out and not yet freed. -/
structure WellFormedList (R : HeapRegion) (live : List UInt32) (ns : List HeapNode) : Prop where
  distinct : live.Nodup
  first : ns.head?.map HeapNode.addr = some R.base
  ordered : ns.IsChain fun a b => a.addr.toNat < b.addr.toNat
  linked : ns.IsChain fun a b => a.next = b.addr ∧
    a.next.toNat = a.addr.toNat + 12 + a.size.toNat
  last : ∀ n, ns.getLast? = some n → n.next = NULL ∧
    n.addr.toNat + 12 + n.size.toNat = R.base.toNat + 16384
  sizes : ∀ n ∈ ns, n.size.toNat % 4 = 0
  allocated : ∀ p, p ∈ live ↔ ∃ n ∈ ns, n.isFree = 0 ∧ p = n.addr + sizeofHeapNode
  separated : ns.IsChain fun a b => ¬(a.isFree ≠ 0 ∧ b.isFree ≠ 0)

/-- Fields of a block in the region survive the conversion to words and back. -/
theorem HeapInv.nodeOf_fields (inv : HeapInv R s bs) (member : b ∈ bs) (next : UInt32) :
    (nodeOf b next).addr.toNat = b.addr ∧ (nodeOf b next).size.toNat = b.size ∧
      ((nodeOf b next).isFree = 0 ↔ b.free = false) := by
  have bounds := inv.bounds member
  have fits := R.fits
  refine ⟨?_, ?_, ?_⟩
  · exact UInt32.toNat_ofNat_of_lt' (by simp [UInt32.size]; omega)
  · exact UInt32.toNat_ofNat_of_lt' (by simp [UInt32.size]; omega)
  · cases free : b.free <;> simp [nodeOf, free]

theorem HeapInv.nodeOf_payload (inv : HeapInv R s bs) (member : b ∈ bs) (next : UInt32) :
    ((nodeOf b next).addr + sizeofHeapNode).toNat = b.addr + 12 := by
  have bounds := inv.bounds member
  have fits := R.fits
  have start := (inv.nodeOf_fields member next).1
  rw [toNat_add_of_lt, start] <;> simp [start]
  omega

theorem getLast_nodesOf {n : HeapNode} (last : (nodesOf bs).getLast? = some n) :
    ∃ b, bs.getLast? = some b ∧ n = nodeOf b NULL := by
  induction bs using nodesOf.induct with
  | case1 => simp [nodesOf] at last
  | case2 b => exact ⟨b, by simp, by simpa [nodesOf, eq_comm] using last⟩
  | case3 b c bs ih =>
    have tail : (nodesOf (c :: bs)).getLast? = some n := by
      cases bs <;> simpa [nodesOf] using last
    obtain ⟨d, there, same⟩ := ih tail
    exact ⟨d, by simpa using there, same⟩

theorem HeapInv.wellFormed (inv : HeapInv R s bs) : WellFormedList R s.live (nodesOf bs) where
  distinct := inv.nodup
  first := by
    have tiles := inv.tiles
    cases bs with
    | nil =>
      have empty : R.base.toNat = R.base.toNat + 16384 := tiles
      omega
    | cons b bs =>
      have start : UInt32.ofNat b.addr = R.base := by rw [tiles.1, UInt32.ofNat_toNat]
      cases bs <;> simp [nodesOf, nodeOf, start]
  ordered := isChain_nodesOf (fun b c next hb hc linked => by
    rw [(inv.nodeOf_fields hb _).1, (inv.nodeOf_fields hc _).1, linked]
    omega) inv.tiles.linked
  linked := isChain_nodesOf (fun b c next hb hc linked => by
    refine ⟨rfl, ?_⟩
    rw [(inv.nodeOf_fields hb _).1, (inv.nodeOf_fields hb _).2.1]
    exact (inv.nodeOf_fields hc NULL).1.trans linked) inv.tiles.linked
  last n last := by
    obtain ⟨b, there, rfl⟩ := getLast_nodesOf last
    obtain ⟨init, rfl⟩ := List.getLast?_eq_some_iff.mp there
    obtain ⟨_, _, _, stop⟩ := tiles_append.mp inv.tiles
    rw [(inv.nodeOf_fields (by simp) _).1, (inv.nodeOf_fields (by simp) _).2.1]
    exact ⟨rfl, stop⟩
  sizes n member := by
    obtain ⟨b, there, same⟩ := mem_nodesOf member
    rw [same, (inv.nodeOf_fields there _).2.1]
    exact Nat.mod_eq_zero_of_dvd (inv.aligned b there)
  allocated p := by
    rw [inv.owned p]
    constructor
    · rintro ⟨b, taken, start⟩
      obtain ⟨there, busy⟩ := mem_live.mp taken
      obtain ⟨next, node⟩ := exists_mem_nodesOf there
      refine ⟨_, node, (inv.nodeOf_fields there _).2.2.mpr busy, UInt32.toNat_inj.mp ?_⟩
      rw [inv.nodeOf_payload there next, start]
    · rintro ⟨n, member, busy, rfl⟩
      obtain ⟨b, there, same⟩ := mem_nodesOf member
      rw [same] at busy ⊢
      exact ⟨b, mem_live.mpr ⟨there, (inv.nodeOf_fields there _).2.2.mp busy⟩,
        inv.nodeOf_payload there _⟩
  separated := isChain_nodesOf (fun b c next hb hc apart => by
    rw [ne_eq, (inv.nodeOf_fields hb _).2.2, ne_eq, (inv.nodeOf_fields hc _).2.2]
    simpa using apart) inv.separated

/-! ### Every call returns -/

theorem HeapInv.kmalloc_total (inv : HeapInv R s bs) (size : UInt32) :
    ∃ h p, kmalloc s.heap size = some (h, p) := by
  obtain ⟨h, p, result, _⟩ := inv.kmalloc_spec size
  exact ⟨h, p, result⟩

/-- In every reachable state the node list tiles the region, no two free nodes are
neighbours, the allocated nodes are the blocks handed out, and every call returns. -/
theorem heap_invariant (reach : HeapReachable R s) :
    (∃ ns, s.heap.nodes = some ns ∧ WellFormedList R s.live ns) ∧
      (∀ size, ∃ h p, kmalloc s.heap size = some (h, p)) ∧
      ∀ p, p = NULL ∨ p ∈ s.live → ∃ h, kfree s.heap p = some h := by
  obtain ⟨bs, inv⟩ := reach.inv
  refine ⟨⟨_, inv.nodes, inv.wellFormed⟩, inv.kmalloc_total, ?_⟩
  rintro p (rfl | member)
  · exact ⟨s.heap, by simp [kfree]⟩
  · obtain ⟨h, result, _⟩ := inv.kfree_some member
    exact ⟨h, result⟩

theorem heap_invariant_boot : ∃ h p, kmalloc bootHeap.heap 100 = some (h, p) ∧
    ∃ ns, h.nodes = some ns ∧
      WellFormedList bootRegion (if p = NULL then bootHeap.live else p :: bootHeap.live) ns := by
  obtain ⟨h, p, result⟩ := bootHeap_inv.kmalloc_total 100
  have reach : HeapReachable bootRegion _ := ⟨_, _, .single (.kmalloc result)⟩
  exact ⟨h, p, result, (heap_invariant reach).1⟩

/-! ### Allocation safety -/

/-- What a caller of `kmalloc(n)` relies on when the result is not null. -/
structure SafeBlock (R : HeapRegion) (s : HeapRun) (n : UInt32) (h : Heap) (p : UInt32) :
    Prop where
  aligned : p.toNat % 4 = 0
  lower : R.base.toNat ≤ p.toNat
  upper : p.toNat + n.toNat ≤ R.base.toNat + 16384
  headers : ∃ ns, h.nodes = some ns ∧ ∀ node ∈ ns,
    p.toNat + n.toNat ≤ node.addr.toNat ∨ node.addr.toNat + 12 ≤ p.toNat
  others : ∀ q ∈ s.live, p.toNat + n.toNat ≤ q.toNat ∨
    q.toNat + (payloadSize h.mem q).toNat ≤ p.toNat
  enough : n.toNat ≤ (payloadSize h.mem p).toNat
  tight : (payloadSize h.mem p).toNat < (n.toNat + 3) / 4 * 4 + 28

def AllocationSafe (R : HeapRegion) (s : HeapRun) (n : UInt32) : Prop :=
  ∃ h p, kmalloc s.heap n = some (h, p) ∧ (p ≠ NULL → SafeBlock R s n h p)

/-- A block handed out without wraparound is safe. -/
theorem HeapInv.safeBlock (inv : HeapInv R s bs) {n : UInt32} {h : Heap}
    (small : n.toNat ≤ 4294967292) (result : kmalloc s.heap n = some (h, p))
    (nonnull : p ≠ NULL) : SafeBlock R s n h p := by
  cases inv.kmalloc_cases result with
  | failed => exact absurd rfl nonnull
  | @granted h p c cs _ found payload _ inv' _ =>
    obtain ⟨pre, b, post, first, handed, list⟩ := allocate_some.mp found
    rw [← handed] at list
    have there : c ∈ cs := by simp [list]
    have newest : p ∈ p :: s.live := .head _
    have size : (payloadSize h.mem p).toNat = c.size := inv'.payloadSize_eq there payload
    have region := inv'.payload_region newest
    have rounding := toNat_roundUp n
    have rounded := roundUp_le n small
    have request : (roundUp n).toNat ≤ c.size ∧ c.size < (roundUp n).toNat + 28 := by
      rcases granted_size 12 16 first.fits with ⟨lower, upper⟩ | exactly
      all_goals
        rw [← handed] at *
        omega
    dsimp only at region
    constructor
    case aligned =>
      have page := R.aligned
      have multiple : 4 ∣ c.addr :=
        inv'.tiles.dvd_addr (by omega) (by decide) inv'.aligned c there
      omega
    case lower => exact region.1
    case upper => omega
    -- any header is that of a block that lies before or after this one
    case headers =>
      refine ⟨_, inv'.nodes, fun node listed => ?_⟩
      obtain ⟨d, inside, same⟩ := mem_nodesOf listed
      rw [same, (inv'.nodeOf_fields inside _).1]
      rcases inv'.tiles.apart there inside with rfl | below | above
      all_goals omega
    -- and so is any other live block
    case others =>
      intro q old
      have fresh : p ∉ s.live := (List.nodup_cons.mp inv'.nodup).1
      have apart := inv'.payloads_apart newest (.tail p old) fun same => fresh (same ▸ old)
      dsimp only at apart
      omega
    case enough => omega
    case tight => omega

/-- The block behind a result that is not null has room for the request. -/
theorem HeapInv.kmalloc_room (inv : HeapInv R s bs) {n : UInt32} {h : Heap}
    (small : n.toNat ≤ 4294967292) (result : kmalloc s.heap n = some (h, p)) (nonnull : p ≠ NULL) :
    n.toNat ≤ (payloadSize h.mem p).toNat :=
  (inv.safeBlock small result nonnull).enough

/-- A failed `kmalloc` leaves the heap as it was. -/
theorem HeapInv.kmalloc_null (inv : HeapInv R s bs) {n : UInt32} {h : Heap}
    (result : kmalloc s.heap n = some (h, NULL)) : h = s.heap := by
  cases inv.kmalloc_cases result with
  | failed => rfl
  | granted _ _ _ nonnull => exact absurd rfl nonnull

/-- No free node is large enough for the request. -/
def Heap.NoFit (h : Heap) (size : UInt32) : Prop :=
  ∀ ns, h.nodes = some ns → ∀ node ∈ ns, node.isFree ≠ 0 → node.size < roundUp size

/-- The first fit fails exactly when nothing fits. -/
theorem HeapInv.noFit_iff (inv : HeapInv R s bs) :
    s.heap.NoFit size ↔ allocate 12 16 (roundUp size).toNat bs = none := by
  rw [allocate_none]
  constructor
  · intro noFit b member free
    obtain ⟨next, listed⟩ := exists_mem_nodesOf member
    obtain ⟨_, recorded, busy⟩ := inv.nodeOf_fields member next
    have short := noFit _ inv.nodes _ listed fun zero => by
      rw [busy, free] at zero
      cases zero
    rwa [UInt32.lt_iff_toNat_lt, recorded] at short
  · intro short ns list node listed free
    rw [inv.nodes, Option.some.injEq] at list
    subst list
    obtain ⟨b, member, same⟩ := mem_nodesOf listed
    obtain ⟨_, recorded, busy⟩ := inv.nodeOf_fields member node.next
    rw [same] at free ⊢
    rw [UInt32.lt_iff_toNat_lt, recorded]
    apply short b member
    rwa [ne_eq, busy, Bool.not_eq_false] at free

/-- `kmalloc` fails on a positive request exactly when nothing fits. -/
theorem HeapInv.kmalloc_null_iff (inv : HeapInv R s bs) (nonzero : size ≠ 0) :
    (∃ h, kmalloc s.heap size = some (h, NULL)) ↔ s.heap.NoFit size := by
  rw [inv.noFit_iff]
  constructor
  · rintro ⟨h, null⟩
    cases inv.kmalloc_cases null with
    | failed absent => exact absent nonzero
    | granted _ _ _ nonnull => exact absurd rfl nonnull
  · intro absent
    obtain ⟨h, p, result, outcome⟩ := inv.kmalloc_spec size
    cases outcome with
    | failed => exact ⟨_, result⟩
    | granted _ found =>
      rw [absent] at found
      cases found

/-- A request whose rounding wraps to 0 takes the first free block, whatever its size. -/
theorem HeapInv.unsafeBlock (inv : HeapInv R s bs) {n : UInt32} (large : 4294967292 < n.toNat)
    (member : b ∈ bs) (free : b.free = true) :
    ∃ h p, kmalloc s.heap n = some (h, p) ∧ p ≠ NULL ∧
      R.base.toNat + 16384 < p.toNat + n.toNat := by
  obtain ⟨h, p, result, outcome⟩ := inv.kmalloc_spec n
  cases outcome with
  | failed absent =>
    have nonzero : n ≠ 0 := by
      rintro rfl
      simp at large
    -- the rounded size is 0, which any free block can hold
    have short := allocate_none.mp (absent nonzero) b member free
    rw [roundUp_wraps n large] at short
    omega
  | granted _ _ _ nonnull inv' =>
    have region := (inv'.payload_region (.head _)).1
    have positive := toNat_pos R.nonnull
    exact ⟨h, p, result, nonnull, by omega⟩

/-- The nodes are all allocated exactly when the blocks are. -/
theorem HeapInv.full_iff (inv : HeapInv R s bs) :
    (∀ ns, s.heap.nodes = some ns → ∀ node ∈ ns, node.isFree = 0) ↔
      ∀ b ∈ bs, b.free = false := by
  constructor
  · intro full b member
    obtain ⟨next, listed⟩ := exists_mem_nodesOf member
    exact (inv.nodeOf_fields member next).2.2.mp (full _ inv.nodes _ listed)
  · intro full ns list node listed
    rw [inv.nodes, Option.some.injEq] at list
    subst list
    obtain ⟨b, member, same⟩ := mem_nodesOf listed
    rw [same]
    exact (inv.nodeOf_fields member _).2.2.mpr (full b member)

/-- `kmalloc` is safe except for the three sizes whose rounding wraps, and for these it is safe
only while there is nothing left to hand out. -/
theorem allocationSafe_iff (reach : HeapReachable R s) (n : UInt32) (positive : 0 < n) :
    AllocationSafe R s n ↔ n.toNat ≤ 4294967292 ∨
      ∀ ns, s.heap.nodes = some ns → ∀ node ∈ ns, node.isFree = 0 := by
  obtain ⟨bs, inv⟩ := reach.inv
  have nonzero : n ≠ 0 := by
    rintro rfl
    exact absurd positive (by decide)
  rw [inv.full_iff]
  constructor
  · rintro ⟨h, p, result, safe⟩
    by_contra wraps
    simp only [not_or, not_le, not_forall, Bool.not_eq_false] at wraps
    obtain ⟨large, b, member, free⟩ := wraps
    obtain ⟨h', p', result', nonnull, beyond⟩ := inv.unsafeBlock large member free
    rw [result', Option.some.injEq, Prod.mk.injEq] at result
    obtain ⟨rfl, rfl⟩ := result
    have upper := (safe nonnull).upper
    omega
  · intro allowed
    obtain ⟨h, p, result, outcome⟩ := inv.kmalloc_spec n
    refine ⟨h, p, result, fun nonnull => inv.safeBlock ?_ result nonnull⟩
    rcases allowed with small | full
    · exact small
    · -- a block that was handed out was free before, so not every block was allocated
      cases outcome with
      | failed => exact absurd rfl nonnull
      | granted _ found =>
        obtain ⟨pre, b, post, first, -, -⟩ := allocate_some.mp found
        have busy := full b (by simp [first.split])
        rw [first.free] at busy
        cases busy

theorem allocationSafe_boot : AllocationSafe bootRegion bootHeap 100 :=
  (allocationSafe_iff bootHeap_reachable 100 (by decide)).mpr (.inl (by decide))

/-- The largest request but two is rounded to 0, so the fresh heap hands out an empty block
for it. -/
theorem not_allocationSafe_boot :
    HeapReachable bootRegion bootHeap ∧ ¬AllocationSafe bootRegion bootHeap 0xFFFFFFFD := by
  refine ⟨bootHeap_reachable, ?_⟩
  rintro ⟨h, p, result, safe⟩
  have empty : (kmalloc bootHeap.heap 0xFFFFFFFD).map
      (fun call => (call.2, payloadSize call.1.mem call.2)) = some (0x10000C, 0) := by
    decide +kernel
  rw [result, Option.map_some, Option.some.injEq, Prod.mk.injEq] at empty
  dsimp only at empty
  obtain ⟨rfl, size⟩ := empty
  have enough := (safe (by decide)).enough
  rw [size] at enough
  exact absurd enough (by decide)

/-! ### The frame law -/

/-- What a step leaves alone: the payload of every live block that is not being freed, and
under client stores the node list. -/
def FrameKept (s : HeapRun) : HeapOp → HeapRun → Prop
  | .kmalloc _, t => ∀ q ∈ s.live, ∀ x ∈ payloadBytes s.heap.mem q, t.heap.mem x = s.heap.mem x
  | .kfree p, t =>
    ∀ q ∈ s.live, q ≠ p → ∀ x ∈ payloadBytes s.heap.mem q, t.heap.mem x = s.heap.mem x
  | .client _ _, t => t.heap.nodes = s.heap.nodes

/-- Every step of a run keeps its frame. -/
theorem frameKept_step {op : HeapOp} (reach : HeapReachable R s) (taken : HeapStep R s op t) :
    FrameKept s op t := by
  obtain ⟨bs, inv⟩ := reach.inv
  cases taken with
  | kmalloc result =>
    obtain ⟨cs, _, untouched⟩ := inv.kmalloc_step result
    exact fun q member => (untouched q member).bytes
  | kfree legal result =>
    obtain ⟨cs, _, untouched⟩ := inv.kfree_step legal result
    exact fun q member other => (untouched q member other).bytes
  | client allowed change => exact (inv.client allowed change).nodes.trans inv.nodes.symm

/-- A block in use: its owner stores to it, and another one is taken and given back. -/
theorem frameKept_boot : ∃ h p m h' q h'', kmalloc bootHeap.heap 100 = some (h, p) ∧ p ≠ NULL ∧
    m = h.mem.write8 p.toNat 7 ∧ kmalloc ⟨m, h.heapStart⟩ 50 = some (h', q) ∧ q ≠ NULL ∧
    kfree h' q = some h'' ∧
    FrameKept ⟨h, [p]⟩ (.client [p] m) ⟨⟨m, h.heapStart⟩, [p]⟩ ∧
    FrameKept ⟨⟨m, h.heapStart⟩, [p]⟩ (.kmalloc 50) ⟨h', [q, p]⟩ ∧
    FrameKept ⟨h', [q, p]⟩ (.kfree q) ⟨h'', [p]⟩ := by
  have first : allocate 12 16 (roundUp 100).toNat (initialBlocks bootRegion) =
      some (⟨0x100000, 100, false⟩, [⟨0x100000, 100, false⟩, ⟨0x100070, 16260, true⟩]) := by
    decide
  have second : allocate 12 16 (roundUp 50).toNat
      [⟨0x100000, 100, false⟩, ⟨0x100070, 16260, true⟩] = some (⟨0x100070, 52, false⟩,
        [⟨0x100000, 100, false⟩, ⟨0x100070, 52, false⟩, ⟨0x1000B0, 16196, true⟩]) := by decide
  obtain ⟨h, p, result, -, nonnull, inv, -⟩ := bootHeap_inv.kmalloc_some (by decide) first
  have taken := HeapStep.kmalloc (R := bootRegion) result
  rw [if_neg nonnull] at taken
  have reach : HeapReachable bootRegion ⟨h, [p]⟩ := ⟨_, _, .single taken⟩
  -- the owner stores to the first byte of its block
  have room := bootHeap_inv.kmalloc_room (by decide) result nonnull
  have owned : ∀ r ∈ [p], r ∈ [p] := fun r member => member
  have change : Within (clientBytes bootRegion h.mem [p]) h.mem (h.mem.write8 p.toNat 7) := by
    intro x outside
    apply h.mem.write8_other
    rintro rfl
    have size : 0 < (payloadSize h.mem p).toNat := Nat.lt_of_lt_of_le (by decide) room
    exact outside (.inr (.inr ⟨p, .head _, Nat.le_refl _, Nat.lt_add_of_pos_right size⟩))
  have stored : HeapStep bootRegion ⟨h, [p]⟩ _ _ := .client owned change
  have reach' : HeapReachable bootRegion _ := ⟨_, _, .cons taken (.single stored)⟩
  -- a second block is taken and given back
  obtain ⟨h', q, result', -, nonnull', inv', -⟩ :=
    (inv.client owned change).kmalloc_some (by decide) second
  have taken' := HeapStep.kmalloc (R := bootRegion) (s := ⟨⟨_, h.heapStart⟩, [p]⟩) result'
  rw [if_neg nonnull'] at taken'
  have reach'' : HeapReachable bootRegion ⟨h', [q, p]⟩ :=
    ⟨_, _, .cons taken (.cons stored (.single taken'))⟩
  obtain ⟨h'', freed, -⟩ := inv'.kfree_some (.head _)
  have released := HeapStep.kfree (R := bootRegion) (s := ⟨h', [q, p]⟩) (.inr (.head _)) freed
  rw [List.erase_cons_head] at released
  exact ⟨h, p, _, h', q, h'', result, nonnull, rfl, result', nonnull', freed,
    frameKept_step reach stored, frameKept_step reach' taken', frameKept_step reach'' released⟩

end FriscaOS
