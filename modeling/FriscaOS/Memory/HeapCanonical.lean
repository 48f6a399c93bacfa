import FriscaOS.Memory.HeapSafety

/-! The node list is determined by the live blocks. So allocation fails only when no run of
unused bytes is long enough, and it does not matter in which order blocks were freed. -/
namespace FriscaOS

open ByteMemory FreeList Transition

variable {R : HeapRegion} {s t : HeapRun} {bs cs : List Block} {p n : UInt32} {x u v : Nat}

/-! ### Completeness -/

/-- The byte lies in the header or the payload of a live block. -/
def Occupied (s : HeapRun) (x : Nat) : Prop :=
  ∃ p ∈ s.live, p.toNat - 12 ≤ x ∧ x < p.toNat + (payloadSize s.heap.mem p).toNat

/-- `[u, v)` is a maximal run of heap bytes that no live block occupies. -/
def UnusedRun (R : HeapRegion) (s : HeapRun) (u v : Nat) : Prop :=
  MaximalGap R.base.toNat (R.base.toNat + 16384) (Occupied s) u v

theorem HeapInv.occupied_iff (inv : HeapInv R s bs) : Occupied s x ↔ Covered 12 bs x := by
  constructor
  · rintro ⟨p, member, lower, upper⟩
    obtain ⟨b, there, busy, payload, size⟩ := inv.block member
    refine ⟨b, mem_live.mpr ⟨there, busy⟩, ?_⟩
    rw [Block.stop]
    omega
  · rintro ⟨b, taken, lower, upper⟩
    obtain ⟨p, member, payload, size⟩ := inv.pointer taken
    refine ⟨p, member, ?_⟩
    rw [Block.stop] at upper
    omega

theorem HeapInv.unusedRun_iff (inv : HeapInv R s bs) :
    UnusedRun R s u v ↔ MaximalGap R.base.toNat (R.base.toNat + 16384) (Covered 12 bs) u v := by
  have same : Occupied s = Covered 12 bs := funext fun x => propext inv.occupied_iff
  rw [UnusedRun, same]

/-- What `kmalloc(n)` has to answer for, in terms of bytes only. -/
structure CompleteAnswer (R : HeapRegion) (s : HeapRun) (n : UInt32) (h : Heap) (p : UInt32) :
    Prop where
  fails : p = NULL ↔ ∀ u v, UnusedRun R s u v → v - u < 12 + (roundUp n).toNat
  unchanged : p = NULL → h.nodes = s.heap.nodes
  lowest : p ≠ NULL → ∃ u v, UnusedRun R s u v ∧ 12 + (roundUp n).toNat ≤ v - u ∧
    p.toNat = u + 12 ∧ ∀ u' v', UnusedRun R s u' v' → 12 + (roundUp n).toNat ≤ v' - u' → u ≤ u'

/-- `kmalloc` fails only if no run of unused bytes can hold a header and the rounded request,
and otherwise it takes the lowest run that can. -/
theorem kmalloc_complete (reach : HeapReachable R s) (positive : 0 < n) :
    ∃ h p, kmalloc s.heap n = some (h, p) ∧ CompleteAnswer R s n h p := by
  obtain ⟨bs, inv⟩ := reach.inv
  have nonzero : n ≠ 0 := by
    rintro rfl
    exact absurd positive (by decide)
  have noneIff : allocate 12 16 (roundUp n).toNat bs = none ↔ _ :=
    inv.tiles.allocate_none_iff (by decide) inv.separated
  simp only [← inv.unusedRun_iff] at noneIff
  obtain ⟨h, p, result, outcome⟩ := inv.kmalloc_spec n
  refine ⟨h, p, result, ?_⟩
  cases outcome with
  | failed absent =>
    have short := noneIff.mp (absent nonzero)
    exact ⟨iff_of_true rfl short, fun _ => rfl, fun nonnull => absurd rfl nonnull⟩
  | granted _ search payload nonnull =>
    refine ⟨?_, fun null => absurd null nonnull, fun _ => ?_⟩
    · apply iff_of_false nonnull
      rw [← noneIff, search]
      exact Option.some_ne_none _
    · obtain ⟨v, run, long, lowest⟩ := inv.tiles.allocate_lowest (by decide) inv.separated search
      simp only [← inv.unusedRun_iff] at run lowest
      exact ⟨_, v, run, long, payload, lowest⟩

theorem kmalloc_complete_boot :
    ∃ h p, kmalloc bootHeap.heap 100 = some (h, p) ∧ CompleteAnswer bootRegion bootHeap 100 h p :=
  kmalloc_complete bootHeap_reachable (by decide)

/-! ### Independence from history -/

/-- An allocated block is found in every heap with the same pointer and recorded size. -/
private theorem HeapInv.live_sub (left : HeapInv R s bs) (right : HeapInv R t cs)
    (same : ∀ p ∈ s.live, p ∈ t.live)
    (sizes : ∀ p ∈ s.live, payloadSize s.heap.mem p = payloadSize t.heap.mem p) {b : Block}
    (taken : b ∈ live bs) : b ∈ live cs := by
  obtain ⟨p, member, payload, size⟩ := left.pointer taken
  obtain ⟨c, there, busy, payload', size'⟩ := right.block (same p member)
  have busyB := (mem_live.mp taken).2
  have equal : b = c := by
    rw [sizes p member] at size
    cases b; cases c
    simp_all
  exact equal ▸ mem_live.mpr ⟨there, busy⟩

/-- Two heaps with the same live blocks hold the same block list. -/
theorem HeapInv.unique (left : HeapInv R s bs) (right : HeapInv R t cs)
    (same : ∀ p, p ∈ s.live ↔ p ∈ t.live)
    (sizes : ∀ p ∈ s.live, payloadSize s.heap.mem p = payloadSize t.heap.mem p) : bs = cs := by
  apply Tiles.unique (by decide) left.tiles right.tiles left.separated right.separated
  intro b
  constructor
  · exact left.live_sub right (fun p => (same p).mp) sizes
  · exact right.live_sub left (fun p => (same p).mpr) fun p member =>
      (sizes p ((same p).mpr member)).symm

/-- Freeing distinct live pointers one after the other returns, and leaves allocated exactly
the blocks of the others. -/
theorem HeapInv.free_all (inv : HeapInv R s bs) {ps : List UInt32} (distinct : ps.Nodup)
    (legal : ∀ p ∈ ps, p ∈ s.live) :
    ∃ h cs lives, ps.foldlM kfree s.heap = some h ∧ HeapInv R ⟨h, lives⟩ cs ∧
      ∀ b, b ∈ live cs ↔ b ∈ live bs ∧ ∀ p ∈ ps, p.toNat ≠ b.addr + 12 := by
  induction ps generalizing s bs with
  | nil => exact ⟨s.heap, bs, s.live, rfl, inv, by simp⟩
  | cons p ps ih =>
    -- the pointers still to be freed stay live when the first one is freed
    obtain ⟨notLater, distinct⟩ := List.nodup_cons.mp distinct
    have member := legal p (by simp)
    obtain ⟨b, _, _, payload, _⟩ := inv.block member
    obtain ⟨h, result, inv', _⟩ := inv.kfree_some member
    obtain ⟨h', cs, lives, results, inv'', remaining⟩ := ih inv' distinct fun q later => by
      have other : q ≠ p := fun same => notLater (same ▸ later)
      exact (List.mem_erase_of_ne other).mpr (legal q (by simp [later]))
    refine ⟨h', cs, lives, ?_, inv'', fun c => ?_⟩
    · rw [List.foldlM_cons, result]
      exact results
    · rw [remaining, live_release, List.mem_filter, List.forall_mem_cons]
      simp only [decide_not, Bool.not_eq_true', decide_eq_false_iff_not]
      constructor
      · rintro ⟨⟨taken, other⟩, rest⟩
        exact ⟨taken, by omega, rest⟩
      · rintro ⟨taken, other, rest⟩
        exact ⟨⟨taken, by omega⟩, rest⟩

/-- The node list is the same whatever the order in which pointers were freed. -/
theorem HeapInv.free_perm (inv : HeapInv R s bs) {ps qs : List UInt32} (distinct : ps.Nodup)
    (legal : ∀ p ∈ ps, p ∈ s.live) (perm : ps.Perm qs) :
    ∃ h h' ns, ps.foldlM kfree s.heap = some h ∧
      qs.foldlM kfree s.heap = some h' ∧ h.nodes = some ns ∧ h'.nodes = some ns := by
  obtain ⟨h, cs, _, result, left, remaining⟩ := inv.free_all distinct legal
  obtain ⟨h', ds, _, result', right, remaining'⟩ :=
    inv.free_all (perm.nodup_iff.mp distinct) fun p member => legal p (perm.mem_iff.mpr member)
  have equal : cs = ds := by
    apply Tiles.unique (by decide) left.tiles right.tiles left.separated right.separated
    intro b
    rw [remaining, remaining']
    simp only [perm.mem_iff]
  exact ⟨h, h', _, result, result', left.nodes, equal ▸ right.nodes⟩

/-- Freeing what `kmalloc` just returned restores the node list. -/
theorem HeapInv.free_fresh (inv : HeapInv R s bs) {h : Heap}
    (result : kmalloc s.heap n = some (h, p)) (nonnull : p ≠ NULL) :
    ∃ h', kfree h p = some h' ∧ h'.nodes = s.heap.nodes := by
  cases inv.kmalloc_cases result with
  | failed => exact absurd rfl nonnull
  | @granted _ _ c _ _ search payload _ inv' _ =>
    obtain ⟨h', freed, inv'', _⟩ := inv'.kfree_some (List.mem_cons_self ..)
    have start : p.toNat - 12 = c.addr := by omega
    rw [start, release_allocate (by decide) inv.tiles inv.separated search] at inv''
    exact ⟨h', freed, inv''.nodes.trans inv.nodes.symm⟩

/-- Freeing every live pointer restores the list `heap_init` built. -/
theorem HeapInv.free_everything (inv : HeapInv R s bs) {ps : List UInt32}
    (perm : ps.Perm s.live) :
    ∃ h, ps.foldlM kfree s.heap = some h ∧
      h.nodes = some [⟨R.base, 16372, 1, NULL⟩] := by
  obtain ⟨h, cs, _, result, inv', remaining⟩ :=
    inv.free_all (perm.nodup_iff.mpr inv.nodup) fun p => perm.mem_iff.mp
  have fresh := heapInv_init R s.heap.mem
  have equal : cs = initialBlocks R := by
    apply Tiles.unique (by decide) inv'.tiles fresh.tiles inv'.separated fresh.separated
    intro b
    -- every allocated block had a live pointer, and all of these were freed
    have freed : b ∉ live cs := by
      rw [remaining]
      rintro ⟨taken, others⟩
      obtain ⟨p, member, payload, _⟩ := inv.pointer taken
      exact others p (perm.mem_iff.mpr member) payload
    have unused : b ∉ live (initialBlocks R) := by simp [initialBlocks, live]
    exact iff_of_false freed unused
  refine ⟨h, result, ?_⟩
  rw [inv'.nodes, equal]
  simp [initialBlocks, nodesOf, nodeOf]

/-- The node list depends on the live blocks only, not on the calls that led there. -/
theorem nodes_history_independent (reach : HeapReachable R s) :
    (∀ t, HeapReachable R t → (∀ p, p ∈ s.live ↔ p ∈ t.live) →
      (∀ p ∈ s.live, payloadSize s.heap.mem p = payloadSize t.heap.mem p) →
      ∃ ns, s.heap.nodes = some ns ∧ t.heap.nodes = some ns) ∧
    (∀ ps qs : List UInt32, ps.Nodup → (∀ p ∈ ps, p ∈ s.live) → ps.Perm qs →
      ∃ h h' ns, ps.foldlM kfree s.heap = some h ∧ qs.foldlM kfree s.heap = some h' ∧
        h.nodes = some ns ∧ h'.nodes = some ns) ∧
    (∀ n h p, kmalloc s.heap n = some (h, p) → p ≠ NULL →
      ∃ h', kfree h p = some h' ∧ h'.nodes = s.heap.nodes) ∧
    (∀ ps : List UInt32, ps.Perm s.live →
      ∃ h, ps.foldlM kfree s.heap = some h ∧ h.nodes = some [⟨R.base, 16372, 1, NULL⟩]) := by
  obtain ⟨bs, inv⟩ := reach.inv
  refine ⟨fun t other same sizes => ?_, fun ps qs distinct legal perm => ?_,
    fun n h p result nonnull => ?_, fun ps perm => ?_⟩
  · obtain ⟨cs, inv'⟩ := other.inv
    obtain rfl := inv.unique inv' same sizes
    exact ⟨_, inv.nodes, inv'.nodes⟩
  · exact inv.free_perm distinct legal perm
  · exact inv.free_fresh result nonnull
  · exact inv.free_everything perm

theorem nodes_history_independent_boot : ∃ h p h', kmalloc bootHeap.heap 100 = some (h, p) ∧
    p ≠ NULL ∧ kfree h p = some h' ∧ h'.nodes = bootHeap.heap.nodes := by
  obtain ⟨h, p, result⟩ := bootHeap_inv.kmalloc_total 100
  have answer : (kmalloc bootHeap.heap 100).map Prod.snd = some 0x10000C := by decide +kernel
  have nonnull : p ≠ NULL := by
    rw [result, Option.map_some, Option.some.injEq] at answer
    have same : p = 0x10000C := answer
    rw [same]
    decide
  obtain ⟨h', freed, same⟩ :=
    (nodes_history_independent bootHeap_reachable).2.2.1 100 h p result nonnull
  exact ⟨h, p, h', result, nonnull, freed, same⟩

end FriscaOS
