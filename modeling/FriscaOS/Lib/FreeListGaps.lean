import FriscaOS.Lib.FreeList

/-! A coalesced tiling is determined by its allocated blocks, and its free blocks are exactly
the maximal gaps between them. -/
namespace FreeList

variable {hdr lo hi : Nat} {as bs : List Block} {a b c : Block}

/-! ### Uniqueness -/

/-- A leading free block of a separated tiling reaches at least as far as that of any other
tiling of the arena that allocates the same blocks: what follows it is allocated. -/
private theorem free_head_reaches (pos : 0 < hdr) (ta : Tiles hdr lo hi (a :: as))
    (tb : Tiles hdr lo hi (b :: bs)) (sep : Separated (a :: as)) (free : a.free = true)
    (sub : ∀ x, x ∈ live (a :: as) → x ∈ live (b :: bs)) : b.stop hdr ≤ a.stop hdr := by
  by_contra short
  rw [Block.stop, Block.stop] at short
  cases as with
  | nil =>
    have full : a.addr + hdr + a.size = hi := ta.2
    have inside := (tb.mem (.head bs : b ∈ b :: bs)).2
    omega
  | cons c cs =>
    have taken : c.free = false := by
      have apart := (List.isChain_cons_cons.mp sep).1
      simpa [free] using apart
    have start : c.addr = a.addr + hdr + a.size := ta.2.1
    have shared := (mem_live.mp (sub c (by simp [taken]))).1
    have first : a.addr = lo := ta.1
    have firstB : b.addr = lo := tb.1
    rcases List.mem_cons.mp shared with rfl | later
    · omega
    · have beyond := tb.after later
      omega

private theorem free_head_of_free (pos : 0 < hdr) (ta : Tiles hdr lo hi (a :: as))
    (tb : Tiles hdr lo hi (b :: bs)) (sub : ∀ x, x ∈ live (b :: bs) → x ∈ live (a :: as))
    (free : a.free = true) : b.free = true := by
  by_contra taken
  have shared := mem_live.mp (sub b (by simp [taken]))
  have same : a = b := ta.eq_of_addr pos (by simp) shared.1 (ta.1.trans tb.1.symm)
  rw [same] at free
  exact taken free

private theorem heads_equal (pos : 0 < hdr) (ta : Tiles hdr lo hi (a :: as))
    (tb : Tiles hdr lo hi (b :: bs)) (sa : Separated (a :: as)) (sb : Separated (b :: bs))
    (same : ∀ x, x ∈ live (a :: as) ↔ x ∈ live (b :: bs)) : a = b := by
  have starts : a.addr = b.addr := ta.1.trans tb.1.symm
  cases free : a.free with
  | true =>
    have freeB := free_head_of_free pos ta tb (fun x => (same x).mpr) free
    have right := free_head_reaches pos ta tb sa free fun x => (same x).mp
    have left := free_head_reaches pos tb ta sb freeB fun x => (same x).mpr
    have sizes : a.size = b.size := by
      rw [Block.stop, Block.stop] at left right
      omega
    cases a; cases b
    simp_all
  | false =>
    have shared := mem_live.mp ((same a).mp (by simp [free]))
    exact (tb.eq_of_addr pos (by simp) shared.1 starts.symm).symm

/-- Two coalesced tilings of one arena with the same allocated blocks are the same list. -/
theorem Tiles.unique (pos : 0 < hdr) (ta : Tiles hdr lo hi as) (tb : Tiles hdr lo hi bs)
    (sa : Separated as) (sb : Separated bs) (same : ∀ x, x ∈ live as ↔ x ∈ live bs) :
    as = bs := by
  induction as generalizing lo bs with
  | nil =>
    cases bs with
    | nil => rfl
    | cons b bs =>
      have empty : lo = hi := ta
      have inside := tb.mem (.head bs : b ∈ b :: bs)
      omega
  | cons a as ih =>
    cases bs with
    | nil =>
      have empty : lo = hi := tb
      have inside := ta.mem (.head as : a ∈ a :: as)
      omega
    | cons b bs =>
      obtain rfl := heads_equal pos ta tb sa sb same
      have ahead (x : Block) {cs : List Block} (tc : Tiles hdr (a.stop hdr) hi cs)
          (member : x ∈ live cs) : x ≠ a := by
        rintro rfl
        have beyond : x.addr + hdr + x.size ≤ x.addr := (tc.mem (mem_live.mp member).1).1
        omega
      have tails (x : Block) : x ∈ live as ↔ x ∈ live bs := by
        constructor
        · intro member
          have shared := (same x).mp (by simp_all)
          have other := ahead x ta.2 member
          simpa [other] using shared
        · intro member
          have shared := (same x).mpr (by simp_all)
          have other := ahead x tb.2 member
          simpa [other] using shared
      have rest := ih ta.2 tb.2 (List.isChain_cons.mp sa).2 (List.isChain_cons.mp sb).2 tails
      rw [rest]

/-- Releasing a block that was just allocated restores the list. -/
theorem release_allocate (pos : 0 < hdr) (tiles : Tiles hdr lo hi bs) (sep : Separated bs)
    {gap r : Nat} {cs : List Block} (found : allocate hdr gap r bs = some (c, cs)) :
    release hdr c.addr cs = bs := by
  obtain ⟨pre, b, post, first, rfl, rfl⟩ := allocate_some.mp found
  refine Tiles.unique pos (tiles_release (first.tiles tiles)) tiles (separated_release _) sep ?_
  intro x
  rw [live_release, first.live_after, first.live_before]
  have away (x : Block) (member : x ∈ live pre ++ live post) : x.addr ≠ b.addr := by
    intro same
    have old : x ∈ live bs := first.live_before ▸ member
    have whole : b ∈ bs := by simp [first.split]
    have equal := tiles.eq_of_addr pos (mem_live.mp old).1 whole same
    have taken := (mem_live.mp old).2
    rw [equal, first.free] at taken
    cases taken
  simp only [List.mem_filter, List.mem_append, List.mem_cons, decide_not, Bool.not_eq_true',
    decide_eq_false_iff_not]
  constructor
  · rintro ⟨left | rfl | right, other⟩
    · exact .inl left
    · exact absurd rfl other
    · exact .inr right
  · intro member
    exact ⟨member.imp_right .inr, away x (List.mem_append.mpr member)⟩

/-! ### Gaps -/

/-- `[u, v)` is a maximal run of the addresses in `[lo, hi)` that are not in use. -/
structure MaximalGap (lo hi : Nat) (used : Nat → Prop) (u v : Nat) : Prop where
  nonempty : u < v
  lower : lo ≤ u
  upper : v ≤ hi
  unused : ∀ x, u ≤ x → x < v → ¬used x
  left : u = lo ∨ used (u - 1)
  right : v = hi ∨ used v

/-- Two maximal gaps that share an address are one. -/
theorem MaximalGap.eq_of_shared {used : Nat → Prop} {u v p q x : Nat}
    (one : MaximalGap lo hi used u v) (two : MaximalGap lo hi used p q)
    (ux : u ≤ x) (xv : x < v) (px : p ≤ x) (xq : x < q) : u = p ∧ v = q := by
  have starts {u v p q : Nat} (one : MaximalGap lo hi used u v)
      (two : MaximalGap lo hi used p q) (xv : x < v) (px : p ≤ x) : p ≤ u := by
    by_contra later
    rcases two.left with edge | taken
    · have := one.lower
      omega
    · exact one.unused (p - 1) (by omega) (by omega) taken
  have stops {u v p q : Nat} (one : MaximalGap lo hi used u v)
      (two : MaximalGap lo hi used p q) (ux : u ≤ x) (xq : x < q) : v ≤ q := by
    by_contra later
    rcases two.right with edge | taken
    · have := one.upper
      omega
    · exact one.unused q (by omega) (by omega) taken
  exact ⟨Nat.le_antisymm (starts two one xq ux) (starts one two xv px),
    Nat.le_antisymm (stops one two ux xq) (stops two one px xv)⟩

variable (hdr) in
/-- The address lies in the header or the payload of an allocated block. -/
def Covered (bs : List Block) (x : Nat) : Prop :=
  ∃ b ∈ live bs, b.addr ≤ x ∧ x < b.stop hdr

/-- A free block of a coalesced tiling is a maximal gap: both its neighbours are allocated. -/
theorem Tiles.gap_of_free (pos : 0 < hdr) (tiles : Tiles hdr lo hi bs) (sep : Separated bs)
    (member : b ∈ bs) (free : b.free = true) :
    MaximalGap lo hi (Covered hdr bs) b.addr (b.stop hdr) := by
  have bounds := tiles.mem member
  obtain ⟨pre, post, rfl⟩ := List.append_of_mem member
  obtain ⟨mid, left, start, right⟩ := tiles_append.mp tiles
  obtain ⟨_, chain, seam⟩ := List.isChain_append.mp sep
  rw [Block.stop]
  refine ⟨by omega, bounds.1, bounds.2, ?_, ?_, ?_⟩
  · rintro x lower upper ⟨c, taken, cx, xc⟩
    rw [Block.stop] at xc
    obtain ⟨there, busy⟩ := mem_live.mp taken
    rcases tiles.apart there member with rfl | below | above
    · rw [free] at busy
      cases busy
    all_goals omega
  · cases last : pre.getLast? with
    | none =>
      rw [List.getLast?_eq_none_iff] at last
      subst last
      exact .inl (start.trans (show mid = lo from left.symm))
    | some c =>
      have busy : c.free = false := by
        have apart := seam c last b (by simp)
        simpa [free] using apart
      obtain ⟨init, rfl⟩ := List.getLast?_eq_some_iff.mp last
      obtain ⟨low, _, startC, stopC⟩ := tiles_append.mp left
      have meets : c.addr + hdr + c.size = b.addr := Eq.trans stopC start.symm
      refine .inr ⟨c, by simp [busy], ?_⟩
      rw [Block.stop]
      omega
  · cases post with
    | nil => exact .inl right
    | cons c post =>
      have busy : c.free = false := by
        have apart := (List.isChain_cons_cons.mp chain).1
        simpa [free] using apart
      have meets : c.addr = b.addr + hdr + b.size := right.1
      refine .inr ⟨c, by simp [busy], ?_⟩
      rw [Block.stop]
      omega

/-- The maximal gaps of a coalesced tiling are its free blocks. -/
theorem Tiles.gap_iff (pos : 0 < hdr) (tiles : Tiles hdr lo hi bs) (sep : Separated bs)
    {u v : Nat} : MaximalGap lo hi (Covered hdr bs) u v ↔
      ∃ b ∈ bs, b.free = true ∧ u = b.addr ∧ v = b.stop hdr := by
  constructor
  · intro gap
    obtain ⟨b, member, lower, upper⟩ :=
      tiles.cover gap.lower (Nat.lt_of_lt_of_le gap.nonempty gap.upper)
    have free : b.free = true := by
      by_contra busy
      exact gap.unused u (Nat.le_refl u) gap.nonempty
        ⟨b, mem_live.mpr ⟨member, by simpa using busy⟩, lower, upper⟩
    have same := gap.eq_of_shared (tiles.gap_of_free pos sep member free) (Nat.le_refl u)
      gap.nonempty lower upper
    exact ⟨b, member, free, same⟩
  · rintro ⟨b, member, free, rfl, rfl⟩
    exact tiles.gap_of_free pos sep member free

/-- First fit fails exactly when no gap can hold a header and the request. -/
theorem Tiles.allocate_none_iff (pos : 0 < hdr) (tiles : Tiles hdr lo hi bs)
    (sep : Separated bs) {gap r : Nat} : allocate hdr gap r bs = none ↔
      ∀ u v, MaximalGap lo hi (Covered hdr bs) u v → v - u < hdr + r := by
  rw [allocate_none]
  constructor
  · intro small u v run
    obtain ⟨b, member, free, rfl, rfl⟩ := (tiles.gap_iff pos sep).mp run
    have short := small b member free
    rw [Block.stop]
    omega
  · intro short b member free
    have fits := short _ _ (tiles.gap_of_free pos sep member free)
    rw [Block.stop] at fits
    omega

/-- First fit takes the lowest gap that can hold a header and the request. -/
theorem Tiles.allocate_lowest (pos : 0 < hdr) (tiles : Tiles hdr lo hi bs) (sep : Separated bs)
    {gap r : Nat} {cs : List Block} (found : allocate hdr gap r bs = some (c, cs)) :
    ∃ v, MaximalGap lo hi (Covered hdr bs) c.addr v ∧ hdr + r ≤ v - c.addr ∧
      ∀ p q, MaximalGap lo hi (Covered hdr bs) p q → hdr + r ≤ q - p → c.addr ≤ p := by
  obtain ⟨pre, b, post, first, rfl, rfl⟩ := allocate_some.mp found
  have member : b ∈ bs := by simp [first.split]
  refine ⟨b.stop hdr, tiles.gap_of_free pos sep member first.free, ?_, ?_⟩
  · have fits := first.fits
    simp only [granted, Block.stop]
    omega
  · intro p q run long
    obtain ⟨e, there, free, rfl, rfl⟩ := (tiles.gap_iff pos sep).mp run
    have order := tiles.pairwise
    rw [first.split, List.pairwise_append] at order
    rw [first.split, List.mem_append, List.mem_cons] at there
    rcases there with earlier | rfl | later
    · have small := first.before e earlier free
      rw [Block.stop] at long
      omega
    · exact Nat.le_refl _
    · have ahead := (List.pairwise_cons.mp order.2.1).1 e later
      simp only [granted]
      omega

end FreeList
