import Mathlib.Data.List.Nodup
import Mathlib.Logic.Function.Iterate
import Mathlib.Tactic.Common

/-! Rings of nodes that a successor function links, insertion into them, and walks around them. -/
namespace Ring

variable {α : Type*} {next next' : α → α} {a b x y : α} {xs ys pre post : List α}

/-- The links lead from `a` through the list to `b`. -/
def Links (next : α → α) : α → List α → α → Prop
  | a, [], b => next a = b
  | a, x :: xs, b => next a = x ∧ Links next x xs b

theorem links_append :
    Links next a (pre ++ x :: post) b ↔ Links next a pre x ∧ Links next x post b := by
  induction pre generalizing a with
  | nil => rfl
  | cons y pre ih => rw [List.cons_append, Links, Links, ih, and_assoc]

theorem Links.congr (links : Links next a xs b) (same : ∀ y ∈ a :: xs, next' y = next y) :
    Links next' a xs b := by
  induction xs generalizing a with
  | nil => exact (same a (.head _)).trans links
  | cons x xs ih =>
    exact ⟨(same a (.head _)).trans links.1, ih links.2 fun y member => same y (.tail a member)⟩

/-- The links from the head of a list without repetition meet every element once and lead back. -/
structure IsRing (next : α → α) (a : α) (xs : List α) : Prop where
  nodup : (a :: xs).Nodup
  links : Links next a xs a

namespace IsRing

theorem congr (ring : IsRing next a xs) (same : ∀ y ∈ a :: xs, next' y = next y) :
    IsRing next' a xs := ⟨ring.nodup, ring.links.congr same⟩

/-- A ring may be entered anywhere. -/
theorem rotate (ring : IsRing next a (pre ++ x :: post)) : IsRing next x (post ++ a :: pre) := by
  obtain ⟨first, second⟩ := links_append.mp ring.links
  refine ⟨?_, links_append.mpr ⟨second, first⟩⟩
  have perm : (a :: (pre ++ x :: post)).Perm (x :: (post ++ a :: pre)) :=
    @List.perm_append_comm _ (a :: pre) (x :: post)
  exact perm.nodup_iff.mp ring.nodup

theorem next_of_append (ring : IsRing next a (pre ++ x :: y :: post)) : next x = y :=
  (links_append.mp ring.links).2.1

theorem next_last (ring : IsRing next a (pre ++ [x])) : next x = a :=
  (links_append.mp ring.links).2

/-- Linking a new node between the head and its successor. -/
theorem insert_head (ring : IsRing next a xs) (fresh : x ∉ a :: xs) (new : next' x = next a)
    (linked : next' a = x) (same : ∀ y ∈ xs, next' y = next y) : IsRing next' a (x :: xs) := by
  refine ⟨(List.Perm.swap ..).nodup_iff.mp (List.nodup_cons.mpr ⟨fresh, ring.nodup⟩), linked, ?_⟩
  cases xs with
  | nil => exact new.trans ring.links
  | cons y ys => exact ⟨new.trans ring.links.1, ring.links.2.congr same⟩

/-- Linking a new node behind any other. -/
theorem insert_behind (ring : IsRing next a (pre ++ y :: post)) (fresh : x ∉ a :: (pre ++ y :: post))
    (new : next' x = next y) (linked : next' y = x)
    (same : ∀ z ∈ a :: (pre ++ post), next' z = next z) :
    IsRing next' a (pre ++ y :: x :: post) := by
  have rotated : IsRing next y (post ++ a :: pre) := ring.rotate
  have inserted : IsRing next' y (x :: (post ++ a :: pre)) := by
    apply rotated.insert_head ?_ new linked
    · intro z member
      apply same
      simp only [List.mem_append, List.mem_cons] at member ⊢
      tauto
    · simp only [List.mem_append, List.mem_cons] at fresh ⊢
      tauto
  rw [← List.cons_append] at inserted
  exact inserted.rotate

theorem next_mem (ring : IsRing next a xs) (member : y ∈ a :: xs) : next y ∈ a :: xs := by
  have inner : ∀ {b}, Links next a xs b → y ∈ a :: xs → next y ∈ xs ++ [b] := by
    clear ring member
    intro b links member
    induction xs generalizing a with
    | nil =>
      obtain rfl := List.mem_singleton.mp member
      exact List.mem_singleton.mpr links
    | cons x xs ih =>
      rcases List.mem_cons.mp member with rfl | later
      · exact links.1 ▸ .head _
      · exact .tail x (ih links.2 later)
  have found := inner ring.links member
  rw [List.mem_append, List.mem_singleton] at found
  exact List.mem_cons.mpr found.symm

/-- The elements of a ring are what its links lead to. -/
theorem mem_iff (ring : IsRing next a xs) : y ∈ a :: xs ↔ ∃ k, next^[k] a = y := by
  constructor
  · have inner : ∀ {b}, Links next a xs b → y ∈ a :: xs → ∃ k, next^[k] a = y := by
      intro b links member
      clear ring
      induction xs generalizing a with
      | nil => exact ⟨0, (List.mem_singleton.mp member).symm⟩
      | cons x xs ih =>
        rcases List.mem_cons.mp member with rfl | later
        · exact ⟨0, rfl⟩
        · obtain ⟨k, reached⟩ := ih links.2 later
          exact ⟨k + 1, by rw [Function.iterate_succ_apply, links.1, reached]⟩
    exact inner ring.links
  · rintro ⟨k, rfl⟩
    induction k with
    | zero => exact .head _
    | succ k ih =>
      rw [Function.iterate_succ_apply']
      exact ring.next_mem ih

/-- The same ring entered at any of its nodes. -/
theorem enter (ring : IsRing next a xs) (member : x ∈ a :: xs) :
    ∃ ys, IsRing next x ys ∧ (x :: ys).Perm (a :: xs) := by
  rcases List.mem_cons.mp member with rfl | inside
  · exact ⟨xs, ring, .refl _⟩
  · obtain ⟨pre, post, rfl⟩ := List.append_of_mem inside
    exact ⟨_, ring.rotate, @List.perm_append_comm _ (x :: post) (a :: pre)⟩

/-- Rings that share a node have the same nodes. -/
theorem mem_congr (ring : IsRing next a xs) (member : x ∈ a :: xs) (other : IsRing next x ys) :
    y ∈ x :: ys ↔ y ∈ a :: xs := by
  obtain ⟨zs, entered, perm⟩ := ring.enter member
  rw [other.mem_iff, ← entered.mem_iff, perm.mem_iff]

end IsRing

/-! ### Walks -/

/-- A walk around a ring from `origin`, which was at `current` last. The nodes of `old` were
there at the start, those of `created` were linked in since, and `visits` lists where it went. -/
structure Walk (next : α → α) (origin : α) (old created visits : List α) (current : α)
    (passed coming : List α) : Prop where
  ring : IsRing next origin (passed ++ coming)
  current : (origin :: passed).getLast (List.cons_ne_nil _ _) = current
  visited : visits.Sublist passed
  -- what the walk passed without a visit was linked in behind it
  late : ∀ y ∈ passed, y ∉ visits → y ∈ created
  kept : ∀ y ∈ old, y ∈ origin :: (passed ++ coming)
  fresh : ∀ y ∈ created, y ∉ old

namespace Walk

variable {origin current : α} {old created visits passed coming : List α}

theorem start (ring : IsRing next origin xs) :
    Walk next origin (origin :: xs) [] [] origin [] xs where
  ring := ring
  current := rfl
  visited := .slnil
  late _ member := absurd member List.not_mem_nil
  kept _ member := member
  fresh _ member := absurd member List.not_mem_nil

theorem congr (walk : Walk next origin old created visits current passed coming)
    (same : ∀ y ∈ origin :: (passed ++ coming), next' y = next y) :
    Walk next' origin old created visits current passed coming :=
  { walk with ring := walk.ring.congr same }

/-- The nodes around the current one. -/
theorem split (walk : Walk next origin old created visits current passed coming) :
    passed = [] ∧ current = origin ∨ ∃ before, passed = before ++ [current] := by
  rcases List.eq_nil_or_concat passed with rfl | ⟨before, last, rfl⟩
  · exact .inl ⟨rfl, walk.current.symm⟩
  · refine .inr ⟨before, ?_⟩
    rw [← walk.current]
    simp

theorem next_coming (walk : Walk next origin old created visits current passed (y :: ys)) :
    next current = y := by
  have ring := walk.ring
  rcases walk.split with ⟨rfl, rfl⟩ | ⟨before, rfl⟩
  · exact ring.links.1
  · rw [List.append_assoc] at ring
    exact ring.next_of_append

theorem next_origin (walk : Walk next origin old created visits current passed []) :
    next current = origin := by
  have ring := walk.ring
  rw [List.append_nil] at ring
  rcases walk.split with ⟨rfl, rfl⟩ | ⟨before, rfl⟩
  · exact ring.links
  · exact ring.next_last

/-- One visit further. -/
theorem visit (walk : Walk next origin old created visits current passed (y :: ys)) :
    Walk next origin old created (visits ++ [y]) y (passed ++ [y]) ys where
  ring := by
    rw [List.append_assoc]
    exact walk.ring
  current := by simp
  visited := walk.visited.append (.refl _)
  late z member unvisited := by
    rw [List.mem_append, not_or] at unvisited
    rcases List.mem_append.mp member with before | last
    · exact walk.late z before unvisited.1
    · exact absurd last unvisited.2
  kept z member := by
    rw [List.append_assoc]
    exact walk.kept z member
  fresh := walk.fresh

/-- The same walk on a ring with one node more. -/
theorem grow {passed' coming' : List α}
    (walk : Walk next origin old created visits current passed coming)
    (fresh : x ∉ origin :: (passed ++ coming)) (ring : IsRing next' origin (passed' ++ coming'))
    (last : (origin :: passed').getLast (List.cons_ne_nil _ _) = current)
    (sub : passed.Sublist passed') (only : ∀ z ∈ passed', z ∈ passed ∨ z = x)
    (all : (passed ++ coming).Sublist (passed' ++ coming')) :
    Walk next' origin old (x :: created) visits current passed' coming' where
  ring := ring
  current := last
  visited := walk.visited.trans sub
  late z member unvisited := by
    rcases only z member with before | rfl
    · exact .tail x (walk.late z before unvisited)
    · exact .head _
  kept z member := (all.cons_cons origin).subset (walk.kept z member)
  fresh z member := by
    rcases List.mem_cons.mp member with rfl | before
    · exact fun inOld => fresh (walk.kept z inOld)
    · exact walk.fresh z before

/-- A new node is linked in behind any node of the ring. -/
theorem insert (walk : Walk next origin old created visits current passed coming)
    (member : y ∈ origin :: (passed ++ coming)) (fresh : x ∉ origin :: (passed ++ coming))
    (new : next' x = next y) (linked : next' y = x)
    (same : ∀ z ∈ origin :: (passed ++ coming), z ≠ y → next' z = next z) :
    ∃ passed' coming', Walk next' origin old (x :: created) visits current passed' coming' := by
  have distinct := walk.ring.nodup
  rcases List.mem_cons.mp member with rfl | inside
  · have ring' := walk.ring.insert_head fresh new linked fun z there =>
      same z (.tail y there) fun here => (List.nodup_cons.mp distinct).1 (here ▸ there)
    have last := walk.current
    rcases walk.split with ⟨rfl, rfl⟩ | ⟨before, rfl⟩
    · -- behind the current node: it comes next
      refine ⟨[], x :: coming, walk.grow fresh ring' rfl (.refl _) (fun _ => .inl) ?_⟩
      exact List.sublist_cons_self x coming
    · refine ⟨x :: (before ++ [current]), coming, walk.grow fresh ring' ?_ ?_ ?_ ?_⟩
      · simp
      · exact List.sublist_cons_self x _
      · exact fun z there => (List.mem_cons.mp there).symm
      · exact List.sublist_cons_self x _
  · have others {pre post : List α} (split : passed ++ coming = pre ++ y :: post) (z : α)
        (there : z ∈ origin :: (pre ++ post)) : next' z = next z := by
      rw [split] at distinct same
      have apart : y ∉ origin :: (pre ++ post) :=
        (List.nodup_cons.mp ((@List.perm_middle _ y (origin :: pre) post).nodup_iff.mp distinct)).1
      apply same z ?_ fun here => apart (here ▸ there)
      simp only [List.mem_cons, List.mem_append] at there ⊢
      tauto
    rcases List.mem_append.mp inside with early | later
    · obtain ⟨pre, post, rfl⟩ := List.append_of_mem early
      have ring := walk.ring
      have parts : pre ++ y :: post ++ coming = pre ++ y :: (post ++ coming) := by simp
      have same' := others parts
      rw [parts] at ring fresh
      have ring' := ring.insert_behind fresh new linked same'
      rw [← parts] at fresh
      cases post with
      | nil =>
        refine ⟨pre ++ [y], x :: coming, walk.grow fresh (by simpa using ring') ?_ (.refl _)
          (fun _ => .inl) ?_⟩
        · exact walk.current
        · exact (List.Sublist.refl _).append (List.sublist_cons_self x coming)
      | cons z post =>
        have sub : (pre ++ y :: z :: post).Sublist (pre ++ y :: x :: z :: post) :=
          (List.Sublist.refl pre).append ((List.sublist_cons_self x (z :: post)).cons_cons y)
        refine ⟨pre ++ y :: x :: z :: post, coming,
          walk.grow fresh (by simpa using ring') ?_ sub ?_ (sub.append (.refl _))⟩
        · rw [← walk.current]
          simp
        · intro w there
          simp only [List.mem_append, List.mem_cons] at there ⊢
          tauto
    · obtain ⟨pre, post, rfl⟩ := List.append_of_mem later
      have ring := walk.ring
      have parts : passed ++ (pre ++ y :: post) = passed ++ pre ++ y :: post := by simp
      have same' := others parts
      rw [parts] at ring fresh
      have ring' := ring.insert_behind fresh new linked same'
      rw [← parts] at fresh
      refine ⟨passed, pre ++ y :: x :: post,
        walk.grow fresh (by simpa using ring') walk.current (.refl _) (fun _ => .inl) ?_⟩
      exact (List.Sublist.refl passed).append
        ((List.Sublist.refl pre).append ((List.sublist_cons_self x post).cons_cons y))

/-- When the walk is back where it began, every old node had one visit, and no node had two. -/
theorem complete [DecidableEq α] (walk : Walk next origin old created visits current passed [])
    (y : α) : visits.count y ≤ 1 ∧ (y ∈ old → y ≠ origin → visits.count y = 1) := by
  have distinct : passed.Nodup := by
    have all := (List.nodup_cons.mp walk.ring.nodup).2
    rwa [List.append_nil] at all
  have once := List.nodup_iff_count_le_one.mp (distinct.sublist walk.visited) y
  refine ⟨once, fun member other => ?_⟩
  have inPassed : y ∈ passed := by
    have there := walk.kept y member
    rw [List.append_nil] at there
    exact (List.mem_cons.mp there).resolve_left other
  have inVisits : y ∈ visits := by
    by_contra missed
    exact walk.fresh y (walk.late y inPassed missed) member
  exact Nat.le_antisymm once (List.count_pos_iff.mpr inVisits)

end Walk

end Ring
