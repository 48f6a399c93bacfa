import FriscaOS.Lib.FreeList
import Mathlib.Algebra.GroupWithZero.Nat
import Mathlib.Data.List.SplitBy

/-! Coalescing as a merge: it puts one block in place of each maximal run of free blocks. -/
namespace FreeList

variable {hdr : Nat} {a b c : Block} {bs run : List Block}

/-- The maximal runs of free blocks, with each allocated block by itself. -/
def runs (bs : List Block) : List (List Block) := bs.splitBy fun a b => a.free && b.free

/-- The list cut into its allocated blocks and maximal runs of free ones. -/
structure MaximalRuns (bs : List Block) (rs : List (List Block)) : Prop where
  whole : rs.flatten = bs
  run : ∀ run ∈ rs, (∃ b, run = [b] ∧ b.free = false) ∨ run ≠ [] ∧ ∀ b ∈ run, b.free = true
  maximal : rs.IsChain fun r s => ¬((∀ b ∈ r, b.free = true) ∧ ∀ b ∈ s, b.free = true)

/-- One block in place of a run: it starts where the run does, and covers the headers in it except
its own. -/
def merged (hdr : Nat) (run : List Block) : Option Block :=
  run.head?.map fun a => { a with size := (run.map Block.size).sum + hdr * (run.length - 1) }

theorem merged_singleton (hdr : Nat) (a : Block) : merged hdr [a] = some a := by simp [merged]

theorem ne_nil_of_merged (block : merged hdr run = some c) : run ≠ [] := by
  rintro rfl
  cases block

/-- The next block of a run is absorbed. -/
theorem merged_concat (block : merged hdr run = some c) (b : Block) :
    merged hdr (run ++ [b]) = some (absorb hdr c b) := by
  cases run with
  | nil => cases block
  | cons a rest =>
    obtain rfl := Option.some.inj block
    simp only [merged, absorb, List.cons_append, List.head?_cons, Option.map_some, List.map_cons,
      List.map_append, List.map_nil, List.sum_cons, List.sum_append, List.sum_nil, Nat.add_zero,
      List.length_cons, List.length_append, List.length_nil, Nat.zero_add, Nat.add_sub_cancel,
      Nat.mul_succ]
    congr 2
    omega

/-- Coalescing from the block of a run goes on with that run. -/
private theorem coalesceFrom_run (chain : run.IsChain fun a b => (a.free && b.free) = true)
    (block : merged hdr run = some c) (same : ∀ b ∈ run, b.free = c.free) :
    coalesceFrom hdr c bs = (runs (run ++ bs)).filterMap (merged hdr) := by
  induction bs generalizing run c with
  | nil =>
    rw [List.append_nil, runs, List.splitBy_of_isChain (ne_nil_of_merged block) chain]
    simp [coalesceFrom, block]
  | cons b bs ih =>
    by_cases both : c.free = true ∧ b.free = true
    · -- `b` is the next block of the run
      rw [coalesceFrom, if_pos both, List.append_cons]
      refine ih ?_ (merged_concat block b) fun x member => ?_
      · refine List.isChain_append.mpr ⟨chain, .singleton b, fun x last y head => ?_⟩
        have free := same x (List.mem_of_mem_getLast? last)
        obtain rfl : b = y := by simpa using head
        simp [free, both]
      · rcases List.mem_append.mp member with old | new
        · exact same x old
        · obtain rfl := List.mem_singleton.mp new
          exact both.2.trans both.1.symm
    · -- `b` begins the next run
      have apart : ∀ x ∈ run.getLast?, (x.free && b.free) = false := by
        intro x last
        have free := same x (List.mem_of_mem_getLast? last)
        simpa [free] using both
      have single : [b].IsChain fun a b => (a.free && b.free) = true := .singleton b
      have rest := ih single (merged_singleton hdr b) (by simp)
      rw [coalesceFrom, if_neg both, runs, List.splitBy_append_cons _ apart,
        List.splitBy_of_isChain (ne_nil_of_merged block) chain, List.filterMap_append, rest]
      simp [block, runs]

/-- Coalescing puts one block in place of every run. -/
theorem coalesce_eq_runs (hdr : Nat) (bs : List Block) :
    coalesce hdr bs = (runs bs).filterMap (merged hdr) := by
  cases bs with
  | nil => rfl
  | cons a bs => exact coalesceFrom_run (.singleton a) (merged_singleton hdr a) (by simp)

/-- Of a run of two or more blocks all are free. -/
private theorem free_of_chain
    (chain : (a :: b :: bs).IsChain fun a b => (a.free && b.free) = true) :
    ∀ x ∈ a :: b :: bs, x.free = true := by
  induction bs generalizing a b with
  | nil =>
    obtain ⟨both, -⟩ := List.isChain_cons_cons.mp chain
    simpa using both
  | cons c bs ih =>
    obtain ⟨both, rest⟩ := List.isChain_cons_cons.mp chain
    rw [Bool.and_eq_true] at both
    exact List.forall_mem_cons.mpr ⟨both.1, ih rest⟩

theorem maximalRuns (bs : List Block) : MaximalRuns bs (runs bs) where
  whole := List.flatten_splitBy _ bs
  run run member := by
    have chain := List.isChain_of_mem_splitBy member
    have nonempty := List.ne_nil_of_mem_splitBy member
    rcases run with _ | ⟨a, _ | ⟨b, rest⟩⟩
    · exact absurd rfl nonempty
    · cases free : a.free with
      | false => exact .inl ⟨a, rfl, free⟩
      | true => exact .inr ⟨nonempty, by simpa using free⟩
    · exact .inr ⟨nonempty, free_of_chain chain⟩
  maximal := by
    apply (List.isChain_getLast_head_splitBy _ bs).imp
    rintro r s ⟨some_, some_', apart⟩ ⟨left, right⟩
    rw [left _ (List.getLast_mem some_), right _ (List.head_mem some_')] at apart
    cases apart

end FreeList
