import Mathlib.Data.List.Induction
import Mathlib.Logic.Relation

/-! Runs of a labelled step relation, their invariants, and simulations between two of them. -/
namespace Transition

variable {σ τ α : Type*}

/-- A finite run of `step`, with the labels of its steps in order. -/
inductive Run (step : σ → α → σ → Prop) : σ → List α → σ → Prop
  | nil (s) : Run step s [] s
  | cons {s t u a as} : step s a t → Run step t as u → Run step s (a :: as) u

/-- The step relation restricted to steps that meet a condition on the state before. -/
def Guarded (step : σ → α → σ → Prop) (allowed : σ → α → Prop) : σ → α → σ → Prop :=
  fun s a t => allowed s a ∧ step s a t

variable {step : σ → α → σ → Prop} {allowed : σ → α → Prop} {s t u : σ} {a : α} {as bs : List α}

theorem Run.single (taken : step s a t) : Run step s [a] t := .cons taken (.nil t)

/-- The state that a sequence of steps of an executable system leads to is reached by a run. -/
theorem Run.of_foldlM {step : σ → α → Option σ} (ends : as.foldlM step s = some t) :
    Run (fun s a t => step s a = some t) s as t := by
  induction as generalizing s with
  | nil =>
    obtain rfl : s = t := Option.some.inj ends
    exact .nil s
  | cons a as ih =>
    rw [List.foldlM_cons] at ends
    obtain ⟨next, taken, rest⟩ := Option.bind_eq_some_iff.mp ends
    exact .cons taken (ih rest)

theorem Run.append (first : Run step s as t) (second : Run step t bs u) :
    Run step s (as ++ bs) u := by
  induction first with
  | nil => exact second
  | cons taken _ ih => exact .cons taken (ih second)

/-- The invariant rule: what every step preserves, every run preserves. -/
theorem Run.invariant (inv : σ → Prop)
    (preserved : ∀ s a t, inv s → step s a t → inv t)
    (run : Run step s as t) (initial : inv s) : inv t := by
  induction run with
  | nil => exact initial
  | cons taken _ ih => exact ih (preserved _ _ _ initial taken)

/-- Forgetting the condition of a guarded run. -/
theorem Run.unguard (run : Run (Guarded step allowed) s as t) : Run step s as t := by
  induction run with
  | nil => exact .nil _
  | cons taken _ ih => exact .cons taken.2 ih

/-- The simulation rule: where each step is matched from every related state by a step of the
other system with the same label, a run is matched by a run with the same labels. -/
theorem Run.simulate {step' : τ → α → τ → Prop} (related : σ → τ → Prop)
    (simulates : ∀ s a t x, related s x → step s a t → ∃ y, step' x a y ∧ related t y)
    (run : Run step s as t) {x : τ} (initial : related s x) :
    ∃ y, Run step' x as y ∧ related t y := by
  induction run generalizing x with
  | nil => exact ⟨x, .nil x, initial⟩
  | cons taken _ ih =>
    obtain ⟨y, matched, next⟩ := simulates _ _ _ _ initial taken
    obtain ⟨z, rest, final⟩ := ih next
    exact ⟨z, .cons matched rest, final⟩

/-- Where a property survives a step exactly on a condition, it holds throughout a run exactly if
every step meets the condition. -/
theorem forall_prefix_iff {P : List α → Prop} {Q : List α → α → Prop} (initial : P [])
    (step : ∀ before a, before ++ [a] <+: as → P before → (P (before ++ [a]) ↔ Q before a)) :
    (∀ before, before <+: as → P before) ↔ ∀ before a, before ++ [a] <+: as → Q before a := by
  constructor
  · intro holds before a first
    have here := holds before ((List.prefix_append _ _).trans first)
    exact (step before a first here).mp (holds _ first)
  · intro meets before first
    induction before using List.reverseRecOn with
    | nil => exact initial
    | append_singleton before a ih =>
      have here := ih ((List.prefix_append _ _).trans first)
      exact (step before a first here).mpr (meets before a first)

end Transition
