import Mathlib.Data.List.AList

/-! Finite maps with a bounded number of entries, which are never replaced or removed. -/

/-- A finite map of at most `limit` entries. -/
structure BoundedMap (κ ν : Type*) (limit : Nat) extends AList fun _ : κ => ν where
  bounded : entries.length ≤ limit

namespace BoundedMap

variable {κ ν : Type*} {limit : Nat}

def empty : BoundedMap κ ν limit := ⟨∅, Nat.zero_le limit⟩

def size (M : BoundedMap κ ν limit) : Nat := M.entries.length

/-- No entry can be added. -/
def Full (M : BoundedMap κ ν limit) : Prop := M.size = limit

theorem not_full_iff {M : BoundedMap κ ν limit} : ¬M.Full ↔ M.size < limit := by
  have bounded : M.size ≤ limit := M.bounded
  rw [Full]
  omega

variable [DecidableEq κ]

/-- Add an entry for a new key. -/
def add (M : BoundedMap κ ν limit) (key : κ) (value : ν) (room : ¬M.Full)
    (fresh : key ∉ M.toAList) : BoundedMap κ ν limit where
  toAList := M.toAList.insert key value
  bounded := by
    rw [AList.entries_insert_of_notMem fresh, List.length_cons]
    exact not_full_iff.mp room

section add

variable {M : BoundedMap κ ν limit} {key key' : κ} {value value' : ν} (room : ¬M.Full)
  (fresh : key ∉ M.toAList)

@[simp] theorem size_add : (M.add key value room fresh).size = M.size + 1 := by
  simp only [size, add, AList.entries_insert_of_notMem fresh, List.length_cons]

/-- The map has the new entry and those it had. -/
theorem lookup_add : (M.add key value room fresh).lookup key' = some value' ↔
    key' = key ∧ value' = value ∨ M.lookup key' = some value' := by
  simp only [add]
  by_cases same : key' = key
  · subst same
    rw [AList.lookup_insert, AList.lookup_eq_none.mpr fresh]
    simp [eq_comm]
  · rw [AList.lookup_insert_ne same]
    simp [same]

end add

/-- What a request to add an entry comes to. -/
inductive Answer
  | full
  | duplicate
  | refused
  | added
  deriving DecidableEq, Repr

/-- A request for an entry, its answer, and the map afterwards. The store behind the map may
refuse an entry that the map itself has room for. -/
inductive Request (M : BoundedMap κ ν limit) (key : κ) (value : ν) :
    Answer → BoundedMap κ ν limit → Prop
  | full : M.Full → Request M key value .full M
  | duplicate : ¬M.Full → key ∈ M.toAList → Request M key value .duplicate M
  | refused : ¬M.Full → key ∉ M.toAList → Request M key value .refused M
  | added (room : ¬M.Full) (fresh : key ∉ M.toAList) :
      Request M key value .added (M.add key value room fresh)

end BoundedMap
