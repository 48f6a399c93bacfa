import Mathlib.Data.Finset.Card
import Mathlib.Order.Bounds.Basic

/-! Pools of elements that are free or owned, of which the lowest free one is handed out. -/
namespace FramePool

variable {α : Type*} [LinearOrder α]

structure Pool (α : Type*) where
  free : Finset α
  owned : Finset α

/-- A call with its answer. -/
inductive Call (α : Type*)
  | alloc (answer : Option α)
  | release (x : α)

inductive Step : Pool α → Call α → Pool α → Prop
  | hand {p x} : IsLeast (p.free : Set α) x →
      Step p (.alloc (some x)) ⟨p.free.erase x, insert x p.owned⟩
  | exhausted {p} : p.free = ∅ → Step p (.alloc none) p
  | release {p x} : x ∈ p.owned → Step p (.release x) ⟨insert x p.free, p.owned.erase x⟩

/-- Every element is free or owned, and none is both. -/
structure Partition (all : Finset α) (p : Pool α) : Prop where
  disjoint : Disjoint p.free p.owned
  total : p.free ∪ p.owned = all

variable {all : Finset α} {p q : Pool α} {call : Call α} {x : α}

theorem Partition.free_subset (part : Partition all p) : p.free ⊆ all :=
  part.total ▸ Finset.subset_union_left

theorem Partition.owned_subset (part : Partition all p) : p.owned ⊆ all :=
  part.total ▸ Finset.subset_union_right

theorem Partition.notMem_owned (part : Partition all p) (free : x ∈ p.free) : x ∉ p.owned :=
  Finset.disjoint_left.mp part.disjoint free

theorem Partition.step (part : Partition all p) (taken : Step p call q) : Partition all q := by
  cases taken with
  | @hand x least =>
    refine ⟨?_, ?_⟩
    · rw [Finset.disjoint_insert_right]
      exact ⟨Finset.notMem_erase x _, part.disjoint.mono_left (Finset.erase_subset ..)⟩
    · rw [Finset.union_insert, ← Finset.insert_union, Finset.insert_erase least.1]
      exact part.total
  | exhausted => exact part
  | @release x member =>
    refine ⟨?_, ?_⟩
    · rw [Finset.disjoint_insert_left]
      exact ⟨Finset.notMem_erase x _, part.disjoint.mono_right (Finset.erase_subset ..)⟩
    · rw [Finset.insert_union, ← Finset.union_insert, Finset.insert_erase member]
      exact part.total

end FramePool
