import Mathlib.Data.Finset.Card
import Mathlib.Tactic.Common

/-! Bitmaps packed 32 bits to a word, and the sets of their bits. -/
namespace Bitmap

/-- Bit `i` of a bitmap. -/
def get (bitmap : Nat → UInt32) (i : Nat) : Bool := (bitmap (i / 32)).toBitVec.getLsbD (i % 32)

def set (bitmap : Nat → UInt32) (bit : UInt32) : Nat → UInt32 := fun j =>
  if j = (bit / 32).toNat then bitmap (bit / 32).toNat ||| 1 <<< (bit % 32) else bitmap j

def clear (bitmap : Nat → UInt32) (bit : UInt32) : Nat → UInt32 := fun j =>
  if j = (bit / 32).toNat then bitmap (bit / 32).toNat &&& ~~~(1 <<< (bit % 32)) else bitmap j

/-! ### Words -/

section words

variable {w k : UInt32} {j : Nat} (hk : k.toNat < 32)

include hk

theorem mask_bit (hj : j < 32) : (1 <<< k : UInt32).toBitVec.getLsbD j = decide (j = k.toNat) := by
  have shifted : (1 <<< k : UInt32).toBitVec.getLsbD j =
      (decide (j < 32) && !decide (j < k.toNat % 32) && decide (j - k.toNat % 32 = 0)) := by
    rw [UInt32.toBitVec_shiftLeft]
    simp
  rw [shifted, Nat.mod_eq_of_lt hk]
  grind

theorem word_set (hj : j < 32) :
    (w ||| 1 <<< k).toBitVec.getLsbD j = (w.toBitVec.getLsbD j || decide (j = k.toNat)) := by
  rw [UInt32.toBitVec_or, BitVec.getLsbD_or, mask_bit hk hj]

theorem word_clear (hj : j < 32) :
    (w &&& ~~~(1 <<< k)).toBitVec.getLsbD j = (w.toBitVec.getLsbD j && !decide (j = k.toNat)) := by
  rw [UInt32.toBitVec_and, UInt32.toBitVec_not, BitVec.getLsbD_and, BitVec.getLsbD_not,
    mask_bit hk hj]
  simp [hj]

theorem word_test : w &&& 1 <<< k = 0 ↔ w.toBitVec.getLsbD k.toNat = false := by
  constructor
  · intro zero
    have bit := congrArg (fun v : UInt32 => v.toBitVec.getLsbD k.toNat) zero
    simp only [UInt32.toBitVec_and, BitVec.getLsbD_and, mask_bit hk hk] at bit
    simpa using bit
  · intro unset
    apply UInt32.toBitVec_inj.mp
    apply BitVec.eq_of_getLsbD_eq
    intro j hj
    rw [UInt32.toBitVec_and, BitVec.getLsbD_and, mask_bit hk hj]
    by_cases same : j = k.toNat
    · simp [same, unset]
    · simp [same]

end words

/-! ### Bits -/

variable {a b : Nat → UInt32} {bit : UInt32} {i n : Nat}

theorem toNat_div : (bit / 32).toNat = bit.toNat / 32 := rfl

theorem toNat_mod : (bit % 32).toNat = bit.toNat % 32 := rfl

theorem mod_lt : (bit % 32).toNat < 32 := Nat.mod_lt _ (by decide)

/-- Bits with one place in one word are the same bit. -/
theorem eq_of_parts {i j : Nat} (word : i / 32 = j / 32) (place : i % 32 = j % 32) : i = j := by
  omega

@[simp] theorem get_set : get (set a bit) i = (get a i || decide (i = bit.toNat)) := by
  by_cases word : i / 32 = bit.toNat / 32
  · have place : i % 32 = bit.toNat % 32 ↔ i = bit.toNat := ⟨eq_of_parts word, fun h => by rw [h]⟩
    simp only [get, set, toNat_div, word, ↓reduceIte]
    rw [word_set mod_lt (Nat.mod_lt _ (by decide)), toNat_mod, decide_eq_decide.mpr place]
  · have other : i ≠ bit.toNat := fun same => word (by rw [same])
    simp [get, set, word, other]

@[simp] theorem get_clear : get (clear a bit) i = (get a i && !decide (i = bit.toNat)) := by
  by_cases word : i / 32 = bit.toNat / 32
  · have place : i % 32 = bit.toNat % 32 ↔ i = bit.toNat := ⟨eq_of_parts word, fun h => by rw [h]⟩
    simp only [get, clear, toNat_div, word, ↓reduceIte]
    rw [word_clear mod_lt (Nat.mod_lt _ (by decide)), toNat_mod, decide_eq_decide.mpr place]
  · have other : i ≠ bit.toNat := fun same => word (by rw [same])
    simp [get, clear, word, other]

/-- Masking the word of a bit yields zero exactly when the bit is not set. -/
theorem test_eq_zero : a (bit / 32).toNat &&& 1 <<< (bit % 32) = 0 ↔ get a bit.toNat = false :=
  word_test mod_lt

/-- A bitmap is determined by its bits. -/
theorem ext (same : ∀ i, get a i = get b i) : a = b := by
  funext word
  apply UInt32.toBitVec_inj.mp
  apply BitVec.eq_of_getLsbD_eq
  intro j hj
  have bit := same (32 * word + j)
  have quotient : (32 * word + j) / 32 = word := by omega
  have rest : (32 * word + j) % 32 = j := by omega
  rwa [get, get, quotient, rest] at bit

/-- Setting a bit that was not set is undone by clearing it. -/
theorem clear_set (unset : get a bit.toNat = false) : clear (set a bit) bit = a := by
  apply ext
  intro i
  by_cases same : i = bit.toNat
  · simp [same, unset]
  · simp [same]

/-! ### Sets of bits -/

/-- The set bits below `n`. -/
def used (a : Nat → UInt32) (n : Nat) : Finset Nat := (Finset.range n).filter fun i => get a i

@[simp] theorem mem_used : i ∈ used a n ↔ i < n ∧ get a i = true := by simp [used]

theorem card_used_le : (used a n).card ≤ n :=
  (Finset.card_filter_le ..).trans_eq (Finset.card_range n)

theorem used_set (below : bit.toNat < n) : used (set a bit) n = insert bit.toNat (used a n) := by
  ext i
  simp only [mem_used, get_set, Bool.or_eq_true, decide_eq_true_eq, Finset.mem_insert]
  constructor
  · rintro ⟨bound, old | new⟩
    · exact .inr ⟨bound, old⟩
    · exact .inl new
  · rintro (rfl | ⟨bound, old⟩)
    · exact ⟨below, .inr rfl⟩
    · exact ⟨bound, .inl old⟩

theorem used_clear : used (clear a bit) n = (used a n).erase bit.toNat := by
  ext i
  simp only [mem_used, get_clear, Bool.and_eq_true, Bool.not_eq_true', decide_eq_false_iff_not,
    Finset.mem_erase]
  tauto

theorem card_used_set (below : bit.toNat < n) (unset : get a bit.toNat = false) :
    (used (set a bit) n).card = (used a n).card + 1 := by
  rw [used_set below, Finset.card_insert_of_notMem (by simp [unset])]

theorem card_used_clear (below : bit.toNat < n) (isSet : get a bit.toNat = true) :
    (used (clear a bit) n).card + 1 = (used a n).card := by
  rw [used_clear, Finset.card_erase_add_one (mem_used.mpr ⟨below, isSet⟩)]

/-- Below `n` every bit is set exactly when `n` of them are. -/
theorem card_used_eq : (used a n).card = n ↔ ∀ i < n, get a i = true := by
  have all : (used a n).card = (Finset.range n).card ↔ used a n = Finset.range n :=
    ⟨Finset.eq_of_subset_of_card_le (Finset.filter_subset ..) ∘ Nat.le_of_eq ∘ Eq.symm,
      congrArg Finset.card⟩
  rw [Finset.card_range] at all
  rw [all, used, Finset.filter_eq_self]
  simp

end Bitmap
