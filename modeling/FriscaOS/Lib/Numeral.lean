import Mathlib.Data.Nat.Digits.Lemmas

/-! Numerals: strings of digits in a base, the most significant digit first. The base, the character
of a digit and the digit of a character are parameters. -/
namespace Numeral

variable {α : Type} (b : Nat) (char : Nat → α) (digit : α → Nat)

/-- The number a string of digits stands for. -/
def value (s : List α) : Nat := s.foldl (fun n c => b * n + digit c) 0

/-- The string of the digits of `n`, which is empty for 0. -/
def digitString (n : Nat) : List α := (Nat.digits b n).reverse.map char

/-- The numeral of `n`: one zero for 0, and the string of its digits otherwise. -/
def numeral (n : Nat) : List α := if n = 0 then [char 0] else digitString b char n

/-- The last `k` digits of `n`, with leading zeros. -/
def padded : Nat → Nat → List α
  | 0, _ => []
  | k + 1, n => padded k (n / b) ++ [char (n % b)]

variable {b} {char} {digit} {n k : Nat} {c : α}

@[simp] theorem length_padded : (padded b char k n).length = k := by
  induction k generalizing n with
  | zero => rfl
  | succ k ih => rw [padded, List.length_append, ih, List.length_singleton]

theorem mem_padded (base : 0 < b) (member : c ∈ padded b char k n) : ∃ d < b, c = char d := by
  induction k generalizing n with
  | zero => cases member
  | succ k ih =>
    rcases List.mem_append.mp member with higher | last
    · exact ih higher
    · exact ⟨n % b, Nat.mod_lt n base, List.mem_singleton.mp last⟩

theorem value_padded (base : 0 < b) (inverse : ∀ d < b, digit (char d) = d) :
    value b digit (padded b char k n) = n % b ^ k := by
  induction k generalizing n with
  | zero => rw [Nat.pow_zero, Nat.mod_one]; rfl
  | succ k ih =>
    have quotient := ih (n := n / b)
    rw [value] at quotient
    rw [padded, value, List.foldl_append, quotient, List.foldl_cons, List.foldl_nil,
      inverse _ (Nat.mod_lt n base), Nat.pow_succ', Nat.mod_mul, Nat.add_comm]

@[simp] theorem digitString_zero : digitString b char 0 = [] := by simp [digitString]

theorem digitString_eq_nil : digitString b char n = [] ↔ n = 0 := by
  simp [digitString, Nat.digits_eq_nil_iff_eq_zero]

theorem numeral_of_ne_zero (positive : n ≠ 0) : numeral b char n = digitString b char n :=
  if_neg positive

theorem numeral_ne_nil : numeral b char n ≠ [] := by
  by_cases zero : n = 0
  · simp [numeral, zero]
  · rw [numeral_of_ne_zero zero]
    exact mt digitString_eq_nil.mp zero

section

variable (base : 1 < b)

include base

/-- The last digit of a number comes behind the digits of its quotient. -/
theorem digitString_div (positive : n ≠ 0) :
    digitString b char n = digitString b char (n / b) ++ [char (n % b)] := by
  rw [digitString, Nat.digits_eq_cons_digits_div base positive, List.reverse_cons, List.map_append]
  rfl

theorem length_digitString_le : (digitString b char n).length ≤ k ↔ n < b ^ k := by
  rw [digitString, List.length_map, List.length_reverse, Nat.digits_length_le_iff base]

theorem length_numeral_le (small : n < b ^ k) (positive : 1 ≤ k) :
    (numeral b char n).length ≤ k := by
  by_cases zero : n = 0
  · simpa [numeral, zero] using positive
  · rw [numeral_of_ne_zero zero]
    exact (length_digitString_le base).mpr small

theorem mem_digitString (member : c ∈ digitString b char n) : ∃ d < b, c = char d := by
  obtain ⟨d, digit, rfl⟩ := List.mem_map.mp member
  exact ⟨d, Nat.digits_lt_base base (List.mem_reverse.mp digit), rfl⟩

theorem mem_numeral (member : c ∈ numeral b char n) : ∃ d < b, c = char d := by
  by_cases zero : n = 0
  · exact ⟨0, by omega, by simpa [numeral, zero] using member⟩
  · rw [numeral_of_ne_zero zero] at member
    exact mem_digitString base member

variable (inverse : ∀ d < b, digit (char d) = d)

include inverse

theorem value_digitString (n : Nat) : value b digit (digitString b char n) = n := by
  induction n using Nat.strong_induction_on with
  | _ n ih =>
    by_cases zero : n = 0
    · simp [zero, value]
    · have quotient := ih (n / b) (Nat.div_lt_self (Nat.pos_of_ne_zero zero) base)
      have last : digit (char (n % b)) = n % b := inverse _ (Nat.mod_lt _ (by omega))
      rw [value] at quotient
      rw [digitString_div base zero, value, List.foldl_append, quotient, List.foldl_cons,
        List.foldl_nil, last, Nat.div_add_mod]

theorem value_numeral (n : Nat) : value b digit (numeral b char n) = n := by
  by_cases zero : n = 0
  · simp [numeral, zero, value, inverse 0 (by omega)]
  · rw [numeral_of_ne_zero zero]
    exact value_digitString base inverse n

/-- Only the numeral of 0 starts with a zero. -/
theorem numeral_of_head (leading : (numeral b char n).head? = some (char 0)) :
    numeral b char n = [char 0] := by
  by_cases zero : n = 0
  · exact if_pos zero
  · have nonempty := Nat.digits_ne_nil_iff_ne_zero (b := b).mpr zero
    have first : (digitString b char n).head? =
        some (char ((Nat.digits b n).getLast nonempty)) := by
      rw [digitString, List.head?_map, List.head?_reverse, List.getLast?_eq_some_getLast nonempty]
      rfl
    rw [numeral_of_ne_zero zero, first, Option.some.injEq] at leading
    have same := congrArg digit leading
    rw [inverse _ (Nat.digits_lt_base base (List.getLast_mem nonempty)),
      inverse 0 (by omega)] at same
    exact absurd same (Nat.getLast_digit_ne_zero b zero)

end

end Numeral
