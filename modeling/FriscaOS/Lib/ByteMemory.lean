import Mathlib.Data.Set.Basic
import Mathlib.Data.Nat.Bitwise

/-! Byte-addressed memory with little-endian 32-bit words, and the frame rules of its stores. -/
namespace ByteMemory

/-- A memory assigns a byte to every address. -/
abbrev Mem := Nat → UInt8

namespace Mem

def write8 (m : Mem) (a : Nat) (b : UInt8) : Mem := fun x => if x = a then b else m x

/-- The four bytes at `a`, lowest byte first. -/
def read32 (m : Mem) (a : Nat) : UInt32 :=
  UInt32.ofNat ((m a).toNat + 256 * (m (a + 1)).toNat + 65536 * (m (a + 2)).toNat +
    16777216 * (m (a + 3)).toNat)

def write32 (m : Mem) (a : Nat) (v : UInt32) : Mem := fun x =>
  if a ≤ x ∧ x < a + 4 then UInt8.ofNat (v.toNat / 256 ^ (x - a)) else m x

theorem write8_same (m : Mem) (a : Nat) (b : UInt8) : m.write8 a b a = b := by simp [write8]

theorem write8_other (m : Mem) {a x : Nat} (b : UInt8) (apart : x ≠ a) :
    m.write8 a b x = m x := by simp [write8, apart]

theorem write32_other (m : Mem) {a x : Nat} (v : UInt32) (apart : x < a ∨ a + 4 ≤ x) :
    m.write32 a v x = m x := by
  have outside : ¬(a ≤ x ∧ x < a + 4) := by omega
  simp only [write32, if_neg outside]

/-- A word is read back from the bytes it was stored to. -/
@[simp] theorem read32_write32 (m : Mem) (a : Nat) (v : UInt32) :
    (m.write32 a v).read32 a = v := by
  apply UInt32.toNat_inj.mp
  have bound := v.toNat_lt
  simp [read32, write32]
  omega

/-- A word depends on its four bytes only. -/
theorem read32_congr {m n : Mem} {a : Nat} (same : ∀ x, a ≤ x → x < a + 4 → m x = n x) :
    m.read32 a = n.read32 a := by
  simp only [read32, same a (by omega) (by omega), same (a + 1) (by omega) (by omega),
    same (a + 2) (by omega) (by omega), same (a + 3) (by omega) (by omega)]

/-- Words determine their bytes. -/
theorem read32_inj {m n : Mem} {a : Nat} (same : m.read32 a = n.read32 a) {x : Nat}
    (lower : a ≤ x) (upper : x < a + 4) : m x = n x := by
  have bounds (k : Mem) : (k a).toNat < 256 ∧ (k (a + 1)).toNat < 256 ∧
      (k (a + 2)).toNat < 256 ∧ (k (a + 3)).toNat < 256 :=
    ⟨(k a).toNat_lt, (k (a + 1)).toNat_lt, (k (a + 2)).toNat_lt, (k (a + 3)).toNat_lt⟩
  have value (k : Mem) : (k.read32 a).toNat = (k a).toNat + 256 * (k (a + 1)).toNat +
      65536 * (k (a + 2)).toNat + 16777216 * (k (a + 3)).toNat := by
    have bytes := bounds k
    exact UInt32.toNat_ofNat_of_lt' (by simp only [UInt32.size]; omega)
  have words := congrArg UInt32.toNat same
  have bytes := bounds m
  have bytes' := bounds n
  rw [value, value] at words
  obtain ⟨i, inside, rfl⟩ : ∃ i < 4, x = a + i := ⟨x - a, by omega, by omega⟩
  apply UInt8.toNat_inj.mp
  obtain rfl | rfl | rfl | rfl : i = 0 ∨ i = 1 ∨ i = 2 ∨ i = 3 := by omega
  · rw [Nat.add_zero]
    omega
  all_goals omega

/-- Storing the word that is there changes nothing. -/
theorem write32_same {m : Mem} {a : Nat} {v : UInt32} (same : m.read32 a = v) :
    m.write32 a v = m := by
  funext x
  by_cases inside : a ≤ x ∧ x < a + 4
  · exact read32_inj ((m.read32_write32 a v).trans same.symm) inside.1 inside.2
  · exact m.write32_other v (by omega)

theorem read32_write32_apart (m : Mem) {a b : Nat} (v : UInt32)
    (apart : b + 4 ≤ a ∨ a + 4 ≤ b) : (m.write32 a v).read32 b = m.read32 b :=
  read32_congr fun _ _ _ => m.write32_other v (by omega)

end Mem

/-- `n` differs from `m` inside `region` only. -/
def Within (region : Set Nat) (m n : Mem) : Prop := ∀ x, x ∉ region → n x = m x

namespace Within

variable {r s : Set Nat} {m n k : Mem}

theorem refl (r : Set Nat) (m : Mem) : Within r m m := fun _ _ => rfl

theorem trans (first : Within r m n) (second : Within r n k) : Within r m k :=
  fun x outside => (second x outside).trans (first x outside)

theorem mono (change : Within r m n) (sub : r ⊆ s) : Within s m n :=
  fun x outside => change x fun inside => outside (sub inside)

theorem write8 {a : Nat} (b : UInt8) (inside : a ∈ r) : Within r m (m.write8 a b) := by
  intro x outside
  exact m.write8_other b fun same => outside (same ▸ inside)

theorem write32 {a : Nat} (v : UInt32) (inside : ∀ x, a ≤ x → x < a + 4 → x ∈ r) :
    Within r m (m.write32 a v) := by
  intro x outside
  apply m.write32_other
  by_contra within
  exact outside (inside x (by omega) (by omega))

/-- A word outside the changed region is read as before. -/
theorem read32 {a : Nat} (change : Within r m n)
    (apart : ∀ x, a ≤ x → x < a + 4 → x ∉ r) : n.read32 a = m.read32 a :=
  Mem.read32_congr fun x lower upper => change x (apart x lower upper)

end Within

/-! ### Runs of bytes -/

/-- The `n` bytes from `a` upwards. -/
def Mem.bytes (m : Mem) (a n : Nat) : List UInt8 := (List.range n).map fun i => m (a + i)

@[simp] theorem Mem.length_bytes (m : Mem) (a n : Nat) : (m.bytes a n).length = n := by
  simp [bytes]

theorem Mem.bytes_congr {m n : Mem} {a k : Nat}
    (same : ∀ x, a ≤ x → x < a + k → n x = m x) : n.bytes a k = m.bytes a k := by
  apply List.map_congr_left
  intro i member
  have bound := List.mem_range.mp member
  exact same (a + i) (by omega) (by omega)

theorem Mem.bytes_add (m : Mem) (a j k : Nat) :
    m.bytes a (j + k) = m.bytes a j ++ m.bytes (a + j) k := by
  simp only [bytes, List.range_add, List.map_append, List.map_map]
  congr 1
  apply List.map_congr_left
  intro i _
  simp only [Function.comp_apply, Nat.add_assoc]

theorem Mem.bytes_one (m : Mem) (a : Nat) : m.bytes a 1 = [m a] := rfl

theorem Mem.bytes_append (m : Mem) (a : Nat) {x y : List UInt8} :
    m.bytes a (x ++ y).length = x ++ y ↔
      m.bytes a x.length = x ∧ m.bytes (a + x.length) y.length = y := by
  rw [List.length_append, bytes_add]
  constructor
  · exact fun same => List.append_inj same (length_bytes ..)
  · rintro ⟨left, right⟩
    rw [left, right]

/-- Two ranges of addresses without a common one lie one before the other. -/
theorem ranges_apart {a b c d : Nat} (left : a < b) (right : c < d)
    (disjoint : ∀ x, a ≤ x → x < b → ¬(c ≤ x ∧ x < d)) : b ≤ c ∨ d ≤ a := by
  by_contra overlap
  exact disjoint (max a c) (by omega) (by omega) (by omega)

/-! ### Runs of words -/

/-- The words from `a` upwards are `ws`. -/
def Words (m : Mem) : Nat → List UInt32 → Prop
  | _, [] => True
  | a, w :: ws => m.read32 a = w ∧ Words m (a + 4) ws

/-- Store words downwards from `top`, the first one highest, and return the last address. -/
def storeDown : Mem → UInt32 → List UInt32 → Mem × UInt32
  | m, top, [] => (m, top)
  | m, top, w :: ws => storeDown (m.write32 (top - 4).toNat w) (top - 4) ws

section words

variable {m n : Mem} {a : Nat} {us ws : List UInt32} {top : UInt32}

theorem Words.congr (words : Words m a ws)
    (same : ∀ x, a ≤ x → x < a + 4 * ws.length → n x = m x) : Words n a ws := by
  induction ws generalizing a with
  | nil => trivial
  | cons w ws ih =>
    rw [List.length_cons] at same
    refine ⟨?_, ih words.2 fun x lower upper => same x (by omega) (by omega)⟩
    rw [← words.1]
    exact Mem.read32_congr fun x lower upper => same x lower (by omega)

theorem words_append : Words m a (us ++ ws) ↔ Words m a us ∧ Words m (a + 4 * us.length) ws := by
  induction us generalizing a with
  | nil => simp [Words]
  | cons u us ih =>
    have shift : a + 4 + 4 * us.length = a + 4 * (us.length + 1) := by omega
    simp only [List.cons_append, Words, ih, List.length_cons, shift, and_assoc]

theorem Words.get (words : Words m a ws) {i : Nat} {w : UInt32} (at_ : ws[i]? = some w) :
    m.read32 (a + 4 * i) = w := by
  induction ws generalizing a i with
  | nil => simp at at_
  | cons v ws ih =>
    cases i with
    | zero => simpa [← words.1] using at_
    | succ i =>
      have shift : a + 4 * (i + 1) = a + 4 + 4 * i := by omega
      rw [shift]
      exact ih words.2 at_

end words

/-! ### Word arithmetic that does not wrap -/

theorem toNat_add_of_lt {a b : UInt32} (bound : a.toNat + b.toNat < 2 ^ 32) :
    (a + b).toNat = a.toNat + b.toNat := by
  rw [UInt32.toNat_add, Nat.mod_eq_of_lt bound]

theorem toNat_sub_of_le {a b : UInt32} (le : b.toNat ≤ a.toNat) :
    (a - b).toNat = a.toNat - b.toNat :=
  UInt32.toNat_sub_of_le a b (UInt32.le_iff_toNat_le.mpr le)

/-- Clearing the `k` low bits of a word rounds down to a multiple of `2 ^ k`. -/
theorem and_highBits {x k : Nat} (bound : x < 2 ^ 32) :
    x &&& (2 ^ (32 - k) - 1) <<< k = x / 2 ^ k * 2 ^ k := by
  have shifted : x / 2 ^ k * 2 ^ k = x >>> k <<< k := by
    rw [Nat.shiftLeft_eq, Nat.shiftRight_eq_div_pow]
  rw [shifted]
  -- bit by bit: the mask has the bits `k` to 31, and so has the shifted number
  apply Nat.eq_of_testBit_eq
  intro i
  rw [Nat.testBit_and, Nat.testBit_shiftLeft, Nat.testBit_shiftLeft, Nat.testBit_two_pow_sub_one,
    Nat.testBit_shiftRight]
  by_cases low : k ≤ i
  · by_cases high : i < 32
    · simp [low, show i - k < 32 - k by omega]
    · have large : x < 2 ^ i := Nat.lt_of_lt_of_le bound (Nat.pow_le_pow_right (by omega) (by omega))
      simp [low, Nat.testBit_lt_two_pow large]
  · simp [low]

/-! ### Words stored downwards -/

section storeDown

variable {m : Mem} {ws : List UInt32} {top : UInt32}

private theorem toNat_sub_four (room : 4 ≤ top.toNat) : (top - 4).toNat = top.toNat - 4 :=
  toNat_sub_of_le room

theorem storeDown_address (room : 4 * ws.length ≤ top.toNat) :
    (storeDown m top ws).2.toNat = top.toNat - 4 * ws.length := by
  induction ws generalizing m top with
  | nil => rfl
  | cons w ws ih =>
    rw [List.length_cons] at room
    have below : (top - 4).toNat = top.toNat - 4 := toNat_sub_four (by omega)
    rw [storeDown, ih (by omega), below, List.length_cons]
    omega

theorem storeDown_within (room : 4 * ws.length ≤ top.toNat) :
    Within {x | top.toNat - 4 * ws.length ≤ x ∧ x < top.toNat} m (storeDown m top ws).1 := by
  induction ws generalizing m top with
  | nil => exact .refl _ m
  | cons w ws ih =>
    rw [List.length_cons] at room ⊢
    have below : (top - 4).toNat = top.toNat - 4 := toNat_sub_four (by omega)
    refine (Within.write32 w fun x lower upper => ?_).trans ((ih (by omega)).mono ?_)
    · simp only [Set.mem_ofPred_eq]
      omega
    · rintro x ⟨lower, upper⟩
      simp only [Set.mem_ofPred_eq]
      omega

/-- Storing words that are already there changes nothing. -/
theorem storeDown_same (room : 4 * ws.length ≤ top.toNat)
    (words : Words m (top.toNat - 4 * ws.length) ws.reverse) : (storeDown m top ws).1 = m := by
  induction ws generalizing top with
  | nil => rfl
  | cons w ws ih =>
    rw [List.length_cons] at room words
    have below : (top - 4).toNat = top.toNat - 4 := toNat_sub_four (by omega)
    have start : (top - 4).toNat - 4 * ws.length = top.toNat - 4 * (ws.length + 1) := by omega
    have place : top.toNat - 4 * (ws.length + 1) + 4 * ws.length = (top - 4).toNat := by omega
    rw [List.reverse_cons, words_append, List.length_reverse, place, ← start] at words
    rw [storeDown, Mem.write32_same words.2.1]
    exact ih (by omega) words.1

/-- The words are found from the last address on, in the opposite order. -/
theorem storeDown_words (room : 4 * ws.length ≤ top.toNat) :
    Words (storeDown m top ws).1 (top.toNat - 4 * ws.length) ws.reverse := by
  induction ws generalizing m top with
  | nil => trivial
  | cons w ws ih =>
    rw [List.length_cons] at room ⊢
    have below : (top - 4).toNat = top.toNat - 4 := toNat_sub_four (by omega)
    have rest : 4 * ws.length ≤ (top - 4).toNat := by omega
    have start : (top - 4).toNat - 4 * ws.length = top.toNat - 4 * (ws.length + 1) := by omega
    have place : top.toNat - 4 * (ws.length + 1) + 4 * ws.length = (top - 4).toNat := by omega
    rw [List.reverse_cons, words_append, List.length_reverse, place, ← start]
    refine ⟨ih rest, ?_, trivial⟩
    -- the later words lie below the first one
    rw [storeDown, (storeDown_within rest).read32, Mem.read32_write32]
    rintro x lower upper ⟨_, beneath⟩
    omega

end storeDown

end ByteMemory
