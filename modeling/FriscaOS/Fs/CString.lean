import FriscaOS.Lib.ByteMemory

/-! The functions of `string.c` that the file system and the shell use. A pointer to characters is
the list of the bytes that may be read from it; a function yields `none` when it reads beyond
them. -/
namespace FriscaOS

open ByteMemory

def strlenLoop : List UInt8 → UInt32 → Option UInt32
  | [], _ => none
  | b :: str, len => if b ≠ 0 then strlenLoop str (len + 1) else some len

def strlen (str : List UInt8) : Option UInt32 := strlenLoop str 0

def strcmp : List UInt8 → List UInt8 → Option Int
  | a :: s1, b :: s2 => if a ≠ 0 ∧ a = b then strcmp s1 s2 else some (a.toNat - b.toNat)
  | _, _ => none

/-- `strncmp`, which stops after `n` characters at the latest. -/
def strncmp : List UInt8 → List UInt8 → Nat → Option Int
  | _, _, 0 => some 0
  | a :: s1, b :: s2, n + 1 =>
    if a ≠ 0 ∧ a = b then strncmp s1 s2 n else some (a.toNat - b.toNat)
  | _, _, _ + 1 => none

/-- `strchr`, as the offset of the character it points to. -/
def strchr : List UInt8 → UInt8 → Option (Option Nat)
  | [], _ => none
  | b :: str, ch =>
    if b ≠ ch then if b = 0 then some none else (strchr str ch).map (Option.map (· + 1))
    else some (some 0)

/-- `memcpy`, with the bytes at the source pointer. -/
def memcpy : Mem → Nat → List UInt8 → Nat → Option Mem
  | m, _, _, 0 => some m
  | _, _, [], _ + 1 => none
  | m, dst, b :: src, size + 1 => memcpy (m.write8 dst b) (dst + 1) src size

/-- A NUL-terminated string. It lies in the 32-bit address space beside a heap header, of which
at least four bytes are no characters of any string. -/
structure CString where
  chars : List UInt8
  noNul : 0 ∉ chars
  fits : chars.length + 4 < 2 ^ 32

/-- The characters and the terminator. -/
def CString.bytes (s : CString) : List UInt8 := s.chars ++ [0]

variable {s t x y : List UInt8}

theorem strlenLoop_append (noNul : 0 ∉ s) (len : UInt32) :
    strlenLoop (s ++ 0 :: x) len = some (len + .ofNat s.length) := by
  induction s generalizing len with
  | nil => simp [strlenLoop]
  | cons b s ih =>
    obtain ⟨first, rest⟩ := List.ne_and_not_mem_of_not_mem_cons noNul
    rw [List.cons_append, strlenLoop, if_pos first.symm, ih rest, List.length_cons,
      UInt32.add_assoc, UInt32.add_comm 1, UInt32.ofNat_add]
    rfl

theorem strlen_bytes (s : CString) :
    ∃ len, strlen s.bytes = some len ∧ len.toNat = s.chars.length := by
  refine ⟨_, strlenLoop_append s.noNul 0, ?_⟩
  have fits := s.fits
  simp only [UInt32.zero_add]
  exact UInt32.toNat_ofNat_of_lt' (by simp only [UInt32.size]; omega)

/-! ### Comparison -/

/-- The sign of `d` is the lexicographic order of the strings, as unsigned bytes. -/
structure Compares (d : Int) (s t : List UInt8) : Prop where
  less : d < 0 ↔ List.Lex (· < ·) s t
  equal : d = 0 ↔ s = t
  greater : 0 < d ↔ List.Lex (· < ·) t s

variable {a b : UInt8} {d e : Int} {n k : Nat}

theorem Compares.swap (order : Compares d s t) : Compares (-d) t s where
  less := Int.neg_neg_iff_pos.trans order.greater
  equal := Int.neg_eq_zero.trans (order.equal.trans eq_comm)
  greater := Int.neg_pos.trans order.less

theorem Compares.cons (order : Compares d s t) (a : UInt8) : Compares d (a :: s) (a :: t) := by
  have irrefl : ¬a < a := UInt8.lt_irrefl a
  constructor
  · simp [order.less, List.cons_lex_cons_iff, irrefl]
  · simp [order.equal]
  · simp [order.greater, List.cons_lex_cons_iff, irrefl]

/-- Strings that differ in their first characters. -/
theorem compares_first (other : a ≠ b) : Compares (a.toNat - b.toNat) (a :: s) (b :: t) := by
  have different : a.toNat ≠ b.toNat := fun same => other (UInt8.toNat_inj.mp same)
  constructor
  · simp only [List.cons_lex_cons_iff, other, false_and, or_false, UInt8.lt_iff_toNat_lt]
    omega
  · simp only [List.cons.injEq, other, false_and, iff_false]
    omega
  · simp only [List.cons_lex_cons_iff, other.symm, false_and, or_false, UInt8.lt_iff_toNat_lt]
    omega

/-- The end of a string comes before any character. -/
theorem compares_end (nonzero : b ≠ 0) :
    Compares ((0 : UInt8).toNat - b.toNat) [] (b :: t) := by
  have positive : b.toNat ≠ (0 : UInt8).toNat := fun zero => nonzero (UInt8.toNat_inj.mp zero)
  have zero : (0 : UInt8).toNat = 0 := rfl
  constructor
  · exact iff_of_true (by omega) .nil
  · exact iff_of_false (by omega) nofun
  · exact iff_of_false (by omega) nofun

theorem Compares.trans {r : List UInt8} {f : Int} (first : Compares d s t)
    (second : Compares e t r) (whole : Compares f s r) (le : d ≤ 0) (le' : e ≤ 0) : f ≤ 0 := by
  rcases Int.lt_or_eq_of_le le with less | zero
  · rcases Int.lt_or_eq_of_le le' with less' | zero'
    · have trans {a b c : UInt8} (below : a < b) (below' : b < c) : a < c :=
        UInt8.lt_trans below below'
      have before := List.lex_trans (r := (· < ·)) trans (first.less.mp less) (second.less.mp less')
      exact Int.le_of_lt (whole.less.mpr before)
    · obtain rfl := second.equal.mp zero'
      exact Int.le_of_lt (whole.less.mpr (first.less.mp less))
  · obtain rfl := first.equal.mp zero
    rcases Int.lt_or_eq_of_le le' with less' | zero'
    · exact Int.le_of_lt (whole.less.mpr (second.less.mp less'))
    · exact Int.le_of_eq (whole.equal.mpr (second.equal.mp zero'))

theorem strcmp_swap (s t : List UInt8) : strcmp t s = (strcmp s t).map fun d => -d := by
  induction s generalizing t with
  | nil => cases t <;> rfl
  | cons a s ih =>
    cases t with
    | nil => rfl
    | cons b t =>
      by_cases same : a ≠ 0 ∧ a = b
      · have same' : b ≠ 0 ∧ b = a := ⟨same.2 ▸ same.1, same.2.symm⟩
        rw [strcmp, strcmp, if_pos same, if_pos same', ih]
      · have same' : ¬(b ≠ 0 ∧ b = a) := fun both => same ⟨both.2 ▸ both.1, both.2.symm⟩
        rw [strcmp, strcmp, if_neg same, if_neg same', Option.map_some, Int.neg_sub]

/-- `strcmp` of terminated strings is their lexicographic order. -/
theorem strcmp_compares (noNulS : 0 ∉ s) (noNulT : 0 ∉ t) :
    ∃ d, strcmp (s ++ 0 :: x) (t ++ 0 :: y) = some d ∧ Compares d s t := by
  induction s generalizing t with
  | nil =>
    cases t with
    | nil => exact ⟨0, by simp [strcmp], by simp, by simp, by simp⟩
    | cons b t =>
      -- the terminator of `s1` against a character of `s2`
      obtain ⟨first, -⟩ := List.ne_and_not_mem_of_not_mem_cons noNulT
      exact ⟨_, if_neg fun both => both.1 rfl, compares_end first.symm⟩
  | cons a s ih =>
    obtain ⟨firstS, restS⟩ := List.ne_and_not_mem_of_not_mem_cons noNulS
    cases t with
    | nil =>
      -- a character of `s1` against the terminator of `s2`
      refine ⟨_, if_neg fun both => firstS both.2.symm, ?_⟩
      have order := (compares_end (t := s) firstS.symm).swap
      rwa [Int.neg_sub] at order
    | cons b t =>
      obtain ⟨-, restT⟩ := List.ne_and_not_mem_of_not_mem_cons noNulT
      by_cases same : a = b
      · -- equal characters that are no terminators: the loop goes on
        subst same
        obtain ⟨d, result, order⟩ := ih restS restT
        exact ⟨d, (if_pos ⟨firstS.symm, rfl⟩).trans result, order.cons a⟩
      · exact ⟨_, if_neg fun both => same both.2, compares_first same⟩

/-- `strcmp` of terminated strings is 0 exactly when they are equal. -/
theorem strcmp_append (noNulS : 0 ∉ s) (noNulT : 0 ∉ t) :
    ∃ d, strcmp (s ++ 0 :: x) (t ++ 0 :: y) = some d ∧ (d = 0 ↔ s = t) := by
  obtain ⟨d, result, order⟩ := strcmp_compares (x := x) (y := y) noNulS noNulT
  exact ⟨d, result, order.equal⟩

/-- `strncmp` is `strcmp` of the first `n` characters. -/
theorem strncmp_eq (noNulS : 0 ∉ s) (noNulT : 0 ∉ t) (n : Nat) :
    strncmp (s ++ 0 :: x) (t ++ 0 :: y) n = strcmp (s.take n ++ [0]) (t.take n ++ [0]) := by
  induction n generalizing s t with
  | zero => simp [strncmp, strcmp]
  | succ n ih =>
    cases s with
    | nil => cases t <;> simp [strncmp, strcmp]
    | cons a s =>
      obtain ⟨firstS, restS⟩ := List.ne_and_not_mem_of_not_mem_cons noNulS
      cases t with
      | nil => simp [strncmp, strcmp, firstS.symm]
      | cons b t =>
        obtain ⟨-, restT⟩ := List.ne_and_not_mem_of_not_mem_cons noNulT
        simp only [List.cons_append, List.take_succ_cons, strncmp, strcmp, ih restS restT]

/-- `strncmp` with the length of the second string tests for a prefix. -/
theorem strncmp_append (noNulS : 0 ∉ s) (noNulT : 0 ∉ t) :
    ∃ d, strncmp (s ++ 0 :: x) (t ++ 0 :: y) t.length = some d ∧ (d = 0 ↔ t <+: s) := by
  have noNulS' : 0 ∉ s.take t.length := fun member => noNulS (List.mem_of_mem_take member)
  obtain ⟨d, result, order⟩ := strcmp_compares (x := []) (y := []) noNulS' noNulT
  refine ⟨d, ?_, ?_⟩
  · rw [strncmp_eq noNulS noNulT, List.take_length]
    exact result
  · rw [order.equal, List.prefix_iff_eq_take, eq_comm]

/-- The loops end at the terminator of either string. -/
theorem not_equal_at_terminator (stop : (a :: s)[0]? = some 0 ∨ (b :: t)[0]? = some 0) :
    ¬(a ≠ 0 ∧ a = b) := by
  rintro ⟨nonzero, rfl⟩
  simp [nonzero] at stop

theorem strncmp_take (s t : List UInt8) (n : Nat) :
    strncmp (s.take n) (t.take n) n = strncmp s t n := by
  induction n generalizing s t with
  | zero => simp [strncmp]
  | succ n ih =>
    cases s with
    | nil => simp [strncmp]
    | cons a s =>
      cases t with
      | nil => simp [strncmp]
      | cons b t => rw [List.take_succ_cons, List.take_succ_cons, strncmp, strncmp, ih]

/-- No byte behind a terminator of either string is read. -/
theorem strncmp_take_terminator (stop : s[k]? = some 0 ∨ t[k]? = some 0) (n : Nat) :
    strncmp (s.take (k + 1)) (t.take (k + 1)) n = strncmp s t n := by
  induction n generalizing s t k with
  | zero => simp [strncmp]
  | succ n ih =>
    cases s with
    | nil => simp [strncmp]
    | cons a s =>
      cases t with
      | nil => simp [strncmp]
      | cons b t =>
        rw [List.take_succ_cons, List.take_succ_cons, strncmp, strncmp]
        cases k with
        | zero =>
          have differs := not_equal_at_terminator stop
          rw [if_neg differs, if_neg differs]
        | succ k =>
          have later : s[k]? = some 0 ∨ t[k]? = some 0 := stop
          rw [ih later]

theorem strncmp_of_length_lt (long : s.length < n) : strncmp s t n = strcmp s t := by
  induction n generalizing s t with
  | zero => omega
  | succ n ih =>
    cases s with
    | nil => cases t <;> rfl
    | cons a s =>
      cases t with
      | nil => rfl
      | cons b t => rw [strncmp, strcmp, ih (Nat.lt_of_succ_lt_succ long)]

theorem strcmp_take (stop : s[k]? = some 0 ∨ t[k]? = some 0) :
    strcmp (s.take (k + 1)) (t.take (k + 1)) = strcmp s t := by
  have whole : s.length < s.length + 1 := Nat.lt_succ_self _
  have part : (s.take (k + 1)).length < s.length + 1 :=
    Nat.lt_of_le_of_lt (List.length_take_le' _ _) whole
  rw [← strncmp_of_length_lt part, ← strncmp_of_length_lt whole, strncmp_take_terminator stop]

/-- `strcmp` and `strncmp` on two strings, whatever follows their terminators. What a comparison
reads is bounded by what is left of its answer when the bytes behind are not there. -/
structure ComparisonLaws (s t x y : List UInt8) (d : Int) : Prop where
  result : strcmp (s ++ 0 :: x) (t ++ 0 :: y) = some d
  order : Compares d s t
  swapped : strcmp (t ++ 0 :: y) (s ++ 0 :: x) = some (-d)
  -- `strncmp` is `strcmp` of the first `n` bytes
  first : ∀ n, ∃ e, strncmp (s ++ 0 :: x) (t ++ 0 :: y) n = some e ∧
    strcmp (s.take n ++ [0]) (t.take n ++ [0]) = some e
  -- no byte behind the first terminator, which may be that of either string
  reads : ∀ k, (s ++ 0 :: x)[k]? = some 0 ∨ (t ++ 0 :: y)[k]? = some 0 →
    strcmp ((s ++ 0 :: x).take (k + 1)) ((t ++ 0 :: y).take (k + 1)) = some d
  -- nor more than `n` bytes
  readsFirst : ∀ n k, (s ++ 0 :: x)[k]? = some 0 ∨ (t ++ 0 :: y)[k]? = some 0 →
    strncmp ((s ++ 0 :: x).take (min n (k + 1))) ((t ++ 0 :: y).take (min n (k + 1))) n =
      strncmp (s ++ 0 :: x) (t ++ 0 :: y) n

theorem comparisonLaws (noNulS : 0 ∉ s) (noNulT : 0 ∉ t) (x y : List UInt8) :
    ∃ d, ComparisonLaws s t x y d := by
  obtain ⟨d, result, order⟩ := strcmp_compares (x := x) (y := y) noNulS noNulT
  refine ⟨d, result, order, ?_, fun n => ?_, fun k stop => ?_, fun n k stop => ?_⟩
  · rw [strcmp_swap, result, Option.map_some]
  · have noNulS' : 0 ∉ s.take n := fun member => noNulS (List.mem_of_mem_take member)
    have noNulT' : 0 ∉ t.take n := fun member => noNulT (List.mem_of_mem_take member)
    obtain ⟨e, answer, -⟩ := strcmp_compares (x := []) (y := []) noNulS' noNulT'
    exact ⟨e, (strncmp_eq noNulS noNulT n).trans answer, answer⟩
  · rw [strcmp_take stop, result]
  · rw [← List.take_take, ← List.take_take, strncmp_take, strncmp_take_terminator stop]

/-- Comparison is a lexicographic order of strings, and reads no more than it needs. -/
theorem strings_compared {r z : List UInt8} (noNulS : 0 ∉ s) (noNulT : 0 ∉ t) (noNulR : 0 ∉ r) :
    ∃ d e f, ComparisonLaws s t x y d ∧ ComparisonLaws t r y z e ∧ ComparisonLaws s r x z f ∧
      (d ≤ 0 → e ≤ 0 → f ≤ 0) := by
  obtain ⟨d, first⟩ := comparisonLaws noNulS noNulT x y
  obtain ⟨e, second⟩ := comparisonLaws noNulT noNulR y z
  obtain ⟨f, whole⟩ := comparisonLaws noNulS noNulR x z
  exact ⟨d, e, f, first, second, whole, first.order.trans second.order whole.order⟩

/-- Two strings with a byte above 127, and one that begins the other. -/
theorem strings_compared_prefix : ∃ d e f,
    ComparisonLaws [0x41] [0x41, 0x80] [7] [] d ∧ ComparisonLaws [0x41, 0x80] [0xFF] [] [] e ∧
      ComparisonLaws [0x41] [0xFF] [7] [] f ∧ (d ≤ 0 → e ≤ 0 → f ≤ 0) :=
  strings_compared (by decide) (by decide) (by decide)

variable {ch : UInt8}

/-- `strchr` finds the first occurrence. -/
theorem strchr_append (noNul : 0 ∉ s) (absent : ch ∉ s) :
    strchr (s ++ ch :: x) ch = some (some s.length) := by
  induction s with
  | nil => simp [strchr]
  | cons b s ih =>
    obtain ⟨first, rest⟩ := List.ne_and_not_mem_of_not_mem_cons noNul
    obtain ⟨other, later⟩ := List.ne_and_not_mem_of_not_mem_cons absent
    rw [List.cons_append, strchr, if_pos other.symm, if_neg first.symm, ih rest later]
    rfl

theorem strchr_none (noNul : 0 ∉ s) (absent : ch ∉ s) (nonzero : ch ≠ 0) :
    strchr (s ++ 0 :: x) ch = some none := by
  induction s with
  | nil => simp [strchr, nonzero.symm]
  | cons b s ih =>
    obtain ⟨first, rest⟩ := List.ne_and_not_mem_of_not_mem_cons noNul
    obtain ⟨other, later⟩ := List.ne_and_not_mem_of_not_mem_cons absent
    rw [List.cons_append, strchr, if_pos other.symm, if_neg first.symm, ih rest later]
    rfl

/-! Nothing behind the terminator is read. -/

theorem strlen_append (noNul : 0 ∉ s) : strlen (s ++ 0 :: x) = some (.ofNat s.length) := by
  rw [strlen, strlenLoop_append noNul, UInt32.zero_add]

theorem strcmp_terminator (r : List UInt8) : strcmp r (t ++ 0 :: y) = strcmp r (t ++ [0]) := by
  induction t generalizing r with
  | nil =>
    cases r with
    | nil => rfl
    | cons a r =>
      have stop : ¬(a ≠ 0 ∧ a = 0) := fun both => both.1 both.2
      rw [List.nil_append, List.nil_append, strcmp, strcmp, if_neg stop, if_neg stop]
  | cons b t ih =>
    cases r with
    | nil => rfl
    | cons a r => rw [List.cons_append, List.cons_append, strcmp, strcmp, ih]

theorem memcpy_terminator (m : Mem) (dst : Nat) {size : Nat} (bound : size ≤ t.length) :
    memcpy m dst (t ++ 0 :: y) size = memcpy m dst (t ++ [0]) size := by
  induction t generalizing m dst size with
  | nil =>
    obtain rfl := Nat.le_zero.mp bound
    rfl
  | cons b t ih =>
    cases size with
    | zero => rfl
    | succ size => exact ih (m.write8 dst b) (dst + 1) (Nat.le_of_succ_le_succ bound)

/-- `memcpy` copies the first bytes of the source and nothing else. -/
theorem memcpy_spec (m : Mem) (dst : Nat) {src : List UInt8} {size : Nat}
    (bound : size ≤ src.length) :
    ∃ m', memcpy m dst src size = some m' ∧ m'.bytes dst size = src.take size ∧
      Within {x | dst ≤ x ∧ x < dst + size} m m' := by
  induction size generalizing m dst src with
  | zero => exact ⟨m, by cases src <;> rfl, rfl, .refl _ m⟩
  | succ size ih =>
    cases src with
    | nil => simp at bound
    | cons b src =>
      obtain ⟨m', result, copied, change⟩ :=
        ih (m.write8 dst b) (dst + 1) (by simpa using bound)
      refine ⟨m', result, ?_, ?_⟩
      · have first : m' dst = b := by
          rw [change dst (by simp), Mem.write8_same]
        rw [Nat.add_comm size 1, Mem.bytes_add, Mem.bytes_one, first, copied, Nat.add_comm 1 size]
        rfl
      · have inside : dst ∈ {x | dst ≤ x ∧ x < dst + (size + 1)} := ⟨by omega, by omega⟩
        refine (Within.write8 b inside).trans (change.mono ?_)
        rintro x ⟨lower, upper⟩
        exact ⟨by omega, by omega⟩

/-- What stands before the first occurrence of a byte is determined. -/
theorem append_cons_unique {a b x y : List UInt8} {e : UInt8} (first : e ∉ a) (first' : e ∉ b)
    (same : a ++ e :: x = b ++ e :: y) : a = b ∧ x = y := by
  rcases List.append_eq_append_iff.mp same with ⟨c, rfl, rest⟩ | ⟨c, rfl, rest⟩
  · cases c with
    | nil => simpa using rest
    | cons d c =>
      obtain ⟨rfl, -⟩ := List.cons.inj rest
      simp at first'
  · cases c with
    | nil => simpa using rest.symm
    | cons d c =>
      obtain ⟨rfl, -⟩ := List.cons.inj rest
      simp at first

end FriscaOS
