import FriscaOS.Drivers.Vga
import FriscaOS.Fs.Vfs
import FriscaOS.Lib.Numeral

/-! Numbers and the list of files on the screen: `print_uint` and `vfs_list_files`. A local array
holds at first whatever its memory held, and a store beyond it yields `none`. -/
namespace FriscaOS

open ByteMemory Numeral

/-- `'0' + digit` -/
def digitChar (digit : Nat) : UInt8 := .ofNat (48 + digit)

/-- The loop of `print_uint`, with `i + 1` cells of `buf` left below the digits so far. -/
def printUintLoop : Nat → UInt32 → Mem → Option (Nat × Mem)
  | 0, num, buf => if num > 0 then none else some (0, buf)
  | i + 1, num, buf =>
    if num > 0 then printUintLoop i (num / 10) (buf.write8 i (digitChar (num % 10).toNat))
    else some (i + 1, buf)

def printUint (num : UInt32) (locals : Mem) : Option (List VgaCall) :=
  if num = 0 then vgaWrite (literal "0")
  else do
    let (first, buf) ← printUintLoop 11 num (locals.write8 11 0)
    vgaWrite (buf.bytes first (12 - first))

/-- `while (val > 0) temp[t_idx++] = '0' + (val % 10)`, with `n` cells of `temp` left. -/
def tempLoop : Nat → Int → Nat → Mem → Option (Nat × Mem)
  | 0, val, tIdx, temp => if val > 0 then none else some (tIdx, temp)
  | n + 1, val, tIdx, temp =>
    if val > 0 then
      tempLoop n (val / 10) (tIdx + 1) (temp.write8 tIdx (digitChar (val % 10).toNat))
    else some (tIdx, temp)

/-- `while (t_idx > 0) num_str[idx++] = temp[--t_idx]` -/
def numStrLoop (temp : Mem) : Nat → Nat → Mem → Option (Nat × Mem)
  | 0, idx, numStr => some (idx, numStr)
  | tIdx + 1, idx, numStr =>
    if idx < 12 then numStrLoop temp tIdx (idx + 1) (numStr.write8 idx (temp tIdx)) else none

/-- The length of a file in `num_str`. -/
def lengthText (length : UInt32) (locals : Mem) : Option (List UInt8) := do
  -- `int val = file_table[i].length`
  let val := length.toBitVec.toInt
  let (idx, numStr) ←
    if val = 0 then some (1, locals.write8 0 (digitChar 0))
    else do
      let (tIdx, temp) ← tempLoop 12 val 0 locals
      numStrLoop temp tIdx 0 locals
  if idx < 12 then return (numStr.write8 idx 0).bytes 0 12 else none

/-- The body of the loop of `vfs_list_files`. -/
def listFile (file : VfsNode) (locals : Mem) : Option (List VgaCall) := do
  let name ← vgaWrite file.nameBytes
  -- `int spaces = 33 - strlen(file_table[i].name)`
  let spaces := (33 - (← strlen file.nameBytes)).toBitVec.toInt
  let spaces := if spaces < 1 then 1 else spaces
  let length ← vgaWrite (← lengthText file.length locals)
  return name ++ List.replicate spaces.toNat (.putchar 32) ++ length ++ (← vgaWrite (literal "\n"))

/-- The loop of `vfs_list_files`, with `n` files left from index `i` on. -/
def listLoop (v : Vfs) (locals : Mem) : Nat → Nat → Option (List VgaCall)
  | 0, _ => some []
  | n + 1, i => do
    let calls ← listFile (v.fileTable i) locals
    return calls ++ (← listLoop v locals n (i + 1))

def vfsListFiles (v : Vfs) (locals : Mem) : Option (List VgaCall) :=
  if v.fileCount = 0 then vgaWrite (literal "No files found.\n")
  else do
    let header ← vgaWrites ["Name                             Size (Bytes)\n",
      "---------------------------------------------\n"]
    return header ++ (← listLoop v locals v.fileCount.toNat 0)

variable {num : UInt32} {buf locals temp numStr : Mem} {n k idx tIdx : Nat} {v : Vfs}
  {names : List (List UInt8)}

/-! ### Digits -/

theorem toNat_digitChar {digit : Nat} (small : digit < 10) :
    (digitChar digit).toNat = 48 + digit := by
  rw [digitChar, UInt8.toNat_ofNat', Nat.mod_eq_of_lt (by omega)]

/-- The digits of `num`, the highest one first, and none for 0. -/
def digits (num : Nat) : List UInt8 := digitString 10 digitChar num

theorem digits_div {num : Nat} (positive : num ≠ 0) :
    digits num = digits (num / 10) ++ [digitChar (num % 10)] :=
  digitString_div (by decide) positive

theorem length_digits_le {num : Nat} : (digits num).length ≤ k ↔ num < 10 ^ k :=
  length_digitString_le (by decide)

/-- `print_uint` fills its buffer backwards with the digits. -/
theorem printUintLoop_digits (num : UInt32) (first : Nat) (buf : Mem) :
    ∃ buf', printUintLoop (first + (digits num.toNat).length) num buf = some (first, buf') ∧
      buf'.bytes first (digits num.toNat).length = digits num.toNat ∧
      Within {x | first ≤ x ∧ x < first + (digits num.toNat).length} buf buf' := by
  -- the induction is on the quotient that is still to be written
  induction size : num.toNat using Nat.strong_induction_on generalizing num buf with
  | _ size' ih =>
    subst size
    by_cases zero : num.toNat = 0
    · obtain rfl : num = 0 := UInt32.toNat_inj.mp zero
      refine ⟨buf, ?_, by simp [digits, Mem.bytes], .refl _ buf⟩
      cases first <;> simp [digits, printUintLoop]
    · have quotient : (num / 10).toNat = num.toNat / 10 := UInt32.toNat_div num 10
      have last : (num % 10).toNat = num.toNat % 10 := UInt32.toNat_mod num 10
      have more : num > 0 := UInt32.lt_iff_toNat_lt.mpr (Nat.pos_of_ne_zero zero)
      obtain ⟨k, length⟩ : ∃ k, k = (digits (num.toNat / 10)).length := ⟨_, rfl⟩
      obtain ⟨buf', result, written, change⟩ := ih (num / 10).toNat (by omega) (num / 10)
        (buf.write8 (first + k) (digitChar (num % 10).toNat)) rfl
      rw [quotient, ← length] at result written change
      have kept : buf' (first + k) = digitChar (num.toNat % 10) := by
        rw [change _ (by simp), Mem.write8_same, last]
      rw [digits_div zero, List.length_append, List.length_singleton, ← length]
      refine ⟨buf', (if_pos more).trans result, ?_, ?_⟩
      · rw [Mem.bytes_add, written, Mem.bytes_one, kept]
      · refine (Within.write8 _ ?_).trans (change.mono fun x inside => ?_)
        · exact ⟨by omega, by omega⟩
        · exact ⟨inside.1, Nat.lt_succ_of_lt inside.2⟩

/-- The first loop of `vfs_list_files` stores the digits in reverse, and none of a negative
number. -/
theorem tempLoop_digits {val : Int} (tIdx : Nat) (temp : Mem)
    (room : (digits val.toNat).length ≤ n) :
    ∃ temp', tempLoop n val tIdx temp = some (tIdx + (digits val.toNat).length, temp') ∧
      temp'.bytes tIdx (digits val.toNat).length = (digits val.toNat).reverse ∧
      ∀ x < tIdx, temp' x = temp x := by
  induction n generalizing val tIdx temp with
  | zero =>
    have small := length_digits_le.mp room
    have zero : val.toNat = 0 := by omega
    have last : ¬val > 0 := by omega
    exact ⟨temp, by simp [tempLoop, last, zero, digits], by simp [zero, digits, Mem.bytes],
      fun _ _ => rfl⟩
  | succ n ih =>
    by_cases more : val > 0
    · have quotient : (val / 10).toNat = val.toNat / 10 := by omega
      have last : (val % 10).toNat = val.toNat % 10 := by omega
      rw [digits_div (by omega)] at room ⊢
      rw [List.length_append, List.length_singleton, ← quotient] at room ⊢
      have fewer : (digits (val / 10).toNat).length ≤ n := Nat.le_of_succ_le_succ room
      obtain ⟨temp', result, written, kept⟩ :=
        ih (tIdx + 1) (temp.write8 tIdx (digitChar (val % 10).toNat)) fewer
      refine ⟨temp', (if_pos more).trans (result.trans ?_), ?_, fun x below => ?_⟩
      · rw [Nat.add_assoc, Nat.add_comm 1]
      · rw [Nat.add_comm, Mem.bytes_add, Mem.bytes_one, written, kept tIdx (Nat.lt_succ_self _),
          Mem.write8_same, List.reverse_append, last]
        rfl
      · rw [kept x (by omega), Mem.write8_other _ _ (by omega)]
    · have zero : val.toNat = 0 := by omega
      exact ⟨temp, by simp [tempLoop, more, zero, digits], by simp [zero, digits, Mem.bytes],
        fun _ _ => rfl⟩

/-- The second loop reverses what the first one stored. -/
theorem numStrLoop_reverse (idx : Nat) (numStr : Mem) (room : idx + tIdx ≤ 12) :
    ∃ numStr', numStrLoop temp tIdx idx numStr = some (idx + tIdx, numStr') ∧
      numStr'.bytes idx tIdx = (temp.bytes 0 tIdx).reverse ∧ ∀ x < idx, numStr' x = numStr x := by
  induction tIdx generalizing idx numStr with
  | zero => exact ⟨numStr, rfl, rfl, fun _ _ => rfl⟩
  | succ tIdx ih =>
    obtain ⟨numStr', result, written, kept⟩ :=
      ih (idx + 1) (numStr.write8 idx (temp tIdx)) (by omega)
    have inside : idx < 12 := by omega
    refine ⟨numStr', (if_pos inside).trans (result.trans ?_), ?_, fun x below => ?_⟩
    · rw [Nat.add_right_comm, Nat.add_assoc]
    · rw [Nat.add_comm, Mem.bytes_add, Mem.bytes_one, written, kept idx (Nat.lt_succ_self _),
        Mem.write8_same, Nat.add_comm, Mem.bytes_add, Mem.bytes_one, Nat.zero_add]
      simp
    · rw [kept x (by omega), Mem.write8_other _ _ (by omega)]

theorem digits_noNul (num : Nat) : 0 ∉ digits num := by
  intro member
  obtain ⟨d, small, same⟩ := mem_digitString (by decide) member
  have value := congrArg UInt8.toNat same
  rw [toNat_digitChar small, UInt8.toNat_zero] at value
  omega

/-- The buffer of `print_uint` holds the digits with their terminator. -/
theorem printUintLoop_text (num : UInt32) (locals : Mem) :
    ∃ first buf, printUintLoop 11 num (locals.write8 11 0) = some (first, buf) ∧ first ≤ 11 ∧
      Within {x | x < 12} locals buf ∧ buf.bytes first (12 - first) = digits num.toNat ++ [0] := by
  have few : (digits num.toNat).length ≤ 10 := by
    have bound := num.toNat_lt
    exact length_digits_le.mpr (by omega)
  obtain ⟨first, room⟩ : ∃ first, first + (digits num.toNat).length = 11 :=
    ⟨_, Nat.sub_add_cancel (by omega)⟩
  obtain ⟨buf, result, written, change⟩ := printUintLoop_digits num first (locals.write8 11 0)
  rw [room] at result change
  have terminator : buf 11 = 0 := by rw [change 11 (by simp), Mem.write8_same]
  refine ⟨first, buf, result, by omega, ?_, ?_⟩
  · refine (Within.write8 0 ?_).trans (change.mono fun x inside => ?_)
    · exact Nat.lt_succ_self 11
    · exact Nat.lt_succ_of_lt inside.2
  · have size : 12 - first = (digits num.toNat).length + 1 := by omega
    rw [size, Mem.bytes_add, written, room, Mem.bytes_one, terminator]

theorem printUint_digits (positive : num ≠ 0) (locals : Mem) :
    printUint num locals = some ((digits num.toNat).map .putchar) := by
  obtain ⟨first, buf, result, -, -, text⟩ := printUintLoop_text num locals
  rw [printUint, if_neg positive, result]
  exact (congrArg vgaWrite text).trans (vgaWrite_append (digits_noNul _))

theorem printUint_total (num : UInt32) (locals : Mem) :
    ∃ calls, printUint num locals = some calls := by
  by_cases zero : num = 0
  · exact ⟨_, (if_pos zero).trans (vgaWrite_literal _)⟩
  · exact ⟨_, printUint_digits zero locals⟩

/-- What `num_str` holds up to its terminator. -/
def lengthDigits (length : UInt32) : List UInt8 :=
  if length.toBitVec.toInt = 0 then [digitChar 0] else digits length.toBitVec.toInt.toNat

/-- The two loops of `vfs_list_files` one after the other. -/
private theorem numStr_digits {val : Int} (few : (digits val.toNat).length ≤ 12) (locals : Mem) :
    ∃ temp numStr, tempLoop 12 val 0 locals = some ((digits val.toNat).length, temp) ∧
      numStrLoop temp (digits val.toNat).length 0 locals =
        some ((digits val.toNat).length, numStr) ∧
      numStr.bytes 0 (digits val.toNat).length = digits val.toNat := by
  obtain ⟨temp, stored, text, -⟩ := tempLoop_digits 0 locals few
  obtain ⟨numStr, copied, reversed, -⟩ :=
    @numStrLoop_reverse temp _ 0 locals (Nat.le_trans (Nat.le_of_eq (Nat.zero_add _)) few)
  rw [Nat.zero_add] at stored copied
  rw [text, List.reverse_reverse] at reversed
  exact ⟨temp, numStr, stored, copied, reversed⟩

/-- A terminator stored behind a string. -/
private theorem bytes_terminated {s : List UInt8} (written : numStr.bytes 0 s.length = s)
    (inside : s.length < n) : ∃ rest, (numStr.write8 s.length 0).bytes 0 n = s ++ 0 :: rest := by
  obtain ⟨k, rfl⟩ : ∃ k, n = s.length + (1 + k) := ⟨n - s.length - 1, by omega⟩
  have kept : (numStr.write8 s.length 0).bytes 0 s.length = s := by
    refine (Mem.bytes_congr fun x _ below => ?_).trans written
    exact Mem.write8_other _ _ (by omega)
  refine ⟨(numStr.write8 s.length 0).bytes (s.length + 1) k, ?_⟩
  rw [Mem.bytes_add, kept, Nat.zero_add, Mem.bytes_add, Mem.bytes_one, Mem.write8_same]
  rfl

theorem lengthText_digits (length : UInt32) (locals : Mem) :
    ∃ rest, lengthText length locals = some (lengthDigits length ++ 0 :: rest) := by
  by_cases zero : length.toBitVec.toInt = 0
  · have written : (locals.write8 0 (digitChar 0)).bytes 0 1 = [digitChar 0] := by
      rw [Mem.bytes_one, Mem.write8_same]
    obtain ⟨rest, text⟩ := @bytes_terminated _ 12 [digitChar 0] written (by decide : 1 < 12)
    rw [List.length_singleton] at text
    exact ⟨rest, by simp [lengthText, lengthDigits, zero, text]⟩
  · have few : (digits length.toBitVec.toInt.toNat).length ≤ 10 := by
      have bound := length.toBitVec.toInt_lt
      exact length_digits_le.mpr (by omega)
    obtain ⟨temp, numStr, stored, copied, written⟩ :=
      numStr_digits (Nat.le_trans few (by decide)) locals
    have inside := Nat.lt_of_le_of_lt few (by decide : 10 < 12)
    obtain ⟨rest, text⟩ := bytes_terminated written inside
    exact ⟨rest, by simp [lengthText, lengthDigits, zero, stored, copied, inside, text]⟩

theorem lengthText_total (length : UInt32) (locals : Mem) :
    ∃ text, lengthText length locals = some text ∧ 0 ∈ text := by
  obtain ⟨rest, text⟩ := lengthText_digits length locals
  exact ⟨_, text, by simp⟩

theorem listFile_total {file : VfsNode} {s : List UInt8} (named : file.Named s) (locals : Mem) :
    ∃ calls, listFile file locals = some calls := by
  obtain ⟨noNul, rest, bytes⟩ := named
  obtain ⟨text, digits, terminated⟩ := lengthText_total file.length locals
  obtain ⟨calls, written⟩ := vgaWrite_total terminated
  simp [listFile, bytes, vgaWrite_append noNul, strlen_append noNul, digits, written]

theorem listLoop_total {i : Nat} (locals : Mem)
    (named : ∀ j < n, ∃ s, (v.fileTable (i + j)).Named s) :
    ∃ calls, listLoop v locals n i = some calls := by
  induction n generalizing i with
  | zero => exact ⟨[], rfl⟩
  | succ n ih =>
    obtain ⟨s, first⟩ := named 0 (Nat.succ_pos n)
    obtain ⟨calls, shown⟩ := listFile_total first locals
    obtain ⟨rest, later⟩ := ih (i := i + 1) fun j bound => by
      rw [Nat.add_assoc, Nat.add_comm 1]
      exact named (j + 1) (Nat.succ_lt_succ bound)
    rw [Nat.add_zero] at shown
    exact ⟨calls ++ rest, by simp [listLoop, shown, later]⟩

theorem vfsListFiles_total (named : v.Names names) (locals : Mem) :
    ∃ calls, vfsListFiles v locals = some calls := by
  by_cases empty : v.fileCount = 0
  · exact ⟨_, (if_pos empty).trans (vgaWrite_literal _)⟩
  · obtain ⟨calls, shown⟩ := listLoop_total (v := v) (n := v.fileCount.toNat) (i := 0) locals
      fun j bound => by
        rw [named.1] at bound
        exact ⟨_, named.2 (0 + j) names[j] (by simp [bound])⟩
    simp [vfsListFiles, empty, shown]

/-! ### Decimal numerals -/

def digitValue (c : UInt8) : Nat := c.toNat - 48

theorem digitValue_digitChar (digit : Nat) (small : digit < 10) :
    digitValue (digitChar digit) = digit := by
  rw [digitValue, toNat_digitChar small, Nat.add_sub_cancel_left]

/-- The value of a string of ASCII digits. -/
def decimalValue (text : List UInt8) : Nat := value 10 digitValue text

/-- The text is the decimal numeral of the number. -/
structure DecimalOf (num : Nat) (text : List UInt8) : Prop where
  length : 1 ≤ text.length ∧ text.length ≤ 10
  digits : ∀ c ∈ text, 48 ≤ c.toNat ∧ c.toNat ≤ 57
  leading : text.head? = some 48 → text = [48]
  value : decimalValue text = num

theorem decimalOf_numeral (num : UInt32) :
    DecimalOf num.toNat (numeral 10 digitChar num.toNat) where
  length := by
    have bound := num.toNat_lt
    exact ⟨List.length_pos_iff.mpr numeral_ne_nil,
      length_numeral_le (by decide) (by omega) (by decide)⟩
  digits c member := by
    obtain ⟨d, small, rfl⟩ := mem_numeral (by decide) member
    rw [toNat_digitChar small]
    omega
  leading := numeral_of_head (by decide) digitValue_digitChar
  value := value_numeral (by decide) digitValue_digitChar _

/-- Both digit loops render the number as this text, whatever their arrays held before: so every
character that is emitted was stored first. -/
structure Rendered (num : UInt32) (text : List UInt8) : Prop where
  numeral : DecimalOf num.toNat text
  emitted : ∀ locals, printUint num locals = some (text.map .putchar)
  buffer : num ≠ 0 → ∀ locals, ∃ first buf,
    printUintLoop 11 num (locals.write8 11 0) = some (first, buf) ∧ first ≤ 11 ∧
      Within {x | x < 12} locals buf ∧ buf.bytes first (12 - first) = text ++ [0]
  listed : num.toNat < 2 ^ 31 → ∀ locals, ∃ bytes,
    lengthText num locals = some bytes ∧ vgaWrite bytes = some (text.map .putchar)

theorem numeral_eq_digits (positive : num ≠ 0) :
    numeral 10 digitChar num.toNat = digits num.toNat :=
  numeral_of_ne_zero fun zero => positive (UInt32.toNat_inj.mp zero)

theorem printUint_numeral (num : UInt32) (locals : Mem) :
    printUint num locals = some ((numeral 10 digitChar num.toNat).map .putchar) := by
  by_cases zero : num = 0
  · subst zero
    exact vgaWrite_literal "0"
  · rw [numeral_eq_digits zero]
    exact printUint_digits zero locals

/-- Below 2 ^ 31 the signed length is the length. -/
theorem lengthDigits_eq_numeral (nonnegative : num.toNat < 2 ^ 31) :
    lengthDigits num = numeral 10 digitChar num.toNat := by
  have val : num.toBitVec.toInt = num.toNat := by
    rw [BitVec.toInt_eq_toNat_of_lt (by simpa using by omega)]
    rfl
  rw [lengthDigits, val, numeral]
  simp [digits]

/-- `print_uint` and `vfs_list_files` render every number as its decimal numeral. -/
theorem decimal_rendered (num : UInt32) : ∃ text, Rendered num text := by
  refine ⟨numeral 10 digitChar num.toNat, decimalOf_numeral num, printUint_numeral num,
    fun positive => ?_, fun nonnegative locals => ?_⟩
  · rw [numeral_eq_digits positive]
    exact printUintLoop_text num
  · obtain ⟨rest, text⟩ := lengthText_digits num locals
    rw [lengthDigits_eq_numeral nonnegative] at text
    refine ⟨_, text, vgaWrite_append fun member => ?_⟩
    exact absurd ((decimalOf_numeral num).digits 0 member).1 (by decide)

end FriscaOS
