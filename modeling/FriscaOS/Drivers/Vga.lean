import Mathlib.Tactic.Common

/-! What the rest of the kernel asks of the VGA driver: the calls of `vga_putchar`,
`vga_set_color` and `vga_clear`, in order. -/
namespace FriscaOS

/-- `enum vga_color`. -/
inductive VgaColor
  | black | blue | green | cyan | red | magenta | brown | lightGrey
  | darkGrey | lightBlue | lightGreen | lightCyan | lightRed | lightMagenta | lightBrown | white
  deriving DecidableEq, Repr

/-- The value of an enumerator. -/
def VgaColor.toByte : VgaColor → UInt8
  | black => 0
  | blue => 1
  | green => 2
  | cyan => 3
  | red => 4
  | magenta => 5
  | brown => 6
  | lightGrey => 7
  | darkGrey => 8
  | lightBlue => 9
  | lightGreen => 10
  | lightCyan => 11
  | lightRed => 12
  | lightMagenta => 13
  | lightBrown => 14
  | white => 15

def newline : UInt8 := 10

def backspace : UInt8 := 8

inductive VgaCall
  | putchar (c : UInt8)
  | setColor (foreground background : VgaColor)
  | clear
  deriving DecidableEq, Repr

/-- `vga_write`, with the bytes at the pointer. -/
def vgaWrite : List UInt8 → Option (List VgaCall)
  | [] => none
  | c :: data => if c ≠ 0 then (vgaWrite data).map (.putchar c :: ·) else some []

/-- The bytes of ASCII characters. -/
def ascii (text : String) : List UInt8 := text.toList.map fun c => .ofNat c.toNat

/-- A string literal, with its terminator. -/
def literal (text : String) : List UInt8 := ascii text ++ [0]

/-- Calls of `vga_write` with string literals, one after the other. -/
def vgaWrites : List String → Option (List VgaCall)
  | [] => some []
  | text :: rest => do
    let calls ← vgaWrite (literal text)
    return calls ++ (← vgaWrites rest)

/-- What `vga_write` makes of a string literal. -/
def printed (text : String) : List VgaCall := ((ascii text).takeWhile (· ≠ 0)).map .putchar

variable {s x : List UInt8}

theorem vgaWrite_append (noNul : 0 ∉ s) : vgaWrite (s ++ 0 :: x) = some (s.map .putchar) := by
  induction s with
  | nil => simp [vgaWrite]
  | cons c s ih =>
    obtain ⟨first, rest⟩ := List.ne_and_not_mem_of_not_mem_cons noNul
    rw [List.cons_append, vgaWrite, if_pos first.symm, ih rest]
    rfl

theorem vgaWrite_total {data : List UInt8} (terminated : 0 ∈ data) :
    ∃ calls, vgaWrite data = some calls := by
  obtain ⟨s, x, rfl, noNul⟩ := List.eq_append_cons_of_mem terminated
  exact ⟨_, vgaWrite_append noNul⟩

@[simp] theorem vgaWrite_literal (text : String) : vgaWrite (literal text) = some (printed text) := by
  rw [literal, printed]
  induction ascii text with
  | nil => rfl
  | cons c s ih =>
    by_cases zero : c = 0
    · simp [vgaWrite, zero]
    · simp [vgaWrite, zero, ih]

@[simp] theorem vgaWrites_eq (texts : List String) :
    vgaWrites texts = some (texts.flatMap printed) := by
  induction texts with
  | nil => rfl
  | cons text texts ih => simp [vgaWrites, ih]

end FriscaOS
