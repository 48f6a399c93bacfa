import FriscaOS.Shell.Shell

/-! Which command a line stands for: the tests of `execute_command` on a terminated line are
equality with a word and having a word as prefix. -/
namespace FriscaOS

open ByteMemory

variable {line x : List UInt8} {s : Os} {test : LineTest} {command : Command} {k : Nat}
  {table : List (LineTest × Command)}

/-! ### The tests -/

def LineTest.Holds (line : List UInt8) : LineTest → Prop
  | equals text => line = ascii text
  | startsWith text _ => ascii text <+: line

instance (test : LineTest) : Decidable (test.Holds line) :=
  match test with
  | .equals text => inferInstanceAs (Decidable (line = ascii text))
  | .startsWith text _ => inferInstanceAs (Decidable (ascii text <+: line))

/-- The texts have no terminator inside, and a prefix is compared in full. -/
def LineTest.Sound : LineTest → Prop
  | equals text => 0 ∉ ascii text
  | startsWith text n => 0 ∉ ascii text ∧ n = (ascii text).length

instance (test : LineTest) : Decidable test.Sound :=
  match test with
  | .equals text => inferInstanceAs (Decidable (0 ∉ ascii text))
  | .startsWith text n => inferInstanceAs (Decidable (0 ∉ ascii text ∧ n = (ascii text).length))

theorem commandTable_sound : ∀ entry ∈ commandTable, entry.1.Sound := by decide

theorem LineTest.Sound.compare (sound : test.Sound) (noNul : 0 ∉ line) :
    ∃ d, test.compare (line ++ 0 :: x) = some d ∧ (d = 0 ↔ test.Holds line) := by
  cases test with
  | equals text => exact strcmp_append noNul sound
  | startsWith text n =>
    obtain ⟨sound, rfl⟩ := sound
    exact strncmp_append noNul sound

/-! ### The dispatch -/

/-- The command of the first test that holds. -/
def commandIn (line : List UInt8) : List (LineTest × Command) → Command
  | [] => .unknown
  | (test, command) :: rest => if test.Holds line then command else commandIn line rest

def commandOf (line : List UInt8) : Command := commandIn line commandTable

theorem dispatch_commandIn (sound : ∀ entry ∈ table, entry.1.Sound) (noNul : 0 ∉ line) :
    dispatch (line ++ 0 :: x) table = some (commandIn line table) := by
  induction table with
  | nil => rfl
  | cons entry table ih =>
    obtain ⟨d, compared, iff⟩ := (sound entry (.head _)).compare (x := x) noNul
    rw [dispatch, commandIn, compared]
    by_cases holds : entry.1.Holds line
    · simp [holds, iff.mpr holds]
    · have other : d ≠ 0 := fun same => holds (iff.mp same)
      simpa [holds, other] using ih fun entry member => sound entry (.tail _ member)

theorem dispatch_commandOf (noNul : 0 ∉ line) :
    dispatch (line ++ 0 :: x) commandTable = some (commandOf line) :=
  dispatch_commandIn commandTable_sound noNul

/-- A command is chosen because its test holds. -/
theorem holds_of_commandIn (chosen : commandIn line table = command) (known : command ≠ .unknown) :
    ∃ test, (test, command) ∈ table ∧ test.Holds line := by
  induction table with
  | nil => exact absurd chosen.symm known
  | cons entry table ih =>
    rw [commandIn] at chosen
    by_cases holds : entry.1.Holds line
    · rw [if_pos holds] at chosen
      exact ⟨entry.1, by simp [← chosen], holds⟩
    · rw [if_neg holds] at chosen
      obtain ⟨test, member, holds⟩ := ih chosen
      exact ⟨test, .tail _ member, holds⟩

/-- The line of a command that is a word of its own. -/
theorem line_of_command (text : String) (chosen : commandOf line = command)
    (word : ∀ entry ∈ commandTable, entry.2 = command → entry.1 = .equals text)
    (known : command ≠ .unknown) : line = ascii text := by
  obtain ⟨test, member, holds⟩ := holds_of_commandIn chosen known
  have test_eq : test = _ := word _ member rfl
  rwa [test_eq] at holds

theorem prefix_of_command (text : String) (n : Nat) (chosen : commandOf line = command)
    (word : ∀ entry ∈ commandTable, entry.2 = command → entry.1 = .startsWith text n)
    (known : command ≠ .unknown) : ascii text <+: line := by
  obtain ⟨test, member, holds⟩ := holds_of_commandIn chosen known
  have test_eq : test = _ := word _ member rfl
  rwa [test_eq] at holds

/-- `write <filename> <content>` -/
def writeLine (f c : List UInt8) : List UInt8 := ascii "write " ++ f ++ 32 :: c

def catLine (f : List UInt8) : List UInt8 := ascii "cat " ++ f

theorem commandOf_write (args : List UInt8) : commandOf (ascii "write " ++ args) = .write := rfl

theorem commandOf_cat (f : List UInt8) : commandOf (catLine f) = .cat := rfl

end FriscaOS
