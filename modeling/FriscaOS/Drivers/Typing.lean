import FriscaOS.Drivers.Keyboard

/-! Typing: the characters that the keyboard driver hands to the shell while keys go down and up, and
the keys for a text. -/
namespace FriscaOS

open Transition

/-! ### What is handed on -/

/-- `keyboard_handle_interrupt` for one scancode after the other: the flag, and the arguments of
`shell_input`. -/
def keyboardRun : Int → List UInt8 → Int × List UInt8
  | shiftPressed, [] => (shiftPressed, [])
  | shiftPressed, code :: codes =>
    let first := keyboardHandleInterrupt code shiftPressed
    let rest := keyboardRun first.1 codes
    (rest.1, first.2.toList ++ rest.2)

/-- What a key stands for when it goes down, or repeats. -/
def KeyEvent.text (e : KeyEvent) (shiftHeld : Bool) : List UInt8 :=
  match e with
  | make code =>
    if code = scancodeLshift ∨ code = scancodeRshift then []
    else (mappedChar (if shiftHeld then scancodeAsciiShift else scancodeAsciiNormal) code).toList
  | release _ => []

/-- The text of some events, from the keys that are held and no flag. -/
def Keyboard.typed (k : Keyboard) : List KeyEvent → List UInt8
  | [] => []
  | e :: events => e.text k.ShiftHeld ++ (k.event e).typed events

/-- An event that the flag follows: no Shift key goes up while the other one is down. -/
def Keyboard.Follows (k : Keyboard) (e : KeyEvent) : Prop :=
  k.Accepts e ∧ ∀ code, e = .release code → ¬k.Overlaps code

def Keyboard.FollowsAll (k : Keyboard) : List KeyEvent → Prop
  | [] => True
  | e :: events => k.Follows e ∧ (k.event e).FollowsAll events

/-- The characters that a key can stand for. -/
def Typable (c : UInt8) : Prop := c ∈ [8, 9, 10, 27] ∨ 32 ≤ c ∧ c ≤ 126

instance : DecidablePred Typable := fun c =>
  inferInstanceAs (Decidable (c ∈ [8, 9, 10, 27] ∨ 32 ≤ c ∧ c ≤ 126))

/-! ### The keys for a text -/

variable {k : Keyboard} {e : KeyEvent} {events : List KeyEvent} {code c : UInt8} {flag : Int}
  {table text codes more : List UInt8}

/-! ### The tables -/

theorem mem_of_mappedChar (mapped : mappedChar table code = some c) : c ∈ table ∧ c ≠ 0 := by
  rw [mappedChar] at mapped
  split at mapped
  · obtain ⟨there, nonzero⟩ := Option.filter_eq_some_iff.mp mapped
    exact ⟨List.mem_of_getElem? there, by simpa using nonzero⟩
  · cases mapped

theorem typable_of_mem (member : c ∈ scancodeAsciiNormal ∨ c ∈ scancodeAsciiShift)
    (nonzero : c ≠ 0) : Typable c := by
  have all : (scancodeAsciiNormal ++ scancodeAsciiShift).all
      (fun c => c == 0 || decide (Typable c)) = true := by decide
  have entry := List.all_eq_true.mp all c (List.mem_append.mpr member)
  simpa [nonzero] using entry

theorem Keyboard.typed_append (events more : List KeyEvent) :
    k.typed (events ++ more) = k.typed events ++ (events.foldl Keyboard.event k).typed more := by
  induction events generalizing k with
  | nil => rfl
  | cons e events ih =>
    rw [List.cons_append, Keyboard.typed, ih, Keyboard.typed, List.append_assoc, List.foldl_cons]

theorem char_release (flag : Int) (small : code < 0x80) :
    (keyboardHandleInterrupt (code ||| 0x80) flag).2 = none := by
  have left : code ||| 0x80 ≠ scancodeLshift := release_ne_make small (by decide)
  have right : code ||| 0x80 ≠ scancodeRshift := release_ne_make small (by decide)
  have bit : (code ||| 0x80) &&& 0x80 ≠ 0 := by
    intro clear
    have high := congrArg (fun c : UInt8 => c.toNat.testBit 7) clear
    simp [UInt8.toNat_and, UInt8.toNat_or, Nat.testBit_and, Nat.testBit_or] at high
    exact absurd (high (.inr (by decide))) (by decide)
  rw [keyboardHandleInterrupt, if_neg (not_or.mpr ⟨left, right⟩), if_pos bit]
  split <;> rfl

theorem KeyboardInv.chars (inv : KeyboardInv k) (tracked : k.ShiftTracked) (accepts : k.Accepts e) :
    (keyboardHandleInterrupt e.scancode k.shiftPressed).2.toList = e.text k.ShiftHeld := by
  cases e with
  | make code =>
    rw [KeyEvent.scancode, KeyEvent.text]
    by_cases shift : code = scancodeLshift ∨ code = scancodeRshift
    · rw [if_pos shift, keyboardHandleInterrupt, if_pos shift]
      rfl
    · obtain ⟨left, right⟩ := not_or.mp shift
      rw [if_neg shift, tracked.presses code accepts left right]
      simp only [decide_eq_true_eq]
  | release code =>
    rw [KeyEvent.scancode, char_release _ (inv.codes code accepts)]
    rfl

theorem Keyboard.followsAll_append {before rest : List KeyEvent} :
    k.FollowsAll (before ++ rest) ↔
      k.FollowsAll before ∧ (before.foldl Keyboard.event k).FollowsAll rest := by
  induction before generalizing k with
  | nil => exact (and_iff_right trivial).symm
  | cons e before ih =>
    rw [List.cons_append, FollowsAll, FollowsAll, ih, and_assoc]
    rfl

/-! ### Texts -/

/-- All keys are up. -/
def released : Keyboard := ⟨0, ∅⟩

/-- The left Shift key is down. -/
def shifted : Keyboard := ⟨1, {scancodeLshift}⟩

/-- The events type the text, and leave the keys as they were. -/
structure Types (k : Keyboard) (events : List KeyEvent) (text : List UInt8) : Prop where
  follows : k.FollowsAll events
  ends : events.foldl Keyboard.event k = k
  typed : k.typed events = text

theorem Types.append (first : Types k events text) {events' : List KeyEvent}
    (second : Types k events' more) : Types k (events ++ events') (text ++ more) where
  follows := Keyboard.followsAll_append.mpr ⟨first.follows, first.ends.symm ▸ second.follows⟩
  ends := by rw [List.foldl_append, first.ends, second.ends]
  typed := by rw [Keyboard.typed_append, first.ends, first.typed, second.typed]

/-- The left Shift key around other keys. -/
theorem Types.shift (inside : Types shifted events text) :
    Types released (.make scancodeLshift :: (events ++ [.release scancodeLshift])) text := by
  have down : released.event (.make scancodeLshift) = shifted := rfl
  have up : shifted.event (.release scancodeLshift) = released := by
    rw [Keyboard.event, released, Keyboard.mk.injEq]
    exact ⟨rfl, by decide⟩
  refine ⟨⟨⟨by decide, fun _ same => KeyEvent.noConfusion same⟩, ?_⟩, ?_, ?_⟩
  · rw [down, Keyboard.followsAll_append, inside.ends]
    refine ⟨inside.follows, ⟨by decide, ?_⟩, trivial⟩
    rintro _ ⟨⟩ (⟨-, other⟩ | ⟨other, -⟩)
    · exact absurd other (by decide)
    · exact absurd other (by decide)
  · rw [List.foldl_cons, down, List.foldl_append, inside.ends, List.foldl_cons, up, List.foldl_nil]
  · rw [Keyboard.typed, down, Keyboard.typed_append, inside.typed, inside.ends]
    exact List.append_nil _

/-- Nothing else is handed on, whatever bytes the controller sends. -/
theorem keyboardRun_typable (flag : Int) (codes : List UInt8) :
    ∀ c ∈ (keyboardRun flag codes).2, Typable c := by
  induction codes generalizing flag with
  | nil => exact fun c member => absurd member List.not_mem_nil
  | cons code codes ih =>
    intro c member
    rw [keyboardRun, List.mem_append, Option.mem_toList] at member
    rcases member with now | later
    · -- only the last branch has a character
      obtain ⟨table, tables, mapped⟩ : ∃ table, (table = scancodeAsciiNormal ∨
          table = scancodeAsciiShift) ∧ mappedChar table code = some c := by
        rw [keyboardHandleInterrupt] at now
        split_ifs at now
        exacts [⟨_, .inr rfl, now⟩, ⟨_, .inl rfl, now⟩]
      obtain ⟨entry, nonzero⟩ := mem_of_mappedChar mapped
      rcases tables with rfl | rfl
      · exact typable_of_mem (.inl entry) nonzero
      · exact typable_of_mem (.inr entry) nonzero
    · exact ih _ c later

end FriscaOS
