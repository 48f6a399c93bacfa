import FriscaOS.Drivers.Vga
import FriscaOS.Lib.Transition
import Mathlib.Data.Finset.Basic

/-! The keyboard driver of `keyboard.c` against the keys that are held. One flag stands for both
Shift keys, and the release of either clears it. -/
namespace FriscaOS

open Transition

/-! ### The driver -/

def scancodeLshift : UInt8 := 0x2A

def scancodeRshift : UInt8 := 0x36

/-- `scancode_ascii_normal`. -/
def scancodeAsciiNormal : List UInt8 :=
  [0, 27] ++ ascii "1234567890-=" ++ [8, 9] ++ ascii "qwertyuiop[]" ++ [10, 0] ++
    ascii "asdfghjkl;'`" ++ [0] ++ ascii "\\zxcvbnm,./" ++ [0] ++ ascii "*" ++ [0] ++ ascii " "

/-- `scancode_ascii_shift`. -/
def scancodeAsciiShift : List UInt8 :=
  [0, 27] ++ ascii "!@#$%^&*()_+" ++ [8, 9] ++ ascii "QWERTYUIOP\x7b\x7d" ++ [10, 0] ++
    ascii "ASDFGHJKL:\"~" ++ [0] ++ ascii "|ZXCVBNM<>?" ++ [0] ++ ascii "*" ++ [0] ++ ascii " "

-- the bounds check against the first table is one for both
example : scancodeAsciiNormal.length = 58 ∧ scancodeAsciiShift.length = 58 := by decide

/-- The character that is forwarded to the shell: entries with 0 are not. -/
def mappedChar (currentMap : List UInt8) (scancode : UInt8) : Option UInt8 :=
  if scancode.toNat < scancodeAsciiNormal.length then
    currentMap[scancode.toNat]?.filter (· ≠ 0)
  else none

/-- `keyboard_handle_interrupt` with the scancode that it reads: the new `shift_pressed`, and the
argument of `shell_input` if it is called. -/
def keyboardHandleInterrupt (scancode : UInt8) (shiftPressed : Int) : Int × Option UInt8 :=
  if scancode = scancodeLshift ∨ scancode = scancodeRshift then (1, none)
  -- the break code of either Shift key, whatever the other one does
  else if scancode = scancodeLshift ||| 0x80 ∨ scancode = scancodeRshift ||| 0x80 then (0, none)
  else if scancode &&& 0x80 ≠ 0 then (shiftPressed, none)
  else
    let currentMap := if shiftPressed ≠ 0 then scancodeAsciiShift else scancodeAsciiNormal
    (shiftPressed, mappedChar currentMap scancode)

/-! ### The keys -/

/-- A key goes down, or repeats while it is held, or goes up. -/
inductive KeyEvent
  | make (code : UInt8)
  | release (code : UInt8)
  deriving DecidableEq

/-- What the keyboard controller reports. -/
def KeyEvent.scancode : KeyEvent → UInt8
  | make code => code
  | release code => code ||| 0x80

/-- The flag of the driver, and the make codes of the keys that are held. -/
structure Keyboard where
  shiftPressed : Int
  held : Finset UInt8

namespace Keyboard

def event (k : Keyboard) (e : KeyEvent) : Keyboard where
  shiftPressed := (keyboardHandleInterrupt e.scancode k.shiftPressed).1
  held := match e with
    | .make code => insert code k.held
    | .release code => k.held.erase code

/-- From the state in which all keys are released. -/
def after (events : List KeyEvent) : Keyboard := events.foldl event ⟨0, ∅⟩

def ShiftHeld (k : Keyboard) : Prop := scancodeLshift ∈ k.held ∨ scancodeRshift ∈ k.held

instance : DecidablePred ShiftHeld := fun k =>
  inferInstanceAs (Decidable (scancodeLshift ∈ k.held ∨ scancodeRshift ∈ k.held))

/-- The flag says whether a Shift key is held, and the next key is read from the table for it. -/
structure ShiftTracked (k : Keyboard) : Prop where
  flag : k.shiftPressed = 1 ↔ k.ShiftHeld
  presses : ∀ code : UInt8, code < 0x80 → code ≠ scancodeLshift → code ≠ scancodeRshift →
    (keyboardHandleInterrupt code k.shiftPressed).2 =
      mappedChar (if k.ShiftHeld then scancodeAsciiShift else scancodeAsciiNormal) code

/-- The other Shift key is held when this one is released. -/
def Overlaps (k : Keyboard) (code : UInt8) : Prop :=
  code = scancodeLshift ∧ scancodeRshift ∈ k.held ∨ code = scancodeRshift ∧ scancodeLshift ∈ k.held

/-- An event of a key with a make code of seven bits; only what is held is released. -/
def Accepts (k : Keyboard) : KeyEvent → Prop
  | .make code => code < 0x80
  | .release code => code ∈ k.held

instance (k : Keyboard) : DecidablePred k.Accepts
  | .make code => inferInstanceAs (Decidable (code < 0x80))
  | .release code => inferInstanceAs (Decidable (code ∈ k.held))

/-- Events that the keys can make one after the other. -/
def AcceptsAll (k : Keyboard) : List KeyEvent → Prop
  | [] => True
  | e :: events => k.Accepts e ∧ (k.event e).AcceptsAll events

instance decidableAcceptsAll : ∀ (k : Keyboard) events, Decidable (k.AcceptsAll events)
  | _, [] => inferInstanceAs (Decidable True)
  | k, e :: events =>
    have := decidableAcceptsAll (k.event e) events
    inferInstanceAs (Decidable (k.Accepts e ∧ (k.event e).AcceptsAll events))

end Keyboard

/-- A sequence of events from the state in which all keys are released. -/
def Physical (events : List KeyEvent) : Prop := (⟨0, ∅⟩ : Keyboard).AcceptsAll events

instance : DecidablePred Physical := fun events =>
  inferInstanceAs (Decidable ((⟨0, ∅⟩ : Keyboard).AcceptsAll events))

variable {k : Keyboard} {e : KeyEvent} {events : List KeyEvent} {code scancode : UInt8}

/-! ### Scancodes -/

theorem toNat_release (small : code < 0x80) : (code ||| 0x80).toNat = code.toNat + 128 := by
  have below : code.toNat < 2 ^ 7 := UInt8.lt_iff_toNat_lt.mp small
  rw [UInt8.toNat_or, Nat.or_comm, Nat.add_comm]
  exact (Nat.two_pow_add_eq_or_of_lt below 1).symm

/-- A break code is no make code. -/
theorem release_ne_make (small : code < 0x80) {other : UInt8} (small' : other < 0x80) :
    code ||| 0x80 ≠ other := by
  intro same
  have value := toNat_release small
  rw [same] at value
  have below : other.toNat < 128 := UInt8.lt_iff_toNat_lt.mp small'
  omega

theorem release_inj (small : code < 0x80) {other : UInt8} (small' : other < 0x80) :
    code ||| 0x80 = other ||| 0x80 ↔ code = other := by
  rw [← UInt8.toNat_inj, ← UInt8.toNat_inj, toNat_release small, toNat_release small',
    Nat.add_right_cancel_iff]

theorem make_bit (small : code < 0x80) : code &&& 0x80 = 0 := by
  have below : code.toNat < 2 ^ 7 := UInt8.lt_iff_toNat_lt.mp small
  have low : code.toNat &&& 127 = code.toNat := Nat.and_two_pow_sub_one_of_lt_two_pow below
  rw [← UInt8.toNat_inj, UInt8.toNat_and, ← low, Nat.and_assoc]
  exact Nat.and_zero _

/-! ### The flag -/

theorem flag_make (flag : Int) (small : code < 0x80) :
    (keyboardHandleInterrupt code flag).1 =
      if code = scancodeLshift ∨ code = scancodeRshift then 1 else flag := by
  have left : code ≠ scancodeLshift ||| 0x80 := (release_ne_make (by decide) small).symm
  have right : code ≠ scancodeRshift ||| 0x80 := (release_ne_make (by decide) small).symm
  rw [keyboardHandleInterrupt, if_neg (not_or.mpr ⟨left, right⟩),
    if_neg (not_not.mpr (make_bit small))]
  split <;> rfl

theorem flag_release (flag : Int) (small : code < 0x80) :
    (keyboardHandleInterrupt (code ||| 0x80) flag).1 =
      if code = scancodeLshift ∨ code = scancodeRshift then 0 else flag := by
  have left : code ||| 0x80 ≠ scancodeLshift := release_ne_make small (by decide)
  have right : code ||| 0x80 ≠ scancodeRshift := release_ne_make small (by decide)
  have shift : code ||| 0x80 = scancodeLshift ||| 0x80 ∨ code ||| 0x80 = scancodeRshift ||| 0x80 ↔
      code = scancodeLshift ∨ code = scancodeRshift := by
    rw [release_inj small (by decide), release_inj small (by decide)]
  rw [keyboardHandleInterrupt, if_neg (not_or.mpr ⟨left, right⟩)]
  simp only [shift]
  split
  · rfl
  · split <;> rfl

theorem char_make (small : code < 0x80) (left : code ≠ scancodeLshift)
    (right : code ≠ scancodeRshift) : (keyboardHandleInterrupt code flag).2 =
      mappedChar (if flag ≠ 0 then scancodeAsciiShift else scancodeAsciiNormal) code := by
  have left' : code ≠ scancodeLshift ||| 0x80 := (release_ne_make (by decide) small).symm
  have right' : code ≠ scancodeRshift ||| 0x80 := (release_ne_make (by decide) small).symm
  rw [keyboardHandleInterrupt, if_neg (not_or.mpr ⟨left, right⟩),
    if_neg (not_or.mpr ⟨left', right'⟩), if_neg (not_not.mpr (make_bit small))]

/-! ### Runs -/

/-- What every event keeps, whether or not the flag is right. -/
structure KeyboardInv (k : Keyboard) : Prop where
  flag : k.shiftPressed = 0 ∨ k.shiftPressed = 1
  codes : ∀ code ∈ k.held, code < 0x80

theorem KeyboardInv.event (inv : KeyboardInv k) (accepts : k.Accepts e) :
    KeyboardInv (k.event e) := by
  cases e with
  | make code =>
    have flag := flag_make k.shiftPressed accepts
    refine ⟨?_, Finset.forall_mem_insert .. |>.mpr ⟨accepts, inv.codes⟩⟩
    rw [Keyboard.event, KeyEvent.scancode]
    dsimp only
    rw [flag]
    split
    · exact .inr rfl
    · exact inv.flag
  | release code =>
    have flag := flag_release k.shiftPressed (inv.codes code accepts)
    refine ⟨?_, fun c member => inv.codes c (Finset.mem_of_mem_erase member)⟩
    rw [Keyboard.event, KeyEvent.scancode]
    dsimp only
    rw [flag]
    split
    · exact .inl rfl
    · exact inv.flag

/-- A flag that is right selects the right table. -/
theorem KeyboardInv.tracked_iff (inv : KeyboardInv k) :
    k.ShiftTracked ↔ (k.shiftPressed = 1 ↔ k.ShiftHeld) := by
  refine ⟨Keyboard.ShiftTracked.flag, fun flag => ⟨flag, fun code small left right => ?_⟩⟩
  rw [char_make small left right]
  have same : k.shiftPressed ≠ 0 ↔ k.ShiftHeld := by
    rw [← flag]
    rcases inv.flag with zero | one
    · simp [zero]
    · simp [one]
  simp only [same]

/-- The release of one Shift key while the other one is held is the only event that the flag does
not follow. -/
theorem KeyboardInv.event_tracked_iff (inv : KeyboardInv k) (tracked : k.ShiftTracked)
    (accepts : k.Accepts e) :
    (k.event e).ShiftTracked ↔ ∀ code, e = .release code → ¬k.Overlaps code := by
  have flag := tracked.flag
  rw [(inv.event accepts).tracked_iff]
  cases e with
  | make code =>
    have after := flag_make k.shiftPressed accepts
    refine ⟨fun _ code => nofun, fun _ => ?_⟩
    rw [Keyboard.event, KeyEvent.scancode, Keyboard.ShiftHeld]
    dsimp only
    rw [after, Finset.mem_insert, Finset.mem_insert]
    split
    · next shift => exact iff_of_true rfl (shift.imp (fun l => .inl l.symm) fun r => .inl r.symm)
    · next other =>
      obtain ⟨left, right⟩ := not_or.mp other
      rw [flag, Keyboard.ShiftHeld]
      simp only [Ne.symm left, Ne.symm right, false_or]
  | release code =>
    have after := flag_release k.shiftPressed (inv.codes code accepts)
    have overlap : (∀ c, KeyEvent.release code = .release c → ¬k.Overlaps c) ↔
        ¬k.Overlaps code :=
      ⟨fun all => all code rfl, fun none_ c same => KeyEvent.release.inj same ▸ none_⟩
    rw [overlap, Keyboard.event, KeyEvent.scancode, Keyboard.ShiftHeld, Keyboard.Overlaps]
    dsimp only
    rw [after, Finset.mem_erase, Finset.mem_erase]
    have different : scancodeLshift ≠ scancodeRshift := by decide
    split
    · next shift =>
      -- the flag is cleared, and only the other Shift key may still be held
      have cleared : (0 : Int) ≠ 1 := by decide
      rcases shift with rfl | rfl
      · simp [cleared, different, different.symm]
      · simp [cleared, different, different.symm]
    · next other =>
      obtain ⟨left, right⟩ := not_or.mp other
      rw [flag, Keyboard.ShiftHeld]
      simp [left, right, Ne.symm left, Ne.symm right]

theorem Keyboard.after_append (before : List KeyEvent) :
    Keyboard.after (before ++ [e]) = (Keyboard.after before).event e := List.foldl_append

theorem Keyboard.acceptsAll_append {before rest : List KeyEvent} : k.AcceptsAll (before ++ rest) ↔
    k.AcceptsAll before ∧ (before.foldl event k).AcceptsAll rest := by
  induction before generalizing k with
  | nil => exact (and_iff_right trivial).symm
  | cons e before ih =>
    rw [List.cons_append, AcceptsAll, AcceptsAll, ih, and_assoc]
    rfl

/-- What comes first, and the event after it. -/
theorem Physical.first (physical : Physical events) {before : List KeyEvent}
    (first : before ++ [e] <+: events) :
    Physical before ∧ (Keyboard.after before).Accepts e := by
  obtain ⟨rest, rfl⟩ := first
  obtain ⟨some_, next, -⟩ :=
    (Keyboard.acceptsAll_append.mp (Keyboard.acceptsAll_append.mp physical).1)
  exact ⟨some_, next⟩

theorem Physical.inv (physical : Physical events) : KeyboardInv (.after events) := by
  induction events using List.reverseRecOn with
  | nil => exact ⟨.inl rfl, fun code member => absurd member (Finset.notMem_empty code)⟩
  | append_singleton before e ih =>
    obtain ⟨earlier, accepts⟩ := physical.first (List.prefix_refl _)
    rw [Keyboard.after_append]
    exact (ih earlier).event accepts

/-- In a sequence of events the flag and the tables follow the Shift keys exactly if no Shift key is
released while the other one is held. -/
theorem shift_tracked_iff (physical : Physical events) :
    (∀ before, before <+: events → (Keyboard.after before).ShiftTracked) ↔
      ∀ before code, before ++ [.release code] <+: events →
        ¬(Keyboard.after before).Overlaps code := by
  have none_ : Physical [] := trivial
  have initial : (Keyboard.after []).ShiftTracked := none_.inv.tracked_iff.mpr (by decide)
  have step (before : List KeyEvent) (e : KeyEvent) (first : before ++ [e] <+: events)
      (tracked : (Keyboard.after before).ShiftTracked) :
      (Keyboard.after (before ++ [e])).ShiftTracked ↔
        ∀ code, e = .release code → ¬(Keyboard.after before).Overlaps code := by
    obtain ⟨earlier, accepts⟩ := physical.first first
    rw [Keyboard.after_append]
    exact earlier.inv.event_tracked_iff tracked accepts
  refine (forall_prefix_iff initial step).trans ?_
  constructor
  · exact fun apart before code first => apart before _ first code rfl
  · rintro apart before _ first code rfl
    exact apart before code first

/-- One Shift key goes down and up. -/
theorem shift_tracked_one :
    Physical [.make scancodeLshift, .release scancodeLshift] ∧
      ∀ before, before <+: [.make scancodeLshift, .release scancodeLshift] →
        (Keyboard.after before).ShiftTracked := by
  have physical : Physical [.make scancodeLshift, .release scancodeLshift] := by decide
  refine ⟨physical, (shift_tracked_iff physical).mpr fun before code first => ?_⟩
  obtain ⟨rest, same⟩ := first
  rcases before with _ | ⟨a, _ | ⟨b, before⟩⟩
  · simp at same
  · obtain ⟨rfl, rfl, -⟩ : a = .make scancodeLshift ∧ code = scancodeLshift ∧ rest = [] := by
      simpa using same
    rintro (⟨-, other⟩ | ⟨other, -⟩)
    · exact absurd other (by decide)
    · exact absurd other (by decide)
  · simp at same

/-- Both Shift keys go down and the left one goes up: the right one is held, and the flag is 0. -/
theorem not_shift_tracked :
    Physical [.make scancodeLshift, .make scancodeRshift, .release scancodeLshift] ∧
      ¬∀ before,
        before <+: [.make scancodeLshift, .make scancodeRshift, .release scancodeLshift] →
          (Keyboard.after before).ShiftTracked := by
  refine ⟨by decide, fun tracked => ?_⟩
  have flag := (tracked _ (List.prefix_refl _)).flag
  exact absurd flag (by decide)

end FriscaOS
