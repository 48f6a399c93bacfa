import FriscaOS.Drivers.Typing
import FriscaOS.Shell.FileRoundTrip
import FriscaOS.Shell.Transcript

/-! The console: the keyboard driver in front of the shell. Whatever scancodes arrive, and whenever
they do, the shell sees one of its own runs; and a file can be typed in and read back. -/
namespace FriscaOS

open ByteMemory Transition PaperTerminal

/-! ### The system -/

/-- `keyboard_handle_interrupt`, with the call of `shell_input`. -/
def keyboardInterrupt (env : Env) (scancode : UInt8) (shiftPressed : Int) (os : Os) :
    Option (Int × Os × Progress) :=
  match keyboardHandleInterrupt scancode shiftPressed with
  | (shiftPressed, none) => some (shiftPressed, os, .returned)
  | (shiftPressed, some c) => (shellInput env c os).map fun result => (shiftPressed, result)

structure Console where
  shiftPressed : Int
  shell : ShellSystem

inductive ConsoleOp
  -- any byte of the keyboard controller
  | scancode (env : Env) (code : UInt8)
  | wake
  | tasks (mem : Mem)

inductive ConsoleStep (L : KernelLayout) : Console → ConsoleOp → Console → Prop
  | scancode {s env code flag os progress} :
      keyboardInterrupt env code s.shiftPressed s.shell.os = some (flag, os, progress) →
      progress ≠ .halted →
      ConsoleStep L s (.scancode env code) ⟨flag, os, s.shell.blocked + progress.blocks⟩
  | wake {s shell} : ShellStep L s.shell .wake shell →
      ConsoleStep L s .wake { s with shell := shell }
  | tasks {s mem shell} : ShellStep L s.shell (.tasks mem) shell →
      ConsoleStep L s (.tasks mem) { s with shell := shell }

def ConsoleOp.code : ConsoleOp → Option UInt8
  | scancode _ code => some code
  | _ => none

def ShellOp.char : ShellOp → Option UInt8
  | key _ c => some c
  | _ => none

variable {L : KernelLayout} {s t : Console} {os os' u : Os} {env : Env} {c code : UInt8} {flag : Int}
  {op : ConsoleOp} {ops : List ConsoleOp} {codes text : List UInt8} {progress : Progress}

/-! ### One interrupt -/

theorem keyboardInterrupt_none (silent : (keyboardHandleInterrupt code flag).2 = none) :
    keyboardInterrupt env code flag os =
      some ((keyboardHandleInterrupt code flag).1, os, .returned) := by
  rw [keyboardInterrupt]
  rcases handled : keyboardHandleInterrupt code flag with ⟨flag', char⟩
  rw [handled] at silent
  cases silent
  rfl

theorem keyboardInterrupt_some (forwarded : (keyboardHandleInterrupt code flag).2 = some c) :
    keyboardInterrupt env code flag os =
      (shellInput env c os).map fun result => ((keyboardHandleInterrupt code flag).1, result) := by
  rw [keyboardInterrupt]
  rcases handled : keyboardHandleInterrupt code flag with ⟨flag', char⟩
  rw [handled] at forwarded
  cases forwarded
  rfl

theorem keyboardRun_single (flag : Int) (code : UInt8) : keyboardRun flag [code] =
    ((keyboardHandleInterrupt code flag).1, (keyboardHandleInterrupt code flag).2.toList) := by
  simp [keyboardRun]

theorem handle_typable (forwarded : (keyboardHandleInterrupt code flag).2 = some c) : Typable c := by
  apply keyboardRun_typable flag [code]
  rw [keyboardRun_single, forwarded]
  exact .head _

theorem Typable.ne_zero (typable : Typable c) : c ≠ 0 := by
  rintro rfl
  exact absurd typable (by decide)

/-- One scancode is no key of the shell, or one. -/
theorem ConsoleStep.refines (taken : ConsoleStep L s op t) :
    ∃ ops, Run (ShellStep L) s.shell ops t.shell ∧
      keyboardRun s.shiftPressed op.code.toList = (t.shiftPressed, ops.filterMap ShellOp.char) := by
  cases taken with
  | @scancode env code flag os progress result alive =>
    rw [ConsoleOp.code, Option.toList_some, keyboardRun_single]
    cases forwarded : (keyboardHandleInterrupt code s.shiftPressed).2 with
    | none =>
      rw [keyboardInterrupt_none forwarded] at result
      cases result
      exact ⟨[], .nil _, rfl⟩
    | some c =>
      rw [keyboardInterrupt_some forwarded] at result
      obtain ⟨⟨os', progress'⟩, pressed, same⟩ := Option.map_eq_some_iff.mp result
      cases same
      exact ⟨[.key env c], .single (.key (handle_typable forwarded).ne_zero pressed alive), rfl⟩
  | wake woken => exact ⟨[.wake], .single woken, rfl⟩
  | tasks stored => exact ⟨[.tasks _], .single stored, rfl⟩

theorem typable_editLine (typed : ∀ c ∈ text, Typable c) (typable : Typable c) :
    ∀ b ∈ editLine text c, Typable b := by
  intro b member
  rw [editLine] at member
  split_ifs at member
  · exact typed b (List.mem_of_mem_dropLast member)
  · rcases List.mem_append.mp member with old | new
    · exact typed b old
    · exact List.mem_singleton.mp new ▸ typable
  · exact typed b member

structure ConsoleInv (L : KernelLayout) (s : Console) : Prop where
  flag : s.shiftPressed = 0 ∨ s.shiftPressed = 1
  shell : ShellInv L s.shell.os
  typed : ∀ c ∈ s.shell.os.line, Typable c

/-- Every byte of the controller is handled. -/
theorem ConsoleInv.interrupt (inv : ConsoleInv L s) (env : Env) (code : UInt8) :
    ∃ flag os progress, keyboardInterrupt env code s.shiftPressed s.shell.os =
        some (flag, os, progress) ∧ (flag = 0 ∨ flag = 1) ∧ ShellInv L os ∧
      ∀ c ∈ os.line, Typable c := by
  have flag : (keyboardHandleInterrupt code s.shiftPressed).1 = 0 ∨
      (keyboardHandleInterrupt code s.shiftPressed).1 = 1 := by
    rw [keyboardHandleInterrupt]
    split_ifs
    exacts [.inr rfl, .inl rfl, inv.flag, inv.flag, inv.flag]
  cases forwarded : (keyboardHandleInterrupt code s.shiftPressed).2 with
  | none => exact ⟨_, _, _, keyboardInterrupt_none forwarded, flag, inv.shell, inv.typed⟩
  | some c =>
    have typable := handle_typable forwarded
    rw [keyboardInterrupt_some forwarded]
    by_cases enter : c = newline
    · obtain ⟨os', progress, result, executed⟩ :=
        executeCommand_executed inv.shell.store inv.shell.edit env
      have pressed : shellInput env c s.shell.os = some (os', progress) :=
        (if_pos enter).trans result
      obtain ⟨file, -, effect⟩ := executed.effect
      refine ⟨_, _, _, congrArg (Option.map _) pressed, flag,
        ⟨effect.inv inv.shell.store, executed.edit inv.shell.edit⟩, ?_⟩
      -- the line is gone, or waits with its command
      by_cases returns : progress = .returned
      · rw [Os.line_eq_nil_iff.mpr (executed.returned returns)]
        exact fun c member => absurd member List.not_mem_nil
      · rw [(executed.blocked returns).1]
        exact inv.typed
    · obtain ⟨os', result, store, line, edit⟩ :=
        shellInput_edit inv.shell.edit env typable.ne_zero enter
      refine ⟨_, _, _, congrArg (Option.map _) result, flag, ⟨store ▸ inv.shell.store, edit⟩, ?_⟩
      rw [line]
      exact typable_editLine inv.typed typable

theorem ConsoleInv.step (inv : ConsoleInv L s) (taken : ConsoleStep L s op t) : ConsoleInv L t := by
  obtain ⟨k, kernel, tracks⟩ := inv.shell.store.kernel
  obtain ⟨ops, matched, -⟩ := taken.refines
  have shell := (inv.shell.run kernel tracks matched).1
  cases taken with
  | scancode result alive =>
    obtain ⟨flag, os, progress, result', bit, -, typed⟩ := inv.interrupt _ _
    rw [result, Option.some.injEq] at result'
    cases result'
    exact ⟨bit, shell, typed⟩
  | wake woken =>
    refine ⟨inv.flag, shell, ?_⟩
    cases woken with
    | wake _ result =>
      rw [afterSleep_eq, Option.some.injEq] at result
      subst result
      rw [Os.line_eq_nil_iff.mpr rfl]
      exact fun c member => absurd member List.not_mem_nil
  | tasks stored =>
    refine ⟨inv.flag, shell, ?_⟩
    cases stored with
    | tasks change => exact inv.typed

/-- The console with an idle kernel, when no key was pressed yet. -/
def Console.boot (os : Os) : Console := ⟨0, os, 0⟩

end FriscaOS
