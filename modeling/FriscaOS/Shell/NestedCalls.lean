import FriscaOS.Shell.StoreEffects

/-! Calls of `execute_command` that are interrupted. The keyboard handler enables interrupts before it
calls `shell_input`, so keys arrive, and further calls start, while others are in progress. -/
namespace FriscaOS

open ByteMemory Function Transition

/-! ### The phases of a call -/

/-- Where a call of `execute_command` stands. -/
inductive Phase
  -- the newline is printed
  | entered
  -- the line is terminated, and these tests are left
  | comparing (rest : List (LineTest × Command))
  | running (command : Command)
  | sleeping
  -- the branch is done
  | finishing

/-- The next step of a call, and where it leaves the call. A command that halts the CPU has none. -/
def continueCall (env : Env) (s : Os) : Phase → Option (Os × Option Phase)
  | .entered =>
    if s.bufferIdx = 0 then do return (← s.print printPrompt, none)
    else some ({ s with commandBuffer := s.commandBuffer.write8 s.bufferIdx.toNat 0 },
      some (.comparing commandTable))
  | .comparing [] => some (s, some (.running .unknown))
  | .comparing ((test, command) :: rest) => do
    if (← test.compare (s.commandBytes 0)) = 0 then return (s, some (.running command))
    else return (s, some (.comparing rest))
  | .running command => do
    let (s, progress) ← runCommand env s command
    match progress with
    | .returned => return (s, some .finishing)
    | .sleeping _ => return (s, some .sleeping)
    | .halted => none
  | .sleeping => do return (← s.print (vgaWrite (literal "Done!\n")), some .finishing)
  | .finishing => do return (← endCommand s, none)

/-! ### The system -/

structure NestedShell where
  os : Os
  -- the calls in progress, numbered in the order in which they started
  calls : Nat → Option Phase
  started : Nat

namespace NestedShell

def idle (os : Os) : NestedShell := ⟨os, fun _ => none, 0⟩

/-- A call has gone on to another phase, or has returned. -/
def goOn (s : NestedShell) (call : Nat) (os : Os) (next : Option Phase) : NestedShell :=
  { s with os := os, calls := update s.calls call next }

/-- The next call has come this far. -/
def reached (s : NestedShell) (os : Os) (phase : Option Phase) : NestedShell :=
  { os := os, calls := update s.calls s.started phase, started := s.started + 1 }

variable {s : NestedShell} {os : Os} {call other : Nat} {phase : Option Phase}

@[simp] theorem goOn_self : (s.goOn call os phase).calls call = phase := update_self ..

@[simp] theorem goOn_other (different : other ≠ call) :
    (s.goOn call os phase).calls other = s.calls other := update_of_ne different ..

@[simp] theorem reached_self : (s.reached os phase).calls s.started = phase := update_self ..

@[simp] theorem reached_other (different : call ≠ s.started) :
    (s.reached os phase).calls call = s.calls call := update_of_ne different ..

end NestedShell

inductive NestedOp
  -- any key but Enter
  | key (env : Env) (c : UInt8)
  | enter
  | advance (env : Env) (call : Nat)
  -- stores of tasks, as the memory they leave
  | tasks (mem : Mem)

/-- The calls go on in any order: each has the stack of the task that it interrupted. -/
inductive NestedStep (L : KernelLayout) : NestedShell → NestedOp → NestedShell → Prop
  | key {s env c os} : c ≠ 0 → c ≠ newline → shellInput env c s.os = some (os, .returned) →
      NestedStep L s (.key env c) { s with os := os }
  | enter {s os} : s.os.print (vgaWrite (literal "\n")) = some os →
      NestedStep L s .enter (s.reached os (some .entered))
  | advance {s env call phase os next} : s.calls call = some phase →
      continueCall env s.os phase = some (os, next) →
      NestedStep L s (.advance env call) (s.goOn call os next)
  | tasks {s mem} : Within (clientBytes L.region s.os.heap.mem s.os.taskBlocks) s.os.heap.mem mem →
      NestedStep L s (.tasks mem) { s with os := { s.os with heap := ⟨mem, s.os.heap.heapStart⟩ } }

variable {L : KernelLayout} {s t : NestedShell} {os os' : Os} {env : Env} {call : Nat}
  {command : Command} {rest : List (LineTest × Command)} {progress : Progress}

/-! ### A call that is not interrupted -/

/-- Where a call stands that is as far as `executeCommand` takes it. -/
def Progress.phase : Progress → Option Phase
  | sleeping _ => some .sleeping
  | _ => none

theorem reached_step {phase : Phase} {next : Option Phase}
    (step : continueCall env os phase = some (os', next)) :
    NestedStep L (s.reached os (some phase)) (.advance env s.started) (s.reached os' next) := by
  have taken := NestedStep.advance (L := L) (s := s.reached os (some phase)) (update_self ..) step
  rwa [NestedShell.goOn, NestedShell.reached, update_idem] at taken

/-- The comparisons lead to the command that `dispatch` finds. -/
theorem reached_dispatch (env : Env) (chosen : dispatch (os.commandBytes 0) rest = some command) :
    ∃ n, Run (NestedStep L) (s.reached os (some (.comparing rest)))
      (.replicate n (.advance env s.started)) (s.reached os (some (.running command))) := by
  induction rest with
  | nil =>
    cases chosen
    exact ⟨1, .single (reached_step rfl)⟩
  | cons entry rest ih =>
    obtain ⟨test, branch⟩ := entry
    obtain ⟨d, compared, decided⟩ := Option.bind_eq_some_iff.mp chosen
    by_cases equal : d = 0
    · rw [if_pos equal] at decided
      cases decided
      exact ⟨1, .single (reached_step (by simp [continueCall, compared, equal]))⟩
    · rw [if_neg equal] at decided
      obtain ⟨n, run⟩ := ih decided
      have step : continueCall env os (.comparing ((test, branch) :: rest)) =
          some (os, some (.comparing rest)) := by simp [continueCall, compared, equal]
      exact ⟨n + 1, .cons (reached_step step) run⟩

theorem continueCall_empty (env : Env) (empty : os.bufferIdx = 0) :
    continueCall env os .entered = some ({ os with vga := os.vga ++ prompt }, none) := by
  simp [continueCall, empty, printPrompt_eq, Os.print]

theorem continueCall_sleeping (env : Env) (os : Os) : continueCall env os .sleeping =
    some ({ os with vga := os.vga ++ printed "Done!\n" }, some .finishing) := by
  simp [continueCall, Os.print]

theorem continueCall_finishing (env : Env) (os : Os) : continueCall env os .finishing =
    some ({ os with bufferIdx := 0, vga := os.vga ++ prompt }, none) := by
  simp [continueCall, endCommand_eq]

theorem continueCall_running (result : runCommand env os command = some (os', progress))
    (alive : progress ≠ .halted) : continueCall env os (.running command) =
      some (os', if progress = .returned then some .finishing else progress.phase) := by
  cases progress with
  | returned | sleeping => simp [continueCall, result, Progress.phase]
  | halted => exact absurd rfl alive

/-- With nothing in between, the steps of a call do what `executeCommand` does. -/
theorem executeCommand_nested (result : executeCommand env s.os = some (os, progress))
    (alive : progress ≠ .halted) :
    ∃ n, Run (NestedStep L) s (.enter :: .replicate n (.advance env s.started))
      (s.reached os progress.phase) := by
  rw [executeCommand, Option.bind_eq_bind] at result
  obtain ⟨os₁, printed, rest⟩ := Option.bind_eq_some_iff.mp result
  have enter : NestedStep L s .enter (s.reached os₁ (some .entered)) := .enter printed
  by_cases empty : os₁.bufferIdx = 0
  · -- an empty line takes no comparison
    rw [if_pos empty] at rest
    obtain ⟨os₂, prompted, ended⟩ := Option.bind_eq_some_iff.mp rest
    cases ended
    have step : continueCall env os₁ .entered = some (os, none) := by
      simp [continueCall, empty, prompted]
    exact ⟨1, .cons enter (.single (reached_step step))⟩
  · rw [if_neg empty] at rest
    obtain ⟨command, chosen, rest⟩ := Option.bind_eq_some_iff.mp rest
    obtain ⟨⟨os₂, progress'⟩, ran, rest⟩ := Option.bind_eq_some_iff.mp rest
    have step : continueCall env os₁ .entered = some (_, some (.comparing commandTable)) :=
      if_neg empty
    obtain ⟨n, compared⟩ := reached_dispatch (L := L) (s := s) env chosen
    have start := Run.cons enter (.cons (reached_step step) compared)
    have labels (m : Nat) (op : NestedOp) :
        op :: (.replicate n op ++ .replicate m op) = .replicate (n + m + 1) op := by
      rw [List.replicate_append_replicate, List.replicate_succ]
    dsimp only at rest
    by_cases returned : progress' = .returned
    · -- the branch is done, and the call ends
      rw [if_pos returned] at rest
      obtain ⟨os₃, ended, last⟩ := Option.bind_eq_some_iff.mp rest
      cases last
      have done := continueCall_running ran (by rw [returned]; decide)
      rw [if_pos returned] at done
      have finished : continueCall env os₂ .finishing = some (os, none) := by simp [continueCall, ended]
      have run := start.append (.cons (reached_step done) (.single (reached_step finished)))
      exact ⟨n + 2 + 1, labels 2 _ ▸ run⟩
    · -- the call is left in its sleep
      rw [if_neg returned] at rest
      cases rest
      have done := continueCall_running ran alive
      rw [if_neg returned] at done
      have run := start.append (.single (reached_step done))
      exact ⟨n + 1 + 1, labels 1 _ ▸ run⟩

/-! ### Commands that are not interrupted -/

/-- As many calls as the list has numbers sleep, and no other call is in progress. -/
structure NestedShell.Asleep (s : NestedShell) (asleep : List Nat) : Prop where
  nodup : asleep.Nodup
  old : ∀ call ∈ asleep, call < s.started
  calls : ∀ call, s.calls call = if call ∈ asleep then some .sleeping else none

variable {asleep : List Nat} {op : ShellOp} {ops : List ShellOp} {a b : ShellSystem}

theorem NestedShell.Asleep.withOs (before : s.Asleep asleep) (os : Os) :
    { s with os := os }.Asleep asleep := ⟨before.nodup, before.old, before.calls⟩

theorem NestedShell.Asleep.enter (before : s.Asleep asleep) (os : Os) (alive : progress ≠ .halted) :
    ∃ asleep', (s.reached os progress.phase).Asleep asleep' ∧
      asleep'.length = asleep.length + progress.blocks := by
  have fresh : s.started ∉ asleep := fun member => Nat.lt_irrefl _ (before.old _ member)
  cases progress with
  | halted => exact absurd rfl alive
  | returned =>
    refine ⟨asleep, ⟨before.nodup, fun call member => Nat.lt_succ_of_lt (before.old call member),
      fun call => ?_⟩, rfl⟩
    rcases eq_or_ne call s.started with rfl | other
    · simp [Progress.phase, fresh]
    · simp [other, before.calls]
  | sleeping ms =>
    refine ⟨s.started :: asleep, ⟨List.nodup_cons.mpr ⟨fresh, before.nodup⟩, fun call member => ?_,
      fun call => ?_⟩, rfl⟩
    · rcases List.mem_cons.mp member with rfl | older
      · exact Nat.lt_succ_self _
      · exact Nat.lt_succ_of_lt (before.old call older)
    · rcases eq_or_ne call s.started with rfl | other
      · simp [Progress.phase]
      · simp [other, before.calls]

theorem shellInput_returned {c : UInt8} (other : c ≠ newline)
    (result : shellInput env c os = some (os', progress)) : progress = .returned := by
  rw [shellInput, if_neg other] at result
  split_ifs at result
  all_goals
    cases result
    rfl

/-- What the system does in one step when commands are not interrupted is a run of this one. -/
theorem ShellStep.nested (taken : ShellStep L a op b) (same : s.os = a.os) (before : s.Asleep asleep)
    (count : asleep.length = a.blocked) : ∃ ops t asleep', Run (NestedStep L) s ops t ∧
      t.os = b.os ∧ t.Asleep asleep' ∧ asleep'.length = b.blocked := by
  obtain ⟨os₀, n⟩ := a
  obtain rfl : s.os = os₀ := same
  cases taken with
  | @key env c os progress key result alive =>
    by_cases enter : c = newline
    · rw [shellInput, if_pos enter] at result
      obtain ⟨k, run⟩ := executeCommand_nested (L := L) result alive
      obtain ⟨asleep', after, length⟩ := before.enter os alive
      exact ⟨_, _, asleep', run, rfl, after, by rw [length, count]⟩
    · obtain rfl := shellInput_returned enter result
      exact ⟨_, _, asleep, .single (.key key enter result), rfl, before.withOs os, count⟩
  | @wake n os waiting result =>
    -- any of the calls that sleep
    obtain ⟨call, rest, rfl⟩ : ∃ call rest, asleep = call :: rest :=
      List.exists_cons_of_length_pos (by rw [count, waiting]; exact Nat.succ_pos n)
    rw [afterSleep, Option.bind_eq_bind] at result
    obtain ⟨os₁, woken, ended⟩ := Option.bind_eq_some_iff.mp result
    have here : s.calls call = some .sleeping := by simp [before.calls]
    let env : Env := ⟨0, 0, fun _ => 0⟩
    have wakes : continueCall env s.os .sleeping = some (os₁, some .finishing) := by
      rw [continueCall, woken]
      rfl
    have ends : continueCall env os₁ .finishing = some (os, none) := by simp [continueCall, ended]
    have first := NestedStep.advance (L := L) here wakes
    have second := NestedStep.advance (L := L) (s := s.goOn call os₁ (some .finishing))
      NestedShell.goOn_self ends
    refine ⟨_, _, rest, .cons first (.single second), rfl, ?_, Nat.succ.inj (count.trans waiting)⟩
    obtain ⟨fresh, nodup⟩ := List.nodup_cons.mp before.nodup
    refine ⟨nodup, fun other member => before.old other (.tail _ member), fun other => ?_⟩
    rcases eq_or_ne other call with rfl | different
    · simp [fresh]
    · simp [different, before.calls]
  | @tasks mem change =>
    exact ⟨_, _, asleep, .single (.tasks change), rfl, before.withOs _, count⟩

/-- The same for runs. -/
theorem ShellStep.nested_run (run : Run (ShellStep L) a ops b) (same : s.os = a.os)
    (before : s.Asleep asleep) (count : asleep.length = a.blocked) : ∃ ops t asleep',
      Run (NestedStep L) s ops t ∧ t.os = b.os ∧ t.Asleep asleep' ∧ asleep'.length = b.blocked := by
  induction run generalizing s asleep with
  | nil => exact ⟨[], s, asleep, .nil s, same, before, count⟩
  | cons taken _ ih =>
    obtain ⟨first, t, asleep₁, run, same', after, count'⟩ := taken.nested same before count
    obtain ⟨rest, u, asleep₂, run', final⟩ := ih same' after count'
    exact ⟨first ++ rest, u, asleep₂, run.append run', final⟩

/-- Every state of the shell in which commands are not interrupted is one of this system, with as
many calls asleep. -/
theorem shell_runs_nested (reach : ShellReachable L a) : ∃ os ops t asleep, Booted.Idle L os ∧
    Run (NestedStep L) (.idle os) ops t ∧ t.os = a.os ∧ t.Asleep asleep ∧
      asleep.length = a.blocked := by
  obtain ⟨os, before, idle, run⟩ := reach
  have none_ : (NestedShell.idle os).Asleep [] := ⟨.nil, by simp, fun _ => rfl⟩
  obtain ⟨ops, t, asleep, run', final⟩ := ShellStep.nested_run run rfl none_ rfl
  exact ⟨os, ops, t, asleep, idle, run', final⟩

/-! ### A command that sleeps -/

/-- `testdelay` waits, and leaves its line in the buffer. -/
theorem ShellInv.delay (inv : ShellInv L os) (env : Env) (line : os.line = ascii "testdelay") :
    ∃ os', executeCommand env os = some (os', .sleeping 2000) ∧ os'.line = ascii "testdelay" ∧
      ShellInv L os' := by
  obtain ⟨os', progress, result, executed⟩ := executeCommand_executed inv.store inv.edit env
  obtain ⟨file, -, effect⟩ := executed.effect
  have sleeps : progress = .sleeping 2000 := by
    rw [executed.ended, line]
    decide
  subst sleeps
  have kept := (executed.blocked (by decide)).1
  exact ⟨os', result, kept.trans line, effect.inv inv.store, executed.edit inv.edit⟩

theorem shell_runs_nested_delay : ∃ os ops t call, Booted.Idle bootLayout os ∧
    Run (NestedStep bootLayout) (.idle os) ops t ∧ t.os.line = ascii "testdelay" ∧
      t.calls call = some .sleeping := by
  obtain ⟨os, idle⟩ := kernelMain_idle (L := bootLayout) rfl
  obtain ⟨inv, empty⟩ := idle.inv
  have letters : ∀ c ∈ ascii "testdelay", Plain c := List.all_iff_forall_prop.mp (by decide)
  have fits : (os.line ++ ascii "testdelay").length ≤ 255 := by
    rw [empty]
    decide
  obtain ⟨os₁, -, typed, run⟩ := typeKeys_typed bootLayout ⟨0, 0, fun _ => 0⟩ 0 inv.edit letters fits
  have line : os₁.line = ascii "testdelay" := by rw [typed.line, empty, List.nil_append]
  have inv₁ : ShellInv bootLayout os₁ := ⟨typed.store ▸ inv.store, typed.edit⟩
  obtain ⟨os₂, result, kept, -⟩ := inv₁.delay ⟨0, 0, fun _ => 0⟩ line
  have alive : Progress.sleeping 2000 ≠ .halted := by decide
  have enter : ShellStep bootLayout ⟨os₁, 0⟩ (.key ⟨0, 0, fun _ => 0⟩ newline) ⟨os₂, 1⟩ :=
    .key (by decide) ((if_pos rfl).trans result) alive
  obtain ⟨os', ops, t, asleep, idle', run', same, after, count⟩ :=
    shell_runs_nested (idle.reachable.run (run.append (.single enter)))
  obtain ⟨call, rfl⟩ := List.length_eq_one_iff.mp count
  exact ⟨os', ops, t, call, idle', run', same ▸ kept, by simp [after.calls]⟩

end FriscaOS
