import FriscaOS.Lib.Transition
import Mathlib.Logic.Function.Basic

/-!
# Preemption by nested timer interrupts

The scheduler at the grain of its atomic steps: the delivery of a timer interrupt on the stack
in use, the `sti` of `irq0_handler`, the update of `current_task` in `task_schedule`, the two
transfers of ESP in `switch_to_task`, and the return from the interrupt. A stack is the list of
its activations, so that a stack pointer is a task and a height on the stack of that task.

## Main result

`contexts_preserved`: while no timer interrupt is delivered between the update of
`current_task` and the switch, every suspended task is found again at its last context.
`nested_switch_breaks` shows that such a delivery is never harmless.
-/
namespace FriscaOS

open Transition Function

structure StackPtr where
  owner : Nat
  height : Nat
  deriving DecidableEq, Repr

/-- How far an activation of `irq0_handler` has come. -/
inductive Irq0Stage
  -- before `sti`
  | entered
  -- after `sti`, before `task_schedule` changes anything
  | enabled
  -- `current_task` is updated, and `&old_task->esp` and `new_esp` are on the stack
  | scheduled (oldTask : Nat) (newEsp : Option StackPtr)
  -- `task_schedule` has returned
  | returned
  deriving DecidableEq, Repr

inductive Frame
  -- the code of the task itself
  | code
  | irq0 (stage : Irq0Stage)
  -- the registers pushed by `switch_to_task` or written by `create_task`, with the
  -- interrupt flag of the EFLAGS among them
  | context (interruptFlag : Bool)
  deriving DecidableEq, Repr

/-- The scheduler's variables and the stacks. Task 0 is `main_task`. -/
structure Scheduler where
  count : Nat
  next : Nat → Nat
  -- the `esp` fields; `none` is the 0 that `task_init` stores
  esp : Nat → Option StackPtr
  currentTask : Nat
  taskList : Nat
  -- the activations on the stack of each task, the topmost first
  stackOf : Nat → List Frame
  -- the task on whose stack the CPU executes, if it is on the stack of one
  running : Option Nat
  interrupts : Bool
  -- the height of the last context saved by each task, or of its initial frame
  lastSaved : Nat → Option Nat

namespace Scheduler

def taskInit : Scheduler where
  count := 1
  next := fun _ => 0
  esp := fun _ => none
  currentTask := 0
  taskList := 0
  stackOf := fun t => if t = 0 then [.code] else []
  running := some 0
  interrupts := true
  lastSaved := fun _ => none

/-! ### Steps -/

/-- A step of the activation on top of the stack in use. -/
def atTop (m : Scheduler) (act : Nat → Frame → List Frame → Option Scheduler) :
    Option Scheduler :=
  match m.running with
  | none => none
  | some o =>
    match m.stackOf o with
    | [] => none
    | f :: rest => act o f rest

/-- `new_task->next = task_list->next; task_list->next = new_task;` -/
def insertAfter (next : Nat → Nat) (head new : Nat) : Nat → Nat :=
  update (update next new (next head)) head new

/-- `create_task`, called by the running task: the new task starts from an initial frame with
the interrupt flag set, and comes after the head of the ring. -/
def createTask (m : Scheduler) : Option Scheduler := m.atTop fun _ f _ =>
  match f with
  | .code => some { m with
      count := m.count + 1
      next := insertAfter m.next m.taskList m.count
      esp := update m.esp m.count (some ⟨m.count, 2⟩)
      stackOf := update m.stackOf m.count [.context true, .code]
      lastSaved := update m.lastSaved m.count (some 2) }
  | _ => none

/-- The CPU enters `irq0_handler` on the stack in use and clears the interrupt flag. -/
def timer (m : Scheduler) : Option Scheduler := m.atTop fun o f rest =>
  if m.interrupts then
    some { m with stackOf := update m.stackOf o (.irq0 .entered :: f :: rest), interrupts := false }
  else none

def sti (m : Scheduler) : Option Scheduler := m.atTop fun o f rest =>
  match f with
  | .irq0 .entered =>
    some { m with stackOf := update m.stackOf o (.irq0 .enabled :: rest), interrupts := true }
  | _ => none

/-- `task_schedule` up to its call of `switch_to_task`, which it leaves out when the next task
is the same. -/
def taskSchedule (m : Scheduler) : Option Scheduler := m.atTop fun o f rest =>
  match f with
  | .irq0 .enabled =>
    -- whoever owns the stack in use, the source trusts `current_task`
    let oldTask := m.currentTask
    let newTask := m.next oldTask
    let stage := if oldTask ≠ newTask then .scheduled oldTask (m.esp newTask) else .returned
    some { m with stackOf := update m.stackOf o (.irq0 stage :: rest), currentTask := newTask }
  | _ => none

/-- The activations at and below a height of a stack. -/
def framesAt (frames : List Frame) (height : Nat) : List Frame :=
  if height ≤ frames.length then frames.drop (frames.length - height) else []

/-- The `ret` of `switch_to_task`: into `task_schedule`, which returns at once, or into the
entry point of a new task. -/
def returnFromSwitch : List Frame → List Frame
  | .irq0 (.scheduled _ _) :: rest => .irq0 .returned :: rest
  | frames => frames

/-- `mov esp, new_esp` and the pops: where there is no context at the new stack pointer, the CPU
executes on the stack of no task. -/
def load (m : Scheduler) (newEsp : Option StackPtr) : Scheduler :=
  match newEsp with
  | none => { m with running := none }
  | some p =>
    match framesAt (m.stackOf p.owner) p.height with
    | .context flag :: rest =>
      { m with
        stackOf := update m.stackOf p.owner (returnFromSwitch rest)
        running := some p.owner
        interrupts := flag }
    | _ => { m with running := none }

/-- The pushes of `switch_to_task` on the stack of `o`, and `*old_esp = esp`. -/
def save (m : Scheduler) (o oldTask : Nat) : Scheduler :=
  let frames := .context m.interrupts :: m.stackOf o
  { m with
    stackOf := update m.stackOf o frames
    esp := update m.esp oldTask (some ⟨o, frames.length⟩)
    lastSaved := update m.lastSaved o (some frames.length) }

def switchToTask (m : Scheduler) : Option Scheduler := m.atTop fun o f _ =>
  match f with
  | .irq0 (.scheduled oldTask newEsp) => some ((m.save o oldTask).load newEsp)
  | _ => none

/-- `cli`, `popa` and `iretd`: the interrupted code had interrupts enabled. -/
def iretd (m : Scheduler) : Option Scheduler := m.atTop fun o f rest =>
  match f with
  | .irq0 .returned => some { m with stackOf := update m.stackOf o rest, interrupts := true }
  | _ => none

inductive Action
  | createTask
  | timer
  | sti
  | taskSchedule
  | switchToTask
  | iretd
  deriving DecidableEq, Repr

def step (m : Scheduler) : Action → Option Scheduler
  | .createTask => m.createTask
  | .timer => m.timer
  | .sti => m.sti
  | .taskSchedule => m.taskSchedule
  | .switchToTask => m.switchToTask
  | .iretd => m.iretd

def Step (m : Scheduler) (a : Action) (m' : Scheduler) : Prop := m.step a = some m'

variable {m m' : Scheduler} {o t : Nat}

theorem atTop_some {act : Nat → Frame → List Frame → Option Scheduler} :
    m.atTop act = some m' ↔
      ∃ o f rest, m.running = some o ∧ m.stackOf o = f :: rest ∧ act o f rest = some m' := by
  rw [atTop]
  cases m.running with
  | none => simp
  | some o =>
    cases top : m.stackOf o with
    | nil => simp [top]
    | cons f rest =>
      simp only [top]
      constructor
      · exact fun taken => ⟨o, f, rest, rfl, top, taken⟩
      · rintro ⟨o', f', rest', same, top', taken⟩
        obtain rfl := Option.some.inj same
        rw [top, List.cons.injEq] at top'
        obtain ⟨rfl, rfl⟩ := top'
        exact taken

/-- The state after a sequence of steps, if each of them can be taken. -/
def exec (m : Scheduler) (as : List Action) : Option Scheduler := as.foldlM step m

theorem run_exec {as : List Action} (ends : m.exec as = some m') : Run Step m as m' :=
  .of_foldlM ends

/-! ### The property -/

/-- The `esp` field of every task whose stack is not in use points to the last context that the
task saved, on top of its own stack. -/
def ContextsPreserved (m : Scheduler) : Prop :=
  ∀ t < m.count, m.running ≠ some t →
    ∃ flag rest, m.stackOf t = .context flag :: rest ∧
      m.esp t = some ⟨t, rest.length + 1⟩ ∧ m.lastSaved t = some (rest.length + 1)

/-- The activation on top of the stack in use has updated `current_task` to another task and
has not switched yet. -/
def Switching (m : Scheduler) : Prop :=
  ∃ o oldTask newEsp rest, m.running = some o ∧
    m.stackOf o = .irq0 (.scheduled oldTask newEsp) :: rest

/-- No timer interrupt is delivered while the scheduler is switching. -/
def Allowed (m : Scheduler) (a : Action) : Prop := a = .timer → ¬m.Switching

/-! ### The invariant -/

/-- No activation on the stack is in the middle of `task_schedule`. -/
def Settled (frames : List Frame) : Prop :=
  ∀ oldTask newEsp, .irq0 (.scheduled oldTask newEsp) ∉ frames

/-- The stack in use: `current_task` names its owner, except for an activation on top that is
about to switch away from it. -/
inductive Executing (m : Scheduler) (o : Nat) : Prop
  | settled : m.currentTask = o → Settled (m.stackOf o) → Executing m o
  | switching (rest) : m.stackOf o = .irq0 (.scheduled o (m.esp m.currentTask)) :: rest →
      Settled rest → m.currentTask = m.next o → m.currentTask ≠ o → Executing m o

/-- A suspended task: its last context is on top of its stack, and `esp` points to it. -/
structure Parked (m : Scheduler) (t : Nat) (flag : Bool) (rest : List Frame) : Prop where
  stack : m.stackOf t = .context flag :: rest
  esp : m.esp t = some ⟨t, rest.length + 1⟩
  lastSaved : m.lastSaved t = some (rest.length + 1)
  resumed : Settled (returnFromSwitch rest)

/-- Among the first `n` tasks, each comes right after one other only. -/
structure Ring (n : Nat) (next : Nat → Nat) : Prop where
  closed : ∀ t < n, next t < n
  injective : ∀ t < n, ∀ u < n, next t = next u → t = u

structure Inv (m : Scheduler) (o : Nat) : Prop where
  running : m.running = some o
  task : o < m.count
  listed : m.taskList < m.count
  ring : Ring m.count m.next
  own : ∀ t p, m.esp t = some p → p.owner = t
  executing : m.Executing o
  parked : ∀ t < m.count, t ≠ o → ∃ flag rest, m.Parked t flag rest

theorem inv_taskInit : taskInit.Inv 0 where
  running := rfl
  task := by decide
  listed := by decide
  ring := ⟨fun _ _ => Nat.one_pos, fun t ht u hu _ => by
    have one : taskInit.count = 1 := rfl
    omega⟩
  own := fun _ _ none => nomatch none
  executing := .settled rfl fun _ _ member => by simp [taskInit] at member
  parked := fun t ht other => by
    have one : taskInit.count = 1 := rfl
    omega

/-! ### Frames of a step -/

theorem Settled.tail {f : Frame} {rest : List Frame} (settled : Settled (f :: rest)) :
    Settled rest :=
  fun oldTask newEsp member => settled oldTask newEsp (List.mem_cons_of_mem f member)

theorem Settled.cons {f : Frame} {rest : List Frame} (settled : Settled rest)
    (done : ∀ oldTask newEsp, f ≠ .irq0 (.scheduled oldTask newEsp)) : Settled (f :: rest) := by
  intro oldTask newEsp member
  rcases List.mem_cons.mp member with same | later
  · exact done oldTask newEsp same.symm
  · exact settled oldTask newEsp later

/-- Unless the top of the stack in use is about to switch, `current_task` names its owner. -/
theorem Inv.settled (inv : m.Inv o) {f : Frame} {rest : List Frame}
    (top : m.stackOf o = f :: rest) (done : ∀ oldTask newEsp, f ≠ .irq0 (.scheduled oldTask newEsp)) :
    m.currentTask = o ∧ Settled (f :: rest) := by
  cases inv.executing with
  | settled current settled => exact ⟨current, top ▸ settled⟩
  | switching rest' here =>
    rw [top, List.cons.injEq] at here
    exact absurd here.1 (done _ _)

/-- A parked task stays parked under changes elsewhere. -/
theorem Parked.congr {flag : Bool} {rest : List Frame} (parked : m.Parked t flag rest)
    (stack : m'.stackOf t = m.stackOf t) (esp : m'.esp t = m.esp t)
    (lastSaved : m'.lastSaved t = m.lastSaved t) : m'.Parked t flag rest :=
  ⟨stack.trans parked.stack, esp.trans parked.esp, lastSaved.trans parked.lastSaved,
    parked.resumed⟩

/-- A change on top of the stack in use concerns the task that uses it only. -/
theorem Inv.replace (inv : m.Inv o) {frames : List Frame} {current : Nat} {flag : Bool}
    (executing : Executing { m with
      stackOf := update m.stackOf o frames, currentTask := current, interrupts := flag } o) :
    Inv { m with
      stackOf := update m.stackOf o frames, currentTask := current, interrupts := flag } o where
  running := inv.running
  task := inv.task
  listed := inv.listed
  ring := inv.ring
  own := inv.own
  executing := executing
  parked := fun t ht other => by
    obtain ⟨flag, rest, parked⟩ := inv.parked t ht other
    exact ⟨flag, rest, parked.congr (update_of_ne other frames m.stackOf) rfl rfl⟩

theorem Executing.of_settled {frames : List Frame} {flag : Bool} (settled : Settled frames) :
    Executing { m with
      stackOf := update m.stackOf o frames, currentTask := o, interrupts := flag } o :=
  .settled rfl (by simpa using settled)

/-! ### What each step preserves -/

theorem Inv.timer (inv : m.Inv o) (outside : ¬m.Switching) (taken : m.timer = some m') :
    m'.Inv o := by
  obtain ⟨o', f, rest, running, top, delivered⟩ := atTop_some.mp taken
  obtain rfl : o = o' := Option.some.inj (inv.running.symm.trans running)
  split at delivered
  · obtain rfl := Option.some.inj delivered
    -- the interrupted activation is not about to switch: that is the condition
    have done (oldTask newEsp) : f ≠ .irq0 (.scheduled oldTask newEsp) := by
      rintro rfl
      exact outside ⟨o, oldTask, newEsp, rest, running, top⟩
    obtain ⟨current, settled⟩ := inv.settled top done
    rw [current]
    exact inv.replace (.of_settled (settled.cons (by simp)))
  · cases delivered

theorem Inv.sti (inv : m.Inv o) (taken : m.sti = some m') : m'.Inv o := by
  obtain ⟨o', f, rest, running, top, enabled⟩ := atTop_some.mp taken
  obtain rfl : o = o' := Option.some.inj (inv.running.symm.trans running)
  split at enabled
  · obtain rfl := Option.some.inj enabled
    obtain ⟨current, settled⟩ := inv.settled top (by simp)
    rw [current]
    exact inv.replace (.of_settled (settled.tail.cons (by simp)))
  · cases enabled

theorem Inv.iretd (inv : m.Inv o) (taken : m.iretd = some m') : m'.Inv o := by
  obtain ⟨o', f, rest, running, top, left⟩ := atTop_some.mp taken
  obtain rfl : o = o' := Option.some.inj (inv.running.symm.trans running)
  split at left
  · obtain rfl := Option.some.inj left
    obtain ⟨current, settled⟩ := inv.settled top (by simp)
    rw [current]
    exact inv.replace (.of_settled settled.tail)
  · cases left

theorem Inv.taskSchedule (inv : m.Inv o) (taken : m.taskSchedule = some m') : m'.Inv o := by
  obtain ⟨o', f, rest, running, top, updated⟩ := atTop_some.mp taken
  obtain rfl : o = o' := Option.some.inj (inv.running.symm.trans running)
  split at updated
  · obtain rfl := Option.some.inj updated
    obtain ⟨current, settled⟩ := inv.settled top (by simp)
    rw [current]
    apply inv.replace
    by_cases same : o = m.next o
    · -- a ring of one task: there is nothing to switch to
      simp only [← same, ne_eq, not_true_eq_false, ↓reduceIte]
      exact .of_settled (settled.tail.cons (by simp))
    · simp only [ne_eq, same, not_false_eq_true, ↓reduceIte]
      exact .switching rest (by simp) settled.tail rfl fun here => same here.symm
  · cases updated

/-- Loading the stack pointer of a context on top of a stack resumes the activation below. -/
theorem load_context {flag : Bool} {rest : List Frame} (stack : m.stackOf t = .context flag :: rest) :
    m.load (some ⟨t, rest.length + 1⟩) = { m with
      stackOf := update m.stackOf t (returnFromSwitch rest)
      running := some t
      interrupts := flag } := by
  simp [load, framesAt, stack]

/-- Saving parks the task that executes, if it saves to its own `esp` field. -/
theorem parked_save {rest : List Frame} {oldTask : Nat} {newEsp : Option StackPtr}
    (top : m.stackOf o = .irq0 (.scheduled oldTask newEsp) :: rest) (settled : Settled rest) :
    (m.save o o).Parked o m.interrupts (.irq0 (.scheduled oldTask newEsp) :: rest) where
  stack := by simp [save, top]
  esp := by simp [save, top]
  lastSaved := by simp [save, top]
  resumed := settled.cons (by simp)

theorem Parked.save {flag : Bool} {rest : List Frame} (parked : m.Parked t flag rest)
    (other : t ≠ o) : (m.save o o).Parked t flag rest := by
  apply parked.congr
  all_goals simp [Scheduler.save, other]

/-- The switch parks the task that was running and resumes the one `current_task` names. -/
theorem Inv.switchToTask (inv : m.Inv o) (taken : m.switchToTask = some m') :
    m'.Inv m.currentTask := by
  obtain ⟨o', f, rest, running, top, switched⟩ := atTop_some.mp taken
  obtain rfl : o = o' := Option.some.inj (inv.running.symm.trans running)
  split at switched
  case h_2 => cases switched
  case h_1 oldTask newEsp =>
    cases inv.executing with
    | settled current settled => exact absurd (top ▸ .head rest) (settled oldTask newEsp)
    | switching rest' here settled current other =>
      -- the window: `old_task` is the owner of the stack, and `new_esp` is the parked task's
      rw [top, List.cons.injEq, Frame.irq0.injEq, Irq0Stage.scheduled.injEq] at here
      obtain ⟨⟨old, new⟩, tail⟩ := here
      subst oldTask rest'
      have exists_ : m.currentTask < m.count := current ▸ inv.ring.closed o inv.task
      obtain ⟨flag, frames, parked⟩ := inv.parked m.currentTask exists_ other
      rw [new, parked.esp, load_context (parked.save other).stack] at switched
      obtain rfl := Option.some.inj switched
      refine ⟨rfl, exists_, inv.listed, inv.ring, ?_, ?_, ?_⟩
      · intro t p found
        -- the one field that is written gets a pointer into the stack of its own task
        by_cases same : t = o
        · subst t
          simp only [save, update_self, Option.some.injEq] at found
          rw [← found]
        · exact inv.own t p (by simpa [save, same] using found)
      · exact .settled rfl (by simpa using parked.resumed)
      · intro t ht away
        by_cases same : t = o
        · subst t
          exact ⟨_, _, (parked_save top settled).congr (update_of_ne away _ _) rfl rfl⟩
        · obtain ⟨flag', frames', parked'⟩ := inv.parked t ht same
          exact ⟨_, _, (parked'.save same).congr (update_of_ne away _ _) rfl rfl⟩

theorem Ring.insertAfter {n head : Nat} {next : Nat → Nat} (ring : Ring n next)
    (member : head < n) : Ring (n + 1) (insertAfter next head n) where
  closed t ht := by
    have successor := ring.closed head member
    have closed := ring.closed t
    -- the new task points to the old successor of the head, the head to the new task
    unfold Scheduler.insertAfter update
    grind
  injective t ht u hu same := by
    have successor := ring.closed head member
    have closedT := ring.closed t
    have closedU := ring.closed u
    have injective := ring.injective
    unfold Scheduler.insertAfter update at same
    grind

/-- A new task is parked at its initial frame and in the ring. -/
theorem Inv.createTask (inv : m.Inv o) (taken : m.createTask = some m') : m'.Inv o := by
  obtain ⟨o', f, rest, running, top, created⟩ := atTop_some.mp taken
  obtain rfl : o = o' := Option.some.inj (inv.running.symm.trans running)
  split at created
  case h_2 => cases created
  case h_1 =>
    obtain rfl := Option.some.inj created
    obtain ⟨current, settled⟩ := inv.settled top (by simp)
    have old (t : Nat) (ht : t < m.count) : t ≠ m.count := Nat.ne_of_lt ht
    refine ⟨running, Nat.lt_succ_of_lt inv.task, Nat.lt_succ_of_lt inv.listed,
      inv.ring.insertAfter inv.listed, ?_, ?_, ?_⟩
    · intro t p found
      by_cases same : t = m.count
      · subst t
        simp only [update_self, Option.some.injEq] at found
        rw [← found]
      · exact inv.own t p (by simpa [same] using found)
    · exact .settled current (by simpa [old o inv.task, top] using settled)
    · intro t ht away
      by_cases same : t = m.count
      · subst t
        refine ⟨true, [.code], by simp, by simp, by simp, ?_⟩
        simp [returnFromSwitch, Settled]
      · have before : t < m.count := Nat.lt_of_le_of_ne (Nat.le_of_lt_succ ht) same
        obtain ⟨flag, frames, parked⟩ := inv.parked t before away
        exact ⟨flag, frames, parked.congr (by simp [same]) (by simp [same]) (by simp [same])⟩

/-- Outside the switching window every step keeps the invariant. -/
theorem Inv.step {a : Action} (inv : m.Inv o) (allowed : m.Allowed a) (taken : m.Step a m') :
    ∃ o', m'.Inv o' := by
  cases a with
  | createTask => exact ⟨o, inv.createTask taken⟩
  | timer => exact ⟨o, inv.timer (allowed rfl) taken⟩
  | sti => exact ⟨o, inv.sti taken⟩
  | taskSchedule => exact ⟨o, inv.taskSchedule taken⟩
  | switchToTask => exact ⟨m.currentTask, inv.switchToTask taken⟩
  | iretd => exact ⟨o, inv.iretd taken⟩

theorem Inv.contextsPreserved (inv : m.Inv o) : m.ContextsPreserved := by
  intro t ht away
  have other : t ≠ o := fun same => away (same ▸ inv.running)
  obtain ⟨flag, rest, parked⟩ := inv.parked t ht other
  exact ⟨flag, rest, parked.stack, parked.esp, parked.lastSaved⟩

/-- Along every run without a timer interrupt in the switching window there is an owner of the
stack in use that satisfies the invariant. -/
theorem inv_of_run {as : List Action} (run : Run (Guarded Step Allowed) taskInit as m) :
    ∃ o, m.Inv o :=
  run.invariant (fun m => ∃ o, m.Inv o) (fun _ _ _ ⟨_, inv⟩ ⟨allowed, taken⟩ =>
    inv.step allowed taken) ⟨0, inv_taskInit⟩

/-- In every run that delivers no timer interrupt in the switching window, every suspended task
is found at its last context. -/
theorem contexts_preserved {as : List Action} (run : Run (Guarded Step Allowed) taskInit as m) :
    m.ContextsPreserved := by
  obtain ⟨o, inv⟩ := inv_of_run run
  exact inv.contextsPreserved

/-- One interrupt that switches from `main_task` to a new task. -/
theorem contexts_preserved_once : ∃ m : Scheduler, Run (Guarded Step Allowed) taskInit
    [.createTask, .timer, .sti, .taskSchedule, .switchToTask] m ∧ m.running = some 1 ∧
      m.ContextsPreserved := by
  have outside (m : Scheduler) (code : m.stackOf 0 = [.code]) (main : m.running = some 0) :
      ¬m.Switching := by
    rintro ⟨o, _, _, _, running, top⟩
    obtain rfl : 0 = o := Option.some.inj (main.symm.trans running)
    rw [code] at top
    cases top
  let m₁ := (taskInit.step .createTask).getD taskInit
  let m₂ := (m₁.step .timer).getD m₁
  let m₃ := (m₂.step .sti).getD m₂
  let m₄ := (m₃.step .taskSchedule).getD m₃
  have created : Guarded Step Allowed taskInit .createTask m₁ := ⟨nofun, rfl⟩
  have delivered : Guarded Step Allowed m₁ .timer m₂ := ⟨fun _ => outside m₁ rfl rfl, rfl⟩
  have enabled : Guarded Step Allowed m₂ .sti m₃ := ⟨nofun, rfl⟩
  have updated : Guarded Step Allowed m₃ .taskSchedule m₄ := ⟨nofun, rfl⟩
  have switched : Guarded Step Allowed m₄ .switchToTask _ := ⟨nofun, rfl⟩
  have run := Run.cons created (.cons delivered (.cons enabled (.cons updated (.single switched))))
  exact ⟨_, run, rfl, contexts_preserved run⟩

/-- With one created task, a timer interrupt in the switching window of `main_task` saves the
stack pointer of `main_task` as that of the created task. -/
theorem not_contexts_preserved_nested :
    ∃ m, Run Step taskInit [.createTask, .timer, .sti, .taskSchedule,
        .timer, .sti, .taskSchedule, .switchToTask] m ∧
      m.count = 2 ∧ m.esp 1 = some ⟨0, 4⟩ ∧ ¬m.ContextsPreserved := by
  refine ⟨_, run_exec rfl, rfl, rfl, fun preserved => ?_⟩
  obtain ⟨_, _, _, esp, _⟩ := preserved 1 (by decide) (by decide)
  have owner : (0 : Nat) = 1 := congrArg StackPtr.owner (Option.some.inj esp)
  cases owner

/-! ### The switching window -/

@[simp] theorem load_esp (newEsp : Option StackPtr) : (m.load newEsp).esp = m.esp := by
  unfold load
  split
  · rfl
  · split <;> rfl

@[simp] theorem load_count (newEsp : Option StackPtr) : (m.load newEsp).count = m.count := by
  unfold load
  split
  · rfl
  · split <;> rfl

theorem load_running {newEsp : Option StackPtr} (runs : (m.load newEsp).running = some t) :
    ∃ p, newEsp = some p ∧ p.owner = t := by
  unfold load at runs
  split at runs
  · cases runs
  · split at runs
    · exact ⟨_, rfl, Option.some.inj runs⟩
    · cases runs

/-- The four steps of a nested activation that starts in the switching window. -/
theorem nested_steps {oldTask : Nat} {newEsp : Option StackPtr} {rest : List Frame}
    (running : m.running = some o) (enabled : m.interrupts = true)
    (top : m.stackOf o = .irq0 (.scheduled oldTask newEsp) :: rest)
    (other : m.currentTask ≠ m.next m.currentTask) :
    ∃ m' : Scheduler, Run Step m [.timer, .sti, .taskSchedule, .switchToTask]
        (m'.load (m.esp (m.next m.currentTask))) ∧
      m'.count = m.count ∧ (m'.esp m.currentTask).map StackPtr.owner = some o := by
  let frames := m.stackOf o
  let m₁ := { m with stackOf := update m.stackOf o (.irq0 .entered :: frames), interrupts := false }
  let m₂ := { m₁ with stackOf := update m₁.stackOf o (.irq0 .enabled :: frames), interrupts := true }
  let stage := Irq0Stage.scheduled m.currentTask (m.esp (m.next m.currentTask))
  let m₃ := { m₂ with
    stackOf := update m₂.stackOf o (.irq0 stage :: frames), currentTask := m.next m.currentTask }
  have delivered : m.Step .timer m₁ :=
    atTop_some.mpr ⟨o, _, _, running, top, by simp [m₁, frames, enabled, top]⟩
  have reenabled : m₁.Step .sti m₂ := atTop_some.mpr ⟨o, _, _, running, update_self .., rfl⟩
  have updated : m₂.Step .taskSchedule m₃ :=
    atTop_some.mpr ⟨o, _, _, running, update_self .., by simp [m₃, m₂, m₁, stage, other]⟩
  have switched : m₃.Step .switchToTask _ :=
    atTop_some.mpr ⟨o, _, _, running, update_self .., rfl⟩
  refine ⟨m₃.save o m.currentTask, ?_, rfl, by simp [save]⟩
  exact .cons delivered (.cons reenabled (.cons updated (.single switched)))

/-- A timer interrupt that is delivered in the switching window, and whose activation of
`irq0_handler` reaches its own switch, overwrites the `esp` field of the task that was about
to run with a place on the stack of the task that was about to be suspended. -/
theorem nested_switch_breaks {as : List Action} (run : Run (Guarded Step Allowed) taskInit as m)
    (window : m.Switching) (enabled : m.interrupts = true) :
    ∃ m', Run Step m [.timer, .sti, .taskSchedule, .switchToTask] m' ∧ ¬m'.ContextsPreserved := by
  obtain ⟨o, inv⟩ := inv_of_run run
  obtain ⟨o', oldTask, newEsp, rest, running, top⟩ := window
  obtain rfl : o = o' := Option.some.inj (inv.running.symm.trans running)
  cases inv.executing with
  | settled _ settled => exact absurd (top ▸ .head rest) (settled oldTask newEsp)
  | switching _ _ _ current other =>
    have exists_ : m.currentTask < m.count := current ▸ inv.ring.closed o inv.task
    -- no task comes right after both `o` and the task that comes after `o`
    have onward : m.currentTask ≠ m.next m.currentTask := fun same =>
      other (inv.ring.injective _ exists_ o inv.task (same.symm.trans current))
    obtain ⟨m', steps, count, owner⟩ := nested_steps running enabled top onward
    refine ⟨_, steps, fun preserved => ?_⟩
    have suspended : (m'.load (m.esp (m.next m.currentTask))).running ≠ some m.currentTask := by
      intro runs
      obtain ⟨p, saved, same⟩ := load_running runs
      exact onward (same.symm.trans (inv.own _ p saved))
    obtain ⟨_, _, _, esp, _⟩ := preserved m.currentTask (by simpa [count] using exists_) suspended
    rw [load_esp] at esp
    rw [esp, Option.map_some, Option.some.injEq] at owner
    exact other owner

end Scheduler

end FriscaOS
