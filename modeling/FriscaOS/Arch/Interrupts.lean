import FriscaOS.Drivers.Timer
import FriscaOS.Lib.Pic8259
import FriscaOS.Lib.Transition
import FriscaOS.Task.Task
import Mathlib.Logic.Function.Basic

/-!
# Acknowledged interrupts

The interrupt flag and the master PIC, at the grain of the instructions of `irq0_handler`,
`irq1_handler` and `switch_to_task` that change, save or restore the flag or send an EOI. A stack
is the list of its activations, so that interrupts nest to any depth.

## Main result

`interrupts_acknowledged`: whenever the interrupt flag is set, no interrupt is in service. The
second EOI of `timer_handler_main` finds nothing to retire, and no line stays blocked.
-/
namespace FriscaOS

open Transition Function

namespace Interrupts

/-! ### The machine -/

inductive Irq
  | timer
  | keyboard
  deriving DecidableEq, Repr

/-- The line at the master PIC. -/
def Irq.line : Irq → Nat
  | timer => 0
  | keyboard => 1

/-- How far an activation of `irq0_handler` has come. -/
inductive Irq0Stage
  -- before the EOI of `timer_handler`
  | entered
  -- before the EOI of `timer_handler_main`
  | handled
  -- before the test of `need_reschedule`
  | acknowledged
  -- the flag is cleared
  | cleared
  -- after `sti`, before `task_schedule` changes anything
  | enabled
  -- `task_schedule` calls `switch_to_task`
  | scheduled
  -- `task_schedule` has returned
  | returned
  -- before `iretd`
  | leaving
  deriving DecidableEq, Repr

/-- How far an activation of `irq1_handler` has come. -/
inductive Irq1Stage
  -- before the EOI of `keyboard_handler_main`
  | entered
  -- before `sti`
  | acknowledged
  -- in `keyboard_handle_interrupt`, or on the way to `iretd`
  | enabled
  deriving DecidableEq, Repr

inductive Frame
  -- the code of the task itself
  | code
  -- the handlers, with the interrupt flag of the EFLAGS that the CPU pushed
  | irq0 (stage : Irq0Stage) (flag : Bool)
  | irq1 (stage : Irq1Stage) (flag : Bool)
  -- the registers pushed by `switch_to_task` or written by `create_task`, with the interrupt flag
  -- of the EFLAGS among them
  | saved (flag : Bool)
  -- the same, once ESP has been loaded with their address
  | loaded (flag : Bool)
  -- the registers that are left to pop after `popfd`
  | restored
  deriving DecidableEq, Repr

structure Machine where
  timer : Timer
  -- the lines in service at the master PIC
  inService : Finset Nat
  interrupts : Bool
  count : Nat
  -- the task on whose stack the CPU executes
  running : Nat
  -- the activations on the stack of each task, the topmost first
  stackOf : Nat → List Frame

/-- After `idt_init`: the PIC is initialised, and the code of `kernel_main` runs with interrupts
enabled. -/
def boot (timer : Timer) : Machine where
  timer := timer
  inService := ∅
  interrupts := true
  count := 1
  running := 0
  stackOf := fun t => if t = 0 then [.code] else []

/-- The interrupt flag of an EFLAGS register. -/
def interruptFlag (eflags : UInt32) : Bool := eflags &&& 0x200 ≠ 0

namespace Machine

def withTop (m : Machine) (frames : List Frame) : Machine :=
  { m with stackOf := update m.stackOf m.running frames }

/-- Of what the handlers send to ports, the master PIC takes 0x20 at port 0x20 for an EOI. -/
def outb (m : Machine) (port : UInt16) (value : UInt8) : Machine :=
  if port = 0x20 ∧ value = 0x20 then { m with inService := Pic8259.eoi m.inService } else m

end Machine

/-- The gate of an interrupt leads to its handler. -/
def Irq.handler : Irq → Bool → Frame
  | timer, flag => .irq0 .entered flag
  | keyboard, flag => .irq1 .entered flag

/-- The `ret` of `switch_to_task`: into `task_schedule`, which returns at once, or into the entry
point of a new task. -/
def Frame.returnFromSwitch : Frame → Frame
  | irq0 .scheduled flag => irq0 .returned flag
  | f => f

/-! ### Steps of the activation on top of the stack in use -/

namespace Machine

/-- The CPU accepts an interrupt. The gates are interrupt gates: it pushes EFLAGS and clears the
flag. -/
def deliver (m : Machine) (irq : Irq) : Option Machine :=
  if m.interrupts then
    some { m.withTop (irq.handler m.interrupts :: m.stackOf m.running) with
      inService := Pic8259.deliver m.inService irq.line, interrupts := false }
  else none

/-- `create_task`: EFLAGS is the last word of the initial frame. -/
def createTask (m : Machine) (entryPoint : UInt32) : Option Machine :=
  match m.stackOf m.running with
  | .code :: _ =>
    let flag := interruptFlag ((initialFrame entryPoint).getLastD 0)
    some { m with
      count := m.count + 1, stackOf := update m.stackOf m.count [.saved flag, .code] }
  | _ => none

/-- The call of `timer_handler`, with what it sends. -/
def timerHandler (m : Machine) : Option Machine :=
  match m.stackOf m.running with
  | .irq0 .entered flag :: rest =>
    let timer := FriscaOS.timerHandler m.timer
    let sent := timer.sent.drop m.timer.sent.length
    some (sent.foldl (fun m (port, value) => m.outb port value)
      { m.withTop (.irq0 .handled flag :: rest) with timer := timer })
  | _ => none

/-- The `outb(0x20, 0x20)` of `timer_handler_main` and of `keyboard_handler_main`. -/
def eoi (m : Machine) : Option Machine :=
  match m.stackOf m.running with
  | .irq0 .handled flag :: rest =>
    some ((m.withTop (.irq0 .acknowledged flag :: rest)).outb 0x20 0x20)
  | .irq1 .entered flag :: rest =>
    some ((m.withTop (.irq1 .acknowledged flag :: rest)).outb 0x20 0x20)
  | _ => none

def testReschedule (m : Machine) : Option Machine :=
  match m.stackOf m.running with
  | .irq0 .acknowledged flag :: rest =>
    if timerNeedsReschedule m.timer = 0 then some (m.withTop (.irq0 .leaving flag :: rest))
    else some { m.withTop (.irq0 .cleared flag :: rest) with timer := timerClearReschedule m.timer }
  | _ => none

def sti (m : Machine) : Option Machine :=
  match m.stackOf m.running with
  | .irq0 .cleared flag :: rest =>
    some { m.withTop (.irq0 .enabled flag :: rest) with interrupts := true }
  | .irq1 .acknowledged flag :: rest =>
    some { m.withTop (.irq1 .enabled flag :: rest) with interrupts := true }
  | _ => none

/-- `task_schedule` up to its call of `switch_to_task`, which it leaves out when there is no other
task. -/
def taskSchedule (m : Machine) (other : Bool) : Option Machine :=
  match m.stackOf m.running with
  | .irq0 .enabled flag :: rest =>
    some (m.withTop (.irq0 (if other then .scheduled else .returned) flag :: rest))
  | _ => none

/-- The pushes of `switch_to_task`, and `*old_esp = esp`. -/
def pushContext (m : Machine) : Option Machine :=
  match m.stackOf m.running with
  | .irq0 .scheduled flag :: rest =>
    some (m.withTop (.saved m.interrupts :: .irq0 .scheduled flag :: rest))
  | _ => none

/-- `mov esp, new_esp`. Which context that is, is left open: the stack of `owner` without the
activations above it. -/
def loadEsp (m : Machine) (owner above : Nat) : Option Machine :=
  match m.stackOf m.running with
  | .saved _ :: _ =>
    match (m.stackOf owner).drop above with
    | .saved flag :: rest =>
      some { m with running := owner, stackOf := update m.stackOf owner (.loaded flag :: rest) }
    -- a context is still there while an activation above it runs
    | .loaded flag :: rest =>
      some { m with running := owner, stackOf := update m.stackOf owner (.loaded flag :: rest) }
    | _ => none
  | _ => none

def popfd (m : Machine) : Option Machine :=
  match m.stackOf m.running with
  | .loaded flag :: rest => some { m.withTop (.restored :: rest) with interrupts := flag }
  | _ => none

/-- The other pops of `switch_to_task`, and its `ret`. -/
def ret (m : Machine) : Option Machine :=
  match m.stackOf m.running with
  | .restored :: f :: rest => some (m.withTop (f.returnFromSwitch :: rest))
  | _ => none

def cli (m : Machine) : Option Machine :=
  match m.stackOf m.running with
  | .irq0 .returned flag :: rest =>
    some { m.withTop (.irq0 .leaving flag :: rest) with interrupts := false }
  | _ => none

def iretd (m : Machine) : Option Machine :=
  match m.stackOf m.running with
  | .irq0 .leaving flag :: f :: rest => some { m.withTop (f :: rest) with interrupts := flag }
  | .irq1 .enabled flag :: f :: rest => some { m.withTop (f :: rest) with interrupts := flag }
  | _ => none

end Machine

inductive Action
  | deliver (irq : Irq)
  | createTask (entryPoint : UInt32)
  | timerHandler
  | eoi
  | testReschedule
  | sti
  | taskSchedule (other : Bool)
  | pushContext
  | loadEsp (owner above : Nat)
  | popfd
  | ret
  | cli
  | iretd
  deriving DecidableEq, Repr

def step (m : Machine) : Action → Option Machine
  | .deliver irq => m.deliver irq
  | .createTask entryPoint => m.createTask entryPoint
  | .timerHandler => m.timerHandler
  | .eoi => m.eoi
  | .testReschedule => m.testReschedule
  | .sti => m.sti
  | .taskSchedule other => m.taskSchedule other
  | .pushContext => m.pushContext
  | .loadEsp owner above => m.loadEsp owner above
  | .popfd => m.popfd
  | .ret => m.ret
  | .cli => m.cli
  | .iretd => m.iretd

def Step (m : Machine) (a : Action) (m' : Machine) : Prop := step m a = some m'

variable {m m' : Machine} {f g : Frame} {frames rest : List Frame} {a : Action} {t : Nat}

/-- With the flag set nothing is in service, an EOI that finds its interrupt retired retires no
other, and a line that is blocked is not blocked any more after the next step, whatever it is. -/
structure Acknowledged (m : Machine) : Prop where
  enabled : m.interrupts = true → m.inService = ∅
  second : ∀ flag rest m', m.stackOf m.running = .irq0 .handled flag :: rest → Step m .eoi m' →
    m.inService = ∅ ∧ m'.inService = ∅
  unblocked : ∀ k, Pic8259.Blocked m.inService k → (∃ a m', Step m a m') ∧
    ∀ a m', Step m a m' → ¬Pic8259.Blocked m'.inService k

/-! ### The invariant -/

/-- Between the gate or `cli` and `sti` or `iretd`. -/
def Frame.masked : Frame → Bool
  | irq0 .enabled _ | irq0 .scheduled _ | irq0 .returned _ | irq1 .enabled _ => false
  | irq0 .. | irq1 .. => true
  | _ => false

/-- The lines that an activation has not acknowledged yet. -/
def Frame.pending : Frame → Finset Nat
  | irq0 .entered _ => {Irq.timer.line}
  | irq1 .entered _ => {Irq.keyboard.line}
  | _ => ∅

/-- The flag that `iretd` or `popfd` will restore, if the activation ends in one. -/
def Frame.savedFlag : Frame → Bool
  | irq0 _ flag | irq1 _ flag | saved flag | loaded flag => flag
  | _ => true

/-- An activation that others may lie above, or that may be suspended. -/
structure Frame.Resumable (f : Frame) : Prop where
  unmasked : f.masked = false
  savedFlag : f.savedFlag = true

/-- The activation on top of the stack in use determines the flag and what is in service. -/
structure OnTop (m : Machine) (f : Frame) : Prop where
  interrupts : m.interrupts = !f.masked
  inService : m.inService = f.pending
  savedFlag : f.savedFlag = true

structure Inv (m : Machine) : Prop where
  top : ∃ f rest, m.stackOf m.running = f :: rest ∧ OnTop m f ∧ ∀ g ∈ rest, g.Resumable
  suspended : ∀ t ≠ m.running, ∀ g ∈ m.stackOf t, g.Resumable
  unused : ∀ t, m.count ≤ t → m.stackOf t = []

theorem inv_boot (timer : Timer) : Inv (boot timer) where
  top := ⟨.code, [], rfl, ⟨rfl, rfl, rfl⟩, by simp⟩
  suspended t other g member := by
    have empty : (boot timer).stackOf t = [] := if_neg other
    rw [empty] at member
    cases member
  unused t beyond := if_neg (Nat.ne_of_gt beyond)

/-- Only an activation that has not sent its EOI has something in service, with the flag clear. -/
theorem Frame.pending_masked (unmasked : f.masked = false) : f.pending = ∅ := by
  cases f with
  | irq0 stage flag => cases stage <;> first | rfl | cases unmasked
  | irq1 stage flag => cases stage <;> first | rfl | cases unmasked
  | _ => rfl

/-- An activation that may go on does so with the flag set and nothing in service. -/
theorem Frame.Resumable.onTop (resumable : f.Resumable) (enabled : m.interrupts = true)
    (nothing : m.inService = ∅) : OnTop m f where
  interrupts := by rw [enabled, resumable.unmasked, Bool.not_false]
  inService := nothing.trans (f.pending_masked resumable.unmasked).symm
  savedFlag := resumable.savedFlag

theorem Frame.Resumable.returnFromSwitch (resumable : f.Resumable) :
    f.returnFromSwitch.Resumable := by
  cases f with
  | irq0 stage flag => cases stage <;> exact ⟨resumable.unmasked, resumable.savedFlag⟩
  | _ => exact resumable

theorem Inv.at_top (inv : Inv m) (top : m.stackOf m.running = f :: rest) :
    OnTop m f ∧ ∀ g ∈ rest, g.Resumable := by
  obtain ⟨f', rest', top', here, below⟩ := inv.top
  rw [top, List.cons.injEq] at top'
  obtain ⟨rfl, rfl⟩ := top'
  exact ⟨here, below⟩

/-- A stack with an activation belongs to a task. -/
theorem Inv.used (inv : Inv m) (there : m.stackOf t = f :: rest) : t < m.count := by
  by_contra beyond
  rw [inv.unused t (Nat.le_of_not_lt beyond)] at there
  cases there

/-- Outside the masked stages the flag is set and nothing is in service. -/
theorem OnTop.unmasked (here : OnTop m f) (unmasked : f.masked = false) :
    m.interrupts = true ∧ m.inService = ∅ :=
  ⟨by rw [here.interrupts, unmasked, Bool.not_false],
    here.inService.trans (f.pending_masked unmasked)⟩

/-- While the flag is set every activation is resumable. -/
theorem Inv.resumable (inv : Inv m) (top : m.stackOf m.running = f :: rest)
    (unmasked : f.masked = false) : ∀ t, ∀ g ∈ m.stackOf t, g.Resumable := by
  obtain ⟨here, below⟩ := inv.at_top top
  intro t
  by_cases used : t = m.running
  · rw [used, top, List.forall_mem_cons]
    exact ⟨⟨unmasked, here.savedFlag⟩, below⟩
  · exact inv.suspended t used

/-- A step that leaves one stack changed, and goes on there. -/
theorem Inv.of_stack (inv : Inv m) (used : m'.running < m.count) (count : m'.count = m.count)
    (stack : m'.stackOf = update m.stackOf m'.running (g :: frames)) (here : OnTop m' g)
    (below : ∀ f ∈ frames, f.Resumable)
    (others : ∀ t ≠ m'.running, ∀ f ∈ m.stackOf t, f.Resumable) : Inv m' where
  top := ⟨g, frames, by rw [stack, update_self], here, below⟩
  suspended t other f member := by
    rw [stack, update_of_ne other] at member
    exact others t other f member
  unused t beyond := by
    rw [count] at beyond
    rw [stack, update_of_ne (Nat.ne_of_gt (used.trans_le beyond))]
    exact inv.unused t beyond

/-- A change on top of the stack in use. -/
theorem Inv.withTop (inv : Inv m) (running : m'.running = m.running) (count : m'.count = m.count)
    (stack : m'.stackOf = update m.stackOf m.running (g :: frames)) (here : OnTop m' g)
    (below : ∀ f ∈ frames, f.Resumable) : Inv m' := by
  obtain ⟨f, rest, top, -⟩ := inv.top
  rw [← running] at stack
  apply inv.of_stack _ count stack here below
  · rw [running]
    exact inv.suspended
  · rw [running]
    exact inv.used top

/-- The activation on top goes on to its next stage. -/
theorem Inv.next (inv : Inv m) (top : m.stackOf m.running = f :: rest)
    (stack : m'.stackOf = update m.stackOf m.running (g :: rest))
    (running : m'.running = m.running) (count : m'.count = m.count)
    (here : OnTop m f → OnTop m' g) : Inv m' := by
  obtain ⟨before, below⟩ := inv.at_top top
  exact inv.withTop running count stack (here before) below

/-! ### What each step preserves -/

/-- What a call of `timer_handler` sends is one EOI. -/
theorem sent_timerHandler (timer : Timer) :
    (timerHandler timer).sent.drop timer.sent.length = [(0x20, 0x20)] := by
  simp [timerHandler, Timer.outb]

theorem eoi_eq : m.outb 0x20 0x20 = { m with inService := Pic8259.eoi m.inService } := rfl

/-- The EOI of a handler retires the interrupt that it handles. -/
theorem eoi_line (k : Nat) : Pic8259.eoi {k} = (∅ : Finset Nat) :=
  Pic8259.eoi_deliver (s := ∅) (by simp)

theorem eoi_empty : Pic8259.eoi ∅ = (∅ : Finset Nat) := Pic8259.eoi_eq_self_iff.mpr rfl

theorem Inv.deliver {irq : Irq} (inv : Inv m) (taken : m.deliver irq = some m') : Inv m' := by
  unfold Machine.deliver at taken
  split at taken
  case isTrue enabled =>
    obtain rfl := Option.some.inj taken
    obtain ⟨f, rest, top, here, below⟩ := inv.top
    have unmasked : f.masked = false := by simpa [enabled] using here.interrupts
    have nothing : m.inService = ∅ := (here.unmasked unmasked).2
    have flag : (irq.handler m.interrupts).savedFlag = true := by cases irq <;> exact enabled
    refine inv.withTop rfl rfl rfl ⟨?_, ?_, flag⟩ ?_
    · cases irq <;> rfl
    · simp only [nothing]
      cases irq <;> rfl
    · exact inv.resumable top unmasked m.running
  case isFalse => cases taken

theorem interruptFlag_initialFrame (entryPoint : UInt32) :
    interruptFlag ((initialFrame entryPoint).getLastD 0) = true := by
  have eflags : (initialFrame entryPoint).getLastD 0 = 0x202 := rfl
  rw [eflags]
  decide

/-- A new task starts with the flag set. -/
theorem Inv.createTask {entryPoint : UInt32} (inv : Inv m)
    (taken : m.createTask entryPoint = some m') : Inv m' := by
  unfold Machine.createTask at taken
  split at taken <;> cases taken
  obtain ⟨f, rest, top, here, below⟩ := inv.top
  have used : m.running < m.count := inv.used top
  have new : ∀ g ∈ [Frame.saved (interruptFlag ((initialFrame entryPoint).getLastD 0)), .code],
      g.Resumable := by
    simp only [List.forall_mem_cons]
    exact ⟨⟨rfl, interruptFlag_initialFrame entryPoint⟩, ⟨rfl, rfl⟩, nofun⟩
  constructor
  case top =>
    refine ⟨f, rest, ?_, ⟨here.interrupts, here.inService, here.savedFlag⟩, below⟩
    exact (update_of_ne used.ne ..).trans top
  case suspended =>
    intro t other
    dsimp only
    by_cases same : t = m.count
    · rw [same, update_self]
      exact new
    · rw [update_of_ne same]
      exact inv.suspended t other
  case unused =>
    intro t beyond
    dsimp only at beyond ⊢
    rw [update_of_ne (Nat.ne_of_gt beyond)]
    exact inv.unused t (Nat.le_of_succ_le beyond)

/-- The EOI of `timer_handler` retires the timer interrupt. -/
theorem Inv.timerHandler (inv : Inv m) (taken : m.timerHandler = some m') : Inv m' := by
  unfold Machine.timerHandler at taken
  split at taken <;> cases taken
  rename_i top
  simp only [sent_timerHandler, List.foldl_cons, List.foldl_nil, eoi_eq]
  refine inv.next top rfl rfl rfl fun here => ⟨here.interrupts, ?_, here.savedFlag⟩
  exact (congrArg Pic8259.eoi here.inService).trans (eoi_line _)

/-- The EOI of `timer_handler_main` finds nothing in service, that of `keyboard_handler_main` the
keyboard interrupt. -/
theorem Inv.eoi (inv : Inv m) (taken : m.eoi = some m') : Inv m' := by
  unfold Machine.eoi at taken
  split at taken <;> cases taken
  · rename_i top
    rw [eoi_eq]
    refine inv.next top rfl rfl rfl fun here => ⟨here.interrupts, ?_, here.savedFlag⟩
    exact (congrArg Pic8259.eoi here.inService).trans eoi_empty
  · rename_i top
    rw [eoi_eq]
    refine inv.next top rfl rfl rfl fun here => ⟨here.interrupts, ?_, here.savedFlag⟩
    exact (congrArg Pic8259.eoi here.inService).trans (eoi_line _)

theorem Inv.testReschedule (inv : Inv m) (taken : m.testReschedule = some m') : Inv m' := by
  unfold Machine.testReschedule at taken
  split at taken
  case h_2 => cases taken
  case h_1 top =>
    split at taken <;> cases taken
    · exact inv.next top rfl rfl rfl fun here => ⟨here.interrupts, here.inService, here.savedFlag⟩
    · exact inv.next top rfl rfl rfl fun here => ⟨here.interrupts, here.inService, here.savedFlag⟩

theorem Inv.sti (inv : Inv m) (taken : m.sti = some m') : Inv m' := by
  unfold Machine.sti at taken
  split at taken <;> cases taken
  · rename_i top
    exact inv.next top rfl rfl rfl fun here => ⟨rfl, here.inService, here.savedFlag⟩
  · rename_i top
    exact inv.next top rfl rfl rfl fun here => ⟨rfl, here.inService, here.savedFlag⟩

theorem Inv.taskSchedule {other : Bool} (inv : Inv m) (taken : m.taskSchedule other = some m') :
    Inv m' := by
  unfold Machine.taskSchedule at taken
  split at taken <;> cases taken
  rename_i top
  cases other
  · exact inv.next top rfl rfl rfl fun here => ⟨here.interrupts, here.inService, here.savedFlag⟩
  · exact inv.next top rfl rfl rfl fun here => ⟨here.interrupts, here.inService, here.savedFlag⟩

/-- EFLAGS is pushed with the flag set. -/
theorem Inv.pushContext (inv : Inv m) (taken : m.pushContext = some m') : Inv m' := by
  unfold Machine.pushContext at taken
  split at taken <;> cases taken
  rename_i top
  obtain ⟨here, below⟩ := inv.at_top top
  obtain ⟨enabled, nothing⟩ := here.unmasked rfl
  have context : (Frame.saved m.interrupts).Resumable := ⟨rfl, enabled⟩
  refine inv.withTop rfl rfl rfl (context.onTop enabled nothing) ?_
  exact List.forall_mem_cons.mpr ⟨⟨rfl, here.savedFlag⟩, below⟩

/-- Whichever context is found, its flag is set. -/
theorem Inv.load {owner above : Nat} {flag : Bool} (inv : Inv m)
    (top : m.stackOf m.running = f :: rest) (unmasked : f.masked = false)
    (context : (m.stackOf owner).drop above = g :: frames) (same : g.savedFlag = flag) :
    Inv { m with
      running := owner, stackOf := update m.stackOf owner (.loaded flag :: frames) } := by
  have resumable := inv.resumable top unmasked
  have found : ∀ h ∈ g :: frames, h.Resumable := fun h member =>
    resumable owner h (List.mem_of_mem_drop (context ▸ member))
  obtain ⟨enabled, nothing⟩ := (inv.at_top top).1.unmasked unmasked
  have loaded : (Frame.loaded flag).Resumable :=
    ⟨rfl, same.symm.trans (found g (.head _)).savedFlag⟩
  have used : owner < m.count := by
    cases stack : m.stackOf owner with
    | nil => simp [stack] at context
    | cons f rest => exact inv.used stack
  refine inv.of_stack used rfl rfl (loaded.onTop enabled nothing) ?_ ?_
  · exact fun h member => found h (.tail _ member)
  · exact fun t _ => resumable t

theorem Inv.loadEsp {owner above : Nat} (inv : Inv m) (taken : m.loadEsp owner above = some m') :
    Inv m' := by
  unfold Machine.loadEsp at taken
  split at taken
  case h_2 => cases taken
  case h_1 top =>
    split at taken <;> cases taken
    · rename_i context
      exact inv.load top rfl context rfl
    · rename_i context
      exact inv.load top rfl context rfl

theorem Inv.popfd (inv : Inv m) (taken : m.popfd = some m') : Inv m' := by
  unfold Machine.popfd at taken
  split at taken <;> cases taken
  rename_i top
  exact inv.next top rfl rfl rfl fun here => ⟨here.savedFlag, here.inService, rfl⟩

theorem Inv.ret (inv : Inv m) (taken : m.ret = some m') : Inv m' := by
  unfold Machine.ret at taken
  split at taken <;> cases taken
  rename_i top
  obtain ⟨here, below⟩ := inv.at_top top
  obtain ⟨enabled, nothing⟩ := here.unmasked rfl
  obtain ⟨resumable, below⟩ := List.forall_mem_cons.mp below
  exact inv.withTop rfl rfl rfl (resumable.returnFromSwitch.onTop enabled nothing) below

theorem Inv.cli (inv : Inv m) (taken : m.cli = some m') : Inv m' := by
  unfold Machine.cli at taken
  split at taken <;> cases taken
  rename_i top
  exact inv.next top rfl rfl rfl fun here => ⟨rfl, here.inService, here.savedFlag⟩

/-- What was interrupted goes on with the flag set. -/
theorem Inv.resume (inv : Inv m) (top : m.stackOf m.running = f :: g :: rest)
    (acknowledged : f.pending = ∅) :
    Inv { m.withTop (g :: rest) with interrupts := f.savedFlag } := by
  obtain ⟨here, below⟩ := inv.at_top top
  obtain ⟨resumable, below⟩ := List.forall_mem_cons.mp below
  have nothing : m.inService = ∅ := here.inService.trans acknowledged
  exact inv.withTop rfl rfl rfl (resumable.onTop here.savedFlag nothing) below

theorem Inv.iretd (inv : Inv m) (taken : m.iretd = some m') : Inv m' := by
  unfold Machine.iretd at taken
  split at taken <;> cases taken
  · rename_i top
    exact inv.resume top rfl
  · rename_i top
    exact inv.resume top rfl

/-- Every step keeps the invariant. -/
theorem Inv.step (inv : Inv m) (taken : Step m a m') : Inv m' := by
  cases a with
  | deliver irq => exact inv.deliver taken
  | createTask entryPoint => exact inv.createTask taken
  | timerHandler => exact inv.timerHandler taken
  | eoi => exact inv.eoi taken
  | testReschedule => exact inv.testReschedule taken
  | sti => exact inv.sti taken
  | taskSchedule other => exact inv.taskSchedule taken
  | pushContext => exact inv.pushContext taken
  | loadEsp owner above => exact inv.loadEsp taken
  | popfd => exact inv.popfd taken
  | ret => exact inv.ret taken
  | cli => exact inv.cli taken
  | iretd => exact inv.iretd taken

theorem inv_of_run {timer : Timer} {as : List Action} (run : Run Step (boot timer) as m) : Inv m :=
  run.invariant Inv (fun _ _ _ inv taken => inv.step taken) (inv_boot timer)

/-! ### Acknowledgement -/

theorem Frame.pending_cases (waits : f.pending ≠ ∅) :
    ∃ (irq : Irq) (flag : Bool), f = irq.handler flag := by
  cases f with
  | irq0 stage flag =>
    cases stage with
    | entered => exact ⟨.timer, flag, rfl⟩
    | _ => exact absurd rfl waits
  | irq1 stage flag =>
    cases stage with
    | entered => exact ⟨.keyboard, flag, rfl⟩
    | _ => exact absurd rfl waits
  | _ => exact absurd rfl waits

/-- Where one action is possible, its result is the next state. -/
theorem only_step {b : Action} {next : Machine} (possible : Step m b next)
    (only : ∀ a m', Step m a m' → a = b) :
    (∃ a m', Step m a m') ∧ ∀ a m', Step m a m' → m' = next := by
  refine ⟨⟨b, next, possible⟩, fun a m' taken => ?_⟩
  obtain rfl := only a m' taken
  exact Option.some.inj (taken.symm.trans possible)

/-- A handler that has just been entered can take one step, and it is the EOI of its line. -/
theorem step_entered {irq : Irq} {flag : Bool}
    (top : m.stackOf m.running = irq.handler flag :: rest) (disabled : m.interrupts = false) :
    (∃ a m', Step m a m') ∧ ∀ a m', Step m a m' → m'.inService = Pic8259.eoi m.inService := by
  cases irq with
  | timer =>
    have called : Step m .timerHandler { m.withTop (.irq0 .handled flag :: rest) with
        timer := timerHandler m.timer, inService := Pic8259.eoi m.inService } := by
      simp only [Step, step, Machine.timerHandler, top, Irq.handler, sent_timerHandler,
        List.foldl_cons, List.foldl_nil, eoi_eq]
      rfl
    -- every other step expects another activation on top, or the flag set
    have only : ∀ a m', Step m a m' → a = .timerHandler := by
      intro a m' taken
      cases a <;> simp_all [Step, step, Machine.deliver, Machine.createTask, Machine.eoi,
        Machine.testReschedule, Machine.sti, Machine.taskSchedule, Machine.pushContext,
        Machine.loadEsp, Machine.popfd, Machine.ret, Machine.cli, Machine.iretd, Irq.handler]
    obtain ⟨possible, next⟩ := only_step called only
    exact ⟨possible, fun a m' taken => by rw [next a m' taken]⟩
  | keyboard =>
    have sent : Step m .eoi { m.withTop (.irq1 .acknowledged flag :: rest) with
        inService := Pic8259.eoi m.inService } := by
      simp only [Step, step, Machine.eoi, top, Irq.handler, eoi_eq]
      rfl
    have only : ∀ a m', Step m a m' → a = .eoi := by
      intro a m' taken
      cases a <;> simp_all [Step, step, Machine.deliver, Machine.createTask, Machine.timerHandler,
        Machine.testReschedule, Machine.sti, Machine.taskSchedule, Machine.pushContext,
        Machine.loadEsp, Machine.popfd, Machine.ret, Machine.cli, Machine.iretd, Irq.handler]
    obtain ⟨possible, next⟩ := only_step sent only
    exact ⟨possible, fun a m' taken => by rw [next a m' taken]⟩

/-- What is in service is retired by the next step. -/
theorem Inv.unblocked (inv : Inv m) (waits : m.inService ≠ ∅) :
    (∃ a m', Step m a m') ∧ ∀ a m', Step m a m' → m'.inService = ∅ := by
  obtain ⟨f, rest, top, here, below⟩ := inv.top
  rw [here.inService] at waits
  obtain ⟨irq, flag, rfl⟩ := Frame.pending_cases waits
  have line : m.inService = {irq.line} := here.inService.trans (by cases irq <;> rfl)
  have disabled : m.interrupts = false := here.interrupts.trans (by cases irq <;> rfl)
  obtain ⟨next, retired⟩ := step_entered top disabled
  refine ⟨next, fun a m' taken => ?_⟩
  rw [retired a m' taken, line, eoi_line]

/-- Whenever interrupts are enabled none is in service, however interrupts nest and whichever
contexts are switched to. -/
theorem interrupts_acknowledged {timer : Timer} {as : List Action}
    (run : Run Step (boot timer) as m) : Acknowledged m := by
  have inv := inv_of_run run
  constructor
  case enabled =>
    intro set
    obtain ⟨f, rest, top, here, below⟩ := inv.top
    have unmasked : f.masked = false := by simpa [set] using here.interrupts
    exact (here.unmasked unmasked).2
  case second =>
    intro flag rest m' top sent
    obtain ⟨here, -⟩ := inv.at_top top
    have nothing : m.inService = ∅ := here.inService
    simp only [Step, step, Machine.eoi, top, eoi_eq, Option.some.injEq] at sent
    subst sent
    exact ⟨nothing, (congrArg Pic8259.eoi nothing).trans eoi_empty⟩
  case unblocked =>
    rintro k ⟨j, member, -⟩
    obtain ⟨next, retired⟩ := inv.unblocked (Finset.ne_empty_of_mem member)
    refine ⟨next, fun a m' taken => ?_⟩
    rw [retired a m' taken]
    exact Pic8259.not_blocked_empty

/-- A timer interrupt is interrupted by the keyboard, whose handler is interrupted by the timer,
whose handler switches to a new task. -/
def nestedSwitch : List Action :=
  [.createTask 0x4321, .deliver .timer, .timerHandler, .eoi, .testReschedule, .sti,
    .taskSchedule true, .deliver .keyboard, .eoi, .sti, .deliver .timer, .timerHandler, .eoi,
    .testReschedule, .sti, .taskSchedule true, .pushContext, .loadEsp 1 0, .popfd]

theorem interrupts_acknowledged_nested : ∃ m, Run Step (boot .boot) nestedSwitch m ∧
    m.running = 1 ∧ m.interrupts = true ∧ (m.stackOf 0).length = 5 ∧ Acknowledged m := by
  have run : Run Step (boot .boot) nestedSwitch _ := .of_foldlM rfl
  exact ⟨_, run, rfl, rfl, rfl, interrupts_acknowledged run⟩

end Interrupts

end FriscaOS
