import FriscaOS.Lib.I386Interrupts
import FriscaOS.Task.Scheduling

/-! Tasks that are interrupted anywhere, to any depth, and switched away from inside a handler: each
return from an interrupt brings back what was interrupted. `irq0_handler` and `irq1_handler` begin
with `pusha` and end with `popa` and `iretd`; what they call in between is code of the task. -/
namespace FriscaOS

open ByteMemory I386 Transition Function

/-! ### The system -/

/-- The tasks, the segment registers, and by control block what is interrupted on the stack of a
task, the innermost first. -/
structure IrqSystem where
  tasks : TaskSystem
  segs : Seg → UInt16
  pending : UInt32 → List Pending

namespace IrqSystem

def core (s : IrqSystem) : Core := ⟨s.tasks.cpu, s.segs⟩

def withCore (s : IrqSystem) (c : Core) : IrqSystem :=
  { s with tasks := { s.tasks with cpu := c.cpu }, segs := c.segs }

/-- What is interrupted on the stack of the running task. -/
def current (s : IrqSystem) : List Pending := s.pending s.tasks.vars.currentTask

def withCurrent (s : IrqSystem) (ps : List Pending) : IrqSystem :=
  { s with pending := update s.pending s.tasks.vars.currentTask ps }

theorem withCurrent_pending (s : IrqSystem) (ps : List Pending) :
    (s.withCurrent ps).pending = update s.pending s.tasks.vars.currentTask ps := rfl

/-- After `task_init`, with nothing interrupted. -/
def init (main : TaskArea) (cpu : Cpu) (segs : Seg → UInt16) : IrqSystem :=
  ⟨TaskSystem.init main cpu, segs, fun _ => []⟩

end IrqSystem

/-- What the handlers push first, and pop last. -/
def irqEntry : List SystemInstr := [.pusha]

def irqExit : List SystemInstr := [.popa, .iret]

inductive IrqOp
  | task (op : TaskOp)
  -- an interrupt through a gate with this selector and handler, up to the first call
  | interrupt (selector : UInt16) (handler : UInt32)
  -- the end of a handler
  | finish

inductive IrqStep : IrqSystem → IrqOp → IrqSystem → Prop
  -- code leaves alone what it was not called with: the stack of the code that it interrupted
  | own {s cpu tasks} {A : TaskArea} : A ∈ s.tasks.areas → A.task = s.tasks.vars.currentTask →
      (∀ x, Pending.limit A.hi s.current ≤ x → x < A.hi → cpu.mem x = s.tasks.cpu.mem x) →
      TaskStep s.tasks (.own cpu) tasks → IrqStep s (.task (.own cpu)) { s with tasks := tasks }
  | create {s newTask stack entryPoint tasks} :
      TaskStep s.tasks (.create newTask stack entryPoint) tasks →
      IrqStep s (.task (.create newTask stack entryPoint))
        { s with tasks := tasks, pending := update s.pending newTask [] }
  -- the call is made below what is interrupted
  | schedule {s returnAddress tasks} {A : TaskArea} : A ∈ s.tasks.areas →
      A.task = s.tasks.vars.currentTask →
      s.tasks.cpu.esp.toNat ≤ Pending.limit A.hi s.current →
      TaskStep s.tasks (.schedule returnAddress) tasks →
      IrqStep s (.task (.schedule returnAddress)) { s with tasks := tasks }
  | interrupt {s selector handler} {A : TaskArea} : s.tasks.cpu.eflags &&& flagIF ≠ 0 →
      A ∈ s.tasks.areas → A.task = s.tasks.vars.currentTask →
      A.lo + 44 ≤ s.tasks.cpu.esp.toNat →
      s.tasks.cpu.esp.toNat ≤ Pending.limit A.hi s.current →
      IrqStep s (.interrupt selector handler)
        ((s.withCore ((s.core.deliver selector handler none).run irqEntry)).withCurrent
          (⟨s.core.interrupted, s.tasks.cpu.mem⟩ :: s.current))
  -- the handler has taken down its own stack
  | finish {s ps} {p : Pending} : s.current = p :: ps → s.tasks.cpu.esp.toNat = p.base →
      IrqStep s .finish ((s.withCore (s.core.run irqExit)).withCurrent ps)

def IrqReachable (s : IrqSystem) : Prop :=
  ∃ main cpu segs ops, Run IrqStep (IrqSystem.init main cpu segs) ops s

/-! ### The invariant -/

structure IrqInv (s : IrqSystem) : Prop where
  tasks : TaskInv s.tasks
  nested : ∀ A ∈ s.tasks.areas, Pending.Nested A.lo A.hi (s.pending A.task)
  held : ∀ A ∈ s.tasks.areas, ∀ p ∈ s.pending A.task, p.Held s.tasks.cpu.mem A.hi

variable {s t : IrqSystem} {A B : TaskArea} {p : Pending} {ps : List Pending} {cpu : Cpu}
  {tasks : TaskSystem} {newTask stack entryPoint returnAddress : UInt32}

theorem irqInv_init (main : TaskArea) (cpu : Cpu) (segs : Seg → UInt16) :
    IrqInv (IrqSystem.init main cpu segs) where
  tasks := taskInv_init main cpu
  nested _ _ := trivial
  held _ _ p member := by cases member

/-- What the running task may change on its stack belongs to nobody else. -/
theorem IrqInv.not_foreign (inv : IrqInv s) (member : A ∈ s.tasks.areas)
    (running : A.task = s.tasks.vars.currentTask) {x : Nat} (lower : A.lo ≤ x)
    (upper : x < A.hi) : ¬Foreign s.tasks x := by
  rintro ⟨B, there, inside⟩
  by_cases same : A.task = B.task
  · obtain rfl := inv.tasks.eq_of_task member there same
    have apart := A.apart
    rcases inside with block | ⟨away, -⟩
    · omega
    · exact away running
  · apply inv.tasks.apart member there same (x := x) (.inr ⟨lower, upper⟩)
    exact inside.imp id fun stack => stack.2

/-- Steps after which the same code is interrupted. -/
theorem IrqInv.keep (inv : IrqInv s) (tasksInv : TaskInv tasks) (areas : tasks.areas = s.tasks.areas)
    (member : A ∈ s.tasks.areas)
    (own : ∀ x, Pending.limit A.hi (s.pending A.task) ≤ x → x < A.hi →
      tasks.cpu.mem x = s.tasks.cpu.mem x)
    (others : ∀ B ∈ s.tasks.areas, B.task ≠ A.task → ∀ x, B.lo ≤ x → x < B.hi →
      tasks.cpu.mem x = s.tasks.cpu.mem x) : IrqInv { s with tasks := tasks } where
  tasks := tasksInv
  nested B there := inv.nested B (areas ▸ there)
  held B there := by
    rw [areas] at there
    have nested := inv.nested B there
    apply nested.held_congr (inv.held B there)
    by_cases same : B.task = A.task
    · obtain rfl := inv.tasks.eq_of_task there member same
      exact own
    · intro x lower upper
      exact others B there same x (nested.lower lower upper) upper

theorem IrqInv.own (inv : IrqInv s) (member : A ∈ s.tasks.areas)
    (running : A.task = s.tasks.vars.currentTask)
    (spared : ∀ x, Pending.limit A.hi s.current ≤ x → x < A.hi → cpu.mem x = s.tasks.cpu.mem x)
    (kept : ∀ x, Foreign s.tasks x → cpu.mem x = s.tasks.cpu.mem x) :
    IrqInv { s with tasks := { s.tasks with cpu := cpu } } := by
  apply inv.keep (inv.tasks.own kept) rfl member
  · rw [running]
    exact spared
  · intro B there other x lower upper
    exact kept x ⟨B, there, .inr ⟨running ▸ other, lower, upper⟩⟩

theorem IrqInv.schedule {v : TaskVars} (inv : IrqInv s) (member : A ∈ s.tasks.areas)
    (running : A.task = s.tasks.vars.currentTask) (lower : A.lo + 44 ≤ s.tasks.cpu.esp.toNat)
    (below : s.tasks.cpu.esp.toNat ≤ Pending.limit A.hi s.current)
    (result : taskSchedule s.tasks.cpu s.tasks.vars returnAddress = (cpu, v))
    (areas : tasks.areas = s.tasks.areas) (machine : tasks.cpu = cpu) (tasksInv : TaskInv tasks) :
    IrqInv { s with tasks := tasks } := by
  have top := Pending.limit_le (inv.nested A member)
  rw [running] at top
  have upper : s.tasks.cpu.esp.toNat ≤ A.hi := below.trans top
  have change : Within (A.stored s.tasks.cpu.esp) s.tasks.cpu.mem tasks.cpu.mem := by
    rw [machine]
    by_cases other : s.tasks.vars.currentTask ≠ taskNext s.tasks.cpu.mem s.tasks.vars.currentTask
    · obtain ⟨c, m, _, _, switched, _, change⟩ :=
        inv.tasks.switch_stored returnAddress member running lower upper other
      rw [switched, Prod.mk.injEq] at result
      exact result.1 ▸ change
    · rw [not_not] at other
      rw [taskSchedule_alone _ other, Prod.mk.injEq] at result
      exact result.1 ▸ .refl _ _
  have field : (A.task + 4).toNat = A.task.toNat + 4 := by
    have fits := A.taskFits
    exact toNat_add_of_lt (by simp; omega)
  have apart := A.apart
  apply inv.keep tasksInv areas member
  · -- the frame of the switch lies below all that is interrupted
    rw [running]
    intro x above inside
    have beyond := below.trans above
    have low : A.lo ≤ x := by omega
    apply change x
    rintro (pushed | esp)
    all_goals omega
  · intro B there other x low high
    apply change x
    intro stored
    have saved := A.saved_subset (A.stored_subset lower upper stored)
    exact inv.tasks.apart member there other.symm saved (.inr ⟨low, high⟩)

theorem IrqInv.create {m : Mem} {v : TaskVars} (inv : IrqInv s) (lo : A.lo = stack.toNat)
    (hi : A.hi = stack.toNat + 4096)
    (fresh : ∀ B ∈ s.tasks.areas, ∀ x ∈ A.bytes, x ∉ B.bytes)
    (result : initTask s.tasks.cpu.mem s.tasks.vars A.task stack entryPoint = (m, v)) :
    IrqInv { s with
      tasks :=
        { cpu := { s.tasks.cpu with mem := m }, vars := v, areas := A :: s.tasks.areas
          suspended := update s.tasks.suspended A.task (some (.created entryPoint stack)) }
      pending := update s.pending A.task [] } where
  tasks := inv.tasks.create lo hi fresh result
  nested B there := by
    rcases List.mem_cons.mp there with rfl | old
    · simp only [update_self, Pending.Nested]
    · simp only [update_of_ne (TaskArea.task_ne fresh old)]
      exact inv.nested B old
  held B there := by
    rcases List.mem_cons.mp there with rfl | old
    · simp
    · simp only [update_of_ne (TaskArea.task_ne fresh old)]
      have nested := inv.nested B old
      apply nested.held_congr (inv.held B old)
      intro x lower upper
      exact inv.tasks.old_saved lo hi fresh result old (.inr ⟨nested.lower lower upper, upper⟩)

/-- Other code is interrupted on the stack of the running task. -/
theorem IrqInv.withCurrent (inv : IrqInv s) (member : A ∈ s.tasks.areas)
    (running : A.task = s.tasks.vars.currentTask) (nested : Pending.Nested A.lo A.hi ps)
    (held : ∀ p ∈ ps, p.Held s.tasks.cpu.mem A.hi) : IrqInv (s.withCurrent ps) where
  tasks := inv.tasks
  nested B there := by
    by_cases same : B.task = A.task
    · obtain rfl := inv.tasks.eq_of_task there member same
      rwa [s.withCurrent_pending, running, update_self]
    · rw [s.withCurrent_pending, update_of_ne (running ▸ same)]
      exact inv.nested B there
  held B there := by
    by_cases same : B.task = A.task
    · obtain rfl := inv.tasks.eq_of_task there member same
      rwa [s.withCurrent_pending, running, update_self]
    · rw [s.withCurrent_pending, update_of_ne (running ▸ same)]
      exact inv.held B there

theorem IrqInv.interrupt {selector : UInt16} {handler : UInt32} (inv : IrqInv s)
    (member : A ∈ s.tasks.areas) (running : A.task = s.tasks.vars.currentTask)
    (lower : A.lo + 44 ≤ s.tasks.cpu.esp.toNat)
    (below : s.tasks.cpu.esp.toNat ≤ Pending.limit A.hi s.current) :
    IrqInv ((s.withCore ((s.core.deliver selector handler none).run irqEntry)).withCurrent
      (⟨s.core.interrupted, s.tasks.cpu.mem⟩ :: s.current)) := by
  obtain ⟨c, entered⟩ : ∃ c, c = (s.core.deliver selector handler none).run irqEntry := ⟨_, rfl⟩
  obtain ⟨held, change⟩ :
      (⟨s.core.interrupted, s.tasks.cpu.mem⟩ : Pending).Held c.cpu.mem A.hi ∧
        Within {x | s.tasks.cpu.esp.toNat - 44 ≤ x ∧ x < s.tasks.cpu.esp.toNat}
          s.tasks.cpu.mem c.cpu.mem := by
    rw [entered]
    exact deliver_held s.core selector handler A.hi ((Nat.le_add_left 44 A.lo).trans lower)
  rw [← entered]
  have nested := inv.nested A member
  have top := Pending.limit_le nested
  rw [running] at nested top
  have code : IrqInv (s.withCore c) := by
    have moved : IrqInv { s with tasks := { s.tasks with cpu := c.cpu } } :=
      inv.own member running (fun x above inside => change x ?_) fun x foreign => change x ?_
    · exact ⟨moved.tasks, moved.nested, moved.held⟩
    · rintro ⟨-, pushed⟩
      exact absurd (below.trans above) (Nat.not_le.mpr pushed)
    · rintro ⟨low, high⟩
      exact inv.not_foreign member running (by omega) (high.trans_le (below.trans top)) foreign
  refine code.withCurrent member running ⟨lower, below, nested⟩ ?_
  intro p inside
  rcases List.mem_cons.mp inside with rfl | older
  · exact held
  · exact code.held A member p (running ▸ older)

/-- A handler ends: its frame is given up, the memory stays. -/
theorem IrqInv.finish (inv : IrqInv s) (innermost : s.current = p :: ps)
    (here : s.tasks.cpu.esp.toNat = p.base) :
    s.core.run irqExit =
        ⟨{ regs := p.regs, esp := p.esp, eip := p.eip, eflags := p.eflags, mem := s.tasks.cpu.mem },
          update s.segs .cs p.cs⟩ ∧
      IrqInv ((s.withCore (s.core.run irqExit)).withCurrent ps) := by
  obtain ⟨A, member, running⟩ := inv.tasks.current
  have nested := inv.nested A member
  have held := inv.held A member
  rw [running] at nested held
  have list : s.pending s.tasks.vars.currentTask = p :: ps := innermost
  rw [list] at nested held
  have returned : s.core.run irqExit = _ :=
    run_return (held p (.head _)) here ((Nat.le_add_left 44 A.lo).trans nested.1)
  refine ⟨returned, ?_⟩
  rw [returned]
  have left : IrqInv (s.withCore ⟨⟨p.regs, p.esp, p.eip, p.eflags, s.tasks.cpu.mem⟩,
    update s.segs .cs p.cs⟩) := ⟨inv.tasks.own fun _ _ => rfl, inv.nested, inv.held⟩
  exact left.withCurrent member running nested.2.2 fun q older =>
    held q (List.mem_cons_of_mem p older)

theorem IrqInv.step {op : IrqOp} (inv : IrqInv s) (taken : IrqStep s op t) : IrqInv t := by
  cases taken with
  | own member running spared step =>
    cases step with
    | own kept => exact inv.own member running spared kept
  | create step =>
    cases step with
    | create lo hi fresh result => exact inv.create lo hi fresh result
  | @schedule _ _ A member running below step =>
    have tasksInv := inv.tasks.step step
    cases step with
    | @schedule _ _ _ B there current lower upper result =>
      obtain rfl := inv.tasks.eq_of_task member there (running.trans current.symm)
      exact inv.schedule member running lower below result rfl rfl tasksInv
  | interrupt enabled member running lower below => exact inv.interrupt member running lower below
  | finish innermost here => exact (inv.finish innermost here).2

theorem IrqReachable.inv (reach : IrqReachable s) : IrqInv s := by
  obtain ⟨main, cpu, segs, ops, run⟩ := reach
  exact run.invariant IrqInv (fun _ _ _ inv taken => inv.step taken) (irqInv_init main cpu segs)

/-! ### Transparency -/

end FriscaOS
