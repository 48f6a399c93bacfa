import FriscaOS.Task.Switch
import Mathlib.Data.List.Pairwise

/-! Tasks that call `task_schedule` and `create_task` in any order: every suspended task keeps
its frame, so that each switch resumes a task where it was suspended. -/
namespace FriscaOS

open ByteMemory I386 Transition Function

/-! ### The system -/

/-- The memory of a task: its `task_t` and its stack `[lo, hi)`, which do not meet. -/
structure TaskArea where
  task : UInt32
  lo : Nat
  hi : Nat
  nonnull : task ≠ NULL
  taskFits : task.toNat + 20 ≤ 2 ^ 32
  stackFits : hi < 2 ^ 32
  apart : task.toNat + 20 ≤ lo ∨ hi ≤ task.toNat

def TaskArea.bytes (A : TaskArea) : Set Nat :=
  {x | A.task.toNat ≤ x ∧ x < A.task.toNat + 20 ∨ A.lo ≤ x ∧ x < A.hi}

/-- What changes when a task switches away: its stack and its `esp` field. -/
def TaskArea.saved (A : TaskArea) : Set Nat :=
  {x | A.task.toNat + 4 ≤ x ∧ x < A.task.toNat + 8 ∨ A.lo ≤ x ∧ x < A.hi}

theorem TaskArea.saved_subset (A : TaskArea) : A.saved ⊆ A.bytes := by
  rintro x (field | stack)
  · exact .inl ⟨by omega, by omega⟩
  · exact .inr stack

/-- `task_schedule`. The call of `switch_to_task` leaves its two arguments and the return address
on the stack; the registers are those the compiled code has at that call. -/
def taskSchedule (cpu : Cpu) (v : TaskVars) (returnAddress : UInt32) : Cpu × TaskVars :=
  if v.currentTask = NULL then (cpu, v)
  else
    let oldTask := v.currentTask
    let v := { v with currentTask := taskNext cpu.mem oldTask }
    if oldTask ≠ v.currentTask then
      let args := [taskEsp cpu.mem v.currentTask, oldTask + 4]
      ((cpu.call args returnAddress).run switchToTask, v)
    else (cpu, v)

/-- The machine and the scheduler, with the memory of each task and how it was last suspended. -/
structure TaskSystem where
  cpu : Cpu
  vars : TaskVars
  areas : List TaskArea
  suspended : UInt32 → Option Suspension

/-- After `task_init`, which `main` runs. -/
def TaskSystem.init (main : TaskArea) (cpu : Cpu) : TaskSystem :=
  let (mem, vars) := taskInit cpu.mem main.task
  { cpu := { cpu with mem := mem }, vars := vars, areas := [main], suspended := fun _ => none }

inductive TaskOp
  -- code of the running task, as the state of the CPU it leaves
  | own (cpu : Cpu)
  | create (newTask stack entryPoint : UInt32)
  | schedule (returnAddress : UInt32)

/-- What the running task may not store to: every `task_t`, and the stacks of the others. -/
def Foreign (s : TaskSystem) (x : Nat) : Prop :=
  ∃ A ∈ s.areas, A.task.toNat ≤ x ∧ x < A.task.toNat + 20 ∨
    A.task ≠ s.vars.currentTask ∧ A.lo ≤ x ∧ x < A.hi

inductive TaskStep : TaskSystem → TaskOp → TaskSystem → Prop
  | own {s cpu} : (∀ x, Foreign s x → cpu.mem x = s.cpu.mem x) →
      TaskStep s (.own cpu) { s with cpu := cpu }
  -- the two blocks are new: they meet the memory of no task
  | create {s entryPoint m v} {A : TaskArea} {stack : UInt32} :
      A.lo = stack.toNat → A.hi = stack.toNat + 4096 →
      (∀ B ∈ s.areas, ∀ x ∈ A.bytes, x ∉ B.bytes) →
      initTask s.cpu.mem s.vars A.task stack entryPoint = (m, v) →
      TaskStep s (.create A.task stack entryPoint)
        { cpu := { s.cpu with mem := m }, vars := v, areas := A :: s.areas,
          suspended := update s.suspended A.task (some (.created entryPoint stack)) }
  -- the call stays on the stack of the running task: eleven words below ESP
  | schedule {s returnAddress cpu v} {A : TaskArea} :
      A ∈ s.areas → A.task = s.vars.currentTask →
      A.lo + 44 ≤ s.cpu.esp.toNat → s.cpu.esp.toNat ≤ A.hi →
      taskSchedule s.cpu s.vars returnAddress = (cpu, v) →
      TaskStep s (.schedule returnAddress)
        { s with
          cpu := cpu, vars := v
          suspended :=
            if v.currentTask ≠ s.vars.currentTask then
              update s.suspended s.vars.currentTask
                (some (.called s.cpu.regs s.cpu.eflags returnAddress (s.cpu.esp - 12)))
            else s.suspended }

def TaskReachable (s : TaskSystem) : Prop :=
  ∃ main cpu ops, Run TaskStep (TaskSystem.init main cpu) ops s

/-! ### The invariant -/

/-- The task waits for its frame to be restored. -/
structure Waiting (m : Mem) (A : TaskArea) (c : Suspension) : Prop where
  esp : taskEsp m A.task = c.savedEsp
  frame : Words m c.savedEsp.toNat c.frame
  lower : A.lo ≤ c.savedEsp.toNat
  upper : c.savedEsp.toNat + 36 ≤ A.hi

structure TaskInv (s : TaskSystem) : Prop where
  disjoint : s.areas.Pairwise fun A B => ∀ x ∈ A.bytes, x ∉ B.bytes
  current : ∃ A ∈ s.areas, A.task = s.vars.currentTask
  listed : ∃ A ∈ s.areas, A.task = s.vars.taskList
  closed : ∀ A ∈ s.areas, ∃ B ∈ s.areas, B.task = taskNext s.cpu.mem A.task
  waiting : ∀ A ∈ s.areas, A.task ≠ s.vars.currentTask →
    ∃ c, s.suspended A.task = some c ∧ Waiting s.cpu.mem A c

theorem taskInv_init (main : TaskArea) (cpu : Cpu) : TaskInv (TaskSystem.init main cpu) where
  disjoint := List.pairwise_singleton _ main
  current := ⟨main, .head _, rfl⟩
  listed := ⟨main, .head _, rfl⟩
  closed A member := by
    obtain rfl := List.mem_singleton.mp member
    exact ⟨A, .head _, (Mem.read32_write32 _ _ _).symm⟩
  waiting A member other := by
    obtain rfl := List.mem_singleton.mp member
    exact absurd rfl other

variable {s t : TaskSystem} {A B : TaskArea} {c : Suspension} {m m' : Mem} {v : TaskVars}

/-- A waiting task depends on its `esp` field and on its stack only. -/
theorem Waiting.congr (waiting : Waiting m A c)
    (field : ∀ x, A.task.toNat + 4 ≤ x → x < A.task.toNat + 8 → m' x = m x)
    (stack : ∀ x, A.lo ≤ x → x < A.hi → m' x = m x) : Waiting m' A c where
  esp := (Mem.read32_congr field).trans waiting.esp
  frame := waiting.frame.congr fun x start stop => by
    have lower := waiting.lower
    have upper := waiting.upper
    have length : 4 * c.frame.length = 36 := rfl
    exact stack x (by omega) (by omega)
  lower := waiting.lower
  upper := waiting.upper

/-- Tasks with different control blocks share no memory. -/
theorem TaskInv.apart (inv : TaskInv s) (hA : A ∈ s.areas) (hB : B ∈ s.areas)
    (other : A.task ≠ B.task) {x : Nat} (inside : x ∈ A.bytes) : x ∉ B.bytes := by
  have symmetric : Std.Symm fun A B : TaskArea => ∀ x ∈ A.bytes, x ∉ B.bytes :=
    ⟨fun _ _ apart x right left => apart x left right⟩
  have different : A ≠ B := fun same => other (congrArg TaskArea.task same)
  exact inv.disjoint.forall hA hB different x inside

/-- A control block names one task. -/
theorem TaskInv.eq_of_task (inv : TaskInv s) (hA : A ∈ s.areas) (hB : B ∈ s.areas)
    (same : A.task = B.task) : A = B := by
  by_contra different
  have symmetric : Std.Symm fun A B : TaskArea => ∀ x ∈ A.bytes, x ∉ B.bytes :=
    ⟨fun _ _ apart x right left => apart x left right⟩
  have start : A.task.toNat ∈ A.bytes := .inl ⟨by omega, by omega⟩
  apply inv.disjoint.forall hA hB different _ start
  exact .inl ⟨by rw [same], by rw [same]; omega⟩

/-! ### What a task that switches away leaves alone -/

theorem TaskInv.waiting_saved (inv : TaskInv s) (hA : A ∈ s.areas) (hB : B ∈ s.areas)
    (other : A.task ≠ B.task) (change : Within A.saved s.cpu.mem m)
    (waiting : Waiting s.cpu.mem B c) : Waiting m B c := by
  have outside {x : Nat} (inside : x ∈ B.bytes) : m x = s.cpu.mem x :=
    change x fun saved => inv.apart hA hB other (A.saved_subset saved) inside
  apply waiting.congr
  · exact fun x lower upper => outside (.inl ⟨by omega, by omega⟩)
  · exact fun x lower upper => outside (.inr ⟨lower, upper⟩)

theorem TaskInv.next_saved (inv : TaskInv s) (hA : A ∈ s.areas) (hB : B ∈ s.areas)
    (change : Within A.saved s.cpu.mem m) : taskNext m B.task = taskNext s.cpu.mem B.task := by
  apply change.read32
  intro x lower upper saved
  by_cases same : A.task = B.task
  · have apart := A.apart
    rw [← same] at lower upper
    rcases saved with field | stack
    all_goals omega
  · exact inv.apart hA hB same (A.saved_subset saved) (.inl ⟨by omega, by omega⟩)

/-! ### The running task's own code -/

theorem TaskInv.own {cpu : Cpu} (inv : TaskInv s)
    (kept : ∀ x, Foreign s x → cpu.mem x = s.cpu.mem x) : TaskInv { s with cpu := cpu } where
  disjoint := inv.disjoint
  current := inv.current
  listed := inv.listed
  closed A member := by
    obtain ⟨B, there, next⟩ := inv.closed A member
    refine ⟨B, there, next.trans (Mem.read32_congr fun x lower upper => ?_)⟩
    exact (kept x ⟨A, member, .inl ⟨by omega, by omega⟩⟩).symm
  waiting A member other := by
    obtain ⟨c, suspended, waiting⟩ := inv.waiting A member other
    refine ⟨c, suspended, waiting.congr (fun x lower upper => kept x ?_) fun x lower upper =>
      kept x ⟨A, member, .inr ⟨other, lower, upper⟩⟩⟩
    exact ⟨A, member, .inl ⟨by omega, by omega⟩⟩

/-! ### The switch -/

/-- What the stack pointer of a suspended task becomes is its saved stack pointer and the nine
words of its frame. -/
theorem Suspension.savedEsp_add (c : Suspension) : c.savedEsp + 36 = c.esp := by
  rw [savedEsp, UInt32.sub_add_cancel]

/-- In a ring of one task `task_schedule` changes nothing. -/
theorem taskSchedule_alone {cpu : Cpu} (returnAddress : UInt32)
    (alone : v.currentTask = taskNext cpu.mem v.currentTask) :
    taskSchedule cpu v returnAddress = (cpu, v) := by
  rw [taskSchedule]
  split
  · rfl
  · simp [← alone]

/-- What a switch away from a task stores to: its `esp` field and the eleven words below its stack
pointer. -/
def TaskArea.stored (A : TaskArea) (esp : UInt32) : Set Nat :=
  {x | esp.toNat - 44 ≤ x ∧ x < esp.toNat ∨
    (A.task + 4).toNat ≤ x ∧ x < (A.task + 4).toNat + 4}

theorem TaskArea.stored_subset {esp : UInt32} (lower : A.lo + 44 ≤ esp.toNat)
    (upper : esp.toNat ≤ A.hi) : A.stored esp ⊆ A.saved := by
  have field : (A.task + 4).toNat = A.task.toNat + 4 := by
    have fits := A.taskFits
    exact toNat_add_of_lt (by simp; omega)
  intro x inside
  simp only [saved, stored, Set.mem_ofPred_eq] at *
  omega

/-- A call of `task_schedule` that switches: the next task resumes as it was suspended, the
running one waits, and nothing else changes. -/
theorem TaskInv.switch_stored (inv : TaskInv s) (returnAddress : UInt32) (member : A ∈ s.areas)
    (running : A.task = s.vars.currentTask) (lower : A.lo + 44 ≤ s.cpu.esp.toNat)
    (upper : s.cpu.esp.toNat ≤ A.hi)
    (other : s.vars.currentTask ≠ taskNext s.cpu.mem s.vars.currentTask) :
    ∃ c m, s.suspended (taskNext s.cpu.mem s.vars.currentTask) = some c ∧
      taskEsp s.cpu.mem (taskNext s.cpu.mem s.vars.currentTask) = c.savedEsp ∧
      taskSchedule s.cpu s.vars returnAddress =
        ({ regs := c.regs, esp := c.esp, eip := c.eip, eflags := c.eflags, mem := m },
          { s.vars with currentTask := taskNext s.cpu.mem s.vars.currentTask }) ∧
      Waiting m A (.called s.cpu.regs s.cpu.eflags returnAddress (s.cpu.esp - 12)) ∧
      Within (A.stored s.cpu.esp) s.cpu.mem m := by
  rw [← running] at other ⊢
  obtain ⟨B, there, next⟩ := inv.closed A member
  rw [← next] at other ⊢
  obtain ⟨c, suspended, waiting⟩ := inv.waiting B there (running ▸ other.symm)
  have field : (A.task + 4).toNat = A.task.toNat + 4 := by
    have fits := A.taskFits
    exact toNat_add_of_lt (by simp; omega)
  obtain ⟨m, change, esp, savedEsp, frame, result⟩ :=
    run_switchToTask s.cpu (A.task + 4) (taskEsp s.cpu.mem B.task) returnAddress (by omega)
      (by have apart := A.apart; omega) rfl
  have saved : Within A.saved s.cpu.mem m := change.mono (A.stored_subset lower upper)
  -- the frame of the next task lies in its own memory, which the save does not touch
  have kept := inv.waiting_saved member there other saved waiting
  have resumed := result c (waiting.esp ▸ kept.frame) (by
    have inside := waiting.upper
    have fits := B.stackFits
    rw [waiting.esp]
    omega)
  refine ⟨c, m, suspended, waiting.esp, ?_, ⟨?_, ?_, ?_, ?_⟩, change⟩
  · rw [taskSchedule, if_neg (running ▸ A.nonnull), ← running]
    simp only [← next, ne_eq, other, not_false_eq_true, ↓reduceIte]
    rw [resumed, waiting.esp, c.savedEsp_add]
  · rw [taskEsp, ← field]
    exact esp
  · rw [savedEsp]
    exact frame
  · omega
  · omega

/-- The same, with the memory of the running task as all that changes. -/
theorem TaskInv.switch (inv : TaskInv s) (returnAddress : UInt32) (member : A ∈ s.areas)
    (running : A.task = s.vars.currentTask) (lower : A.lo + 44 ≤ s.cpu.esp.toNat)
    (upper : s.cpu.esp.toNat ≤ A.hi)
    (other : s.vars.currentTask ≠ taskNext s.cpu.mem s.vars.currentTask) :
    ∃ c m, s.suspended (taskNext s.cpu.mem s.vars.currentTask) = some c ∧
      taskEsp s.cpu.mem (taskNext s.cpu.mem s.vars.currentTask) = c.savedEsp ∧
      taskSchedule s.cpu s.vars returnAddress =
        ({ regs := c.regs, esp := c.esp, eip := c.eip, eflags := c.eflags, mem := m },
          { s.vars with currentTask := taskNext s.cpu.mem s.vars.currentTask }) ∧
      Waiting m A (.called s.cpu.regs s.cpu.eflags returnAddress (s.cpu.esp - 12)) ∧
      Within A.saved s.cpu.mem m := by
  obtain ⟨c, m, suspended, loaded, switched, waiting, change⟩ :=
    inv.switch_stored returnAddress member running lower upper other
  exact ⟨c, m, suspended, loaded, switched, waiting, change.mono (A.stored_subset lower upper)⟩

theorem TaskInv.schedule {returnAddress : UInt32} {cpu : Cpu} (inv : TaskInv s)
    (member : A ∈ s.areas) (running : A.task = s.vars.currentTask)
    (lower : A.lo + 44 ≤ s.cpu.esp.toNat) (upper : s.cpu.esp.toNat ≤ A.hi)
    (result : taskSchedule s.cpu s.vars returnAddress = (cpu, v)) :
    TaskInv { s with
      cpu := cpu, vars := v
      suspended :=
        if v.currentTask ≠ s.vars.currentTask then
          update s.suspended s.vars.currentTask
            (some (.called s.cpu.regs s.cpu.eflags returnAddress (s.cpu.esp - 12)))
        else s.suspended } := by
  by_cases other : s.vars.currentTask ≠ taskNext s.cpu.mem s.vars.currentTask
  · obtain ⟨c, m, suspended, _, switched, waiting, change⟩ :=
      inv.switch returnAddress member running lower upper other
    rw [switched, Prod.mk.injEq] at result
    obtain ⟨rfl, rfl⟩ := result
    refine ⟨inv.disjoint, ?_, inv.listed, fun B there => ?_, fun B there away => ?_⟩
    · rw [← running]
      exact inv.closed A member
    · obtain ⟨C, target, next⟩ := inv.closed B there
      exact ⟨C, target, next.trans (inv.next_saved member there change).symm⟩
    · simp only [ne_eq, other.symm, not_false_eq_true, ↓reduceIte]
      by_cases same : A.task = B.task
      · obtain rfl := inv.eq_of_task member there same
        exact ⟨_, by rw [running, update_self], waiting⟩
      · obtain ⟨d, suspended, waiting⟩ := inv.waiting B there fun here => same (running.trans here.symm)
        refine ⟨d, ?_, inv.waiting_saved member there same change waiting⟩
        rwa [update_of_ne (running ▸ Ne.symm same)]
  · rw [not_not] at other
    rw [taskSchedule_alone _ other, Prod.mk.injEq] at result
    obtain ⟨rfl, rfl⟩ := result
    simpa using inv

/-! ### New tasks -/

section create

variable {stack entryPoint : UInt32} (inv : TaskInv s) (lo : A.lo = stack.toNat)
  (hi : A.hi = stack.toNat + 4096) (fresh : ∀ B ∈ s.areas, ∀ x ∈ A.bytes, x ∉ B.bytes)
  (result : initTask s.cpu.mem s.vars A.task stack entryPoint = (m, v))

include fresh in
/-- A new control block is no old one. -/
theorem TaskArea.task_ne (there : B ∈ s.areas) : B.task ≠ A.task := by
  intro same
  apply fresh B there A.task.toNat (.inl ⟨by omega, by omega⟩)
  exact .inl ⟨by rw [same], by rw [same]; omega⟩

include lo hi fresh result in
/-- Of the memory of the old tasks, only the `next` field of the head changes. -/
theorem initTask_old (there : B ∈ s.areas) {x : Nat} (inside : x ∈ B.bytes)
    (other : ¬(s.vars.taskList.toNat + 16 ≤ x ∧ x < s.vars.taskList.toNat + 20)) :
    m x = s.cpu.mem x := by
  apply initTask_within (hi ▸ A.stackFits) result
  rintro (task | frame | field)
  · exact fresh B there x (.inl task) inside
  · exact fresh B there x (.inr ⟨by omega, by omega⟩) inside
  · exact other field

/-- The two new blocks lie beside the head of the ring. -/
theorem TaskInv.head_beside (inv : TaskInv s) (fresh : ∀ B ∈ s.areas, ∀ x ∈ A.bytes, x ∉ B.bytes)
    (room : A.lo < A.hi) :
    (s.vars.taskList.toNat + 20 ≤ A.task.toNat ∨ A.task.toNat + 20 ≤ s.vars.taskList.toNat) ∧
      (s.vars.taskList.toNat + 20 ≤ A.lo ∨ A.hi ≤ s.vars.taskList.toNat) := by
  obtain ⟨head, member, listed⟩ := inv.listed
  rw [← listed]
  constructor
  · exact ranges_apart (by omega) (by omega) fun x lower upper inside =>
      fresh head member x (.inl inside) (.inl ⟨lower, upper⟩)
  · exact ranges_apart (by omega) room fun x lower upper inside =>
      fresh head member x (.inr inside) (.inl ⟨lower, upper⟩)

include inv lo hi fresh result

/-- The new task waits at its initial frame, between the head of the ring and its successor. -/
theorem TaskInv.created : Waiting m A (.created entryPoint stack) ∧
    taskNext m A.task = taskNext s.cpu.mem s.vars.taskList ∧
    taskNext m s.vars.taskList = A.task := by
  have fits : stack.toNat + 4096 < 2 ^ 32 := hi ▸ A.stackFits
  obtain ⟨headTask, headStack⟩ := inv.head_beside fresh (by omega)
  have apart := A.apart
  obtain ⟨esp, _, words, next, linked⟩ := initTask_spec fits result (by omega) headTask (by omega)
  have top : (stack + 4096).toNat = stack.toNat + 4096 := toNat_add_of_lt fits
  have saved : (stack + 4096 - 36).toNat = stack.toNat + 4096 - 36 := by
    rw [toNat_sub_of_le, top] <;> simp [top]
  refine ⟨⟨esp, ?_, ?_, ?_⟩, next, linked⟩
  all_goals simp only [Suspension.savedEsp, Suspension.esp, saved]
  · exact words
  · omega
  · omega

/-- What a switch away from an old task saves is as it was: the `next` field of the head is neither
its `esp` field nor on its stack. -/
theorem TaskInv.old_saved (there : B ∈ s.areas) {x : Nat} (inside : x ∈ B.saved) :
    m x = s.cpu.mem x := by
  obtain ⟨head, member, listed⟩ := inv.listed
  apply initTask_old lo hi fresh result there (B.saved_subset inside)
  rw [← listed]
  intro field
  by_cases same : B.task = head.task
  · have own := B.apart
    rw [← same] at field
    rcases inside with esp | stack
    all_goals omega
  · exact inv.apart there member same (B.saved_subset inside) (.inl ⟨by omega, by omega⟩)

/-- A task that waits goes on waiting. -/
theorem TaskInv.old_waiting (there : B ∈ s.areas) (waiting : Waiting s.cpu.mem B c) :
    Waiting m B c := by
  apply waiting.congr
  · exact fun x lower upper => inv.old_saved lo hi fresh result there (.inl ⟨lower, upper⟩)
  · exact fun x lower upper => inv.old_saved lo hi fresh result there (.inr ⟨lower, upper⟩)

/-- Every task but the head has the successor it had. -/
theorem TaskInv.old_next (there : B ∈ s.areas) (other : B.task ≠ s.vars.taskList) :
    taskNext m B.task = taskNext s.cpu.mem B.task := by
  obtain ⟨head, member, listed⟩ := inv.listed
  apply Mem.read32_congr
  intro x lower upper
  have inside : x ∈ B.bytes := .inl ⟨by omega, by omega⟩
  apply initTask_old lo hi fresh result there inside
  rw [← listed] at other ⊢
  exact fun field => inv.apart there member other inside (.inl ⟨by omega, by omega⟩)

theorem TaskInv.create : TaskInv
    { cpu := { s.cpu with mem := m }, vars := v, areas := A :: s.areas
      suspended := update s.suspended A.task (some (.created entryPoint stack)) } := by
  obtain ⟨head, member, listed⟩ := inv.listed
  obtain ⟨current, taskList⟩ := initTask_vars result
  obtain ⟨waitingA, nextA, linked⟩ := inv.created lo hi fresh result
  constructor
  case disjoint => exact List.pairwise_cons.mpr ⟨fresh, inv.disjoint⟩
  case current =>
    obtain ⟨B, there, running⟩ := inv.current
    exact ⟨B, List.mem_cons_of_mem A there, running.trans current.symm⟩
  case listed => exact ⟨head, List.mem_cons_of_mem A member, listed.trans taskList.symm⟩
  case closed =>
    intro B there
    rcases List.mem_cons.mp there with rfl | there
    · -- the new task comes before what followed the head
      obtain ⟨C, target, follows⟩ := inv.closed head member
      rw [listed] at follows
      exact ⟨C, List.mem_cons_of_mem B target, follows.trans nextA.symm⟩
    · by_cases same : B.task = s.vars.taskList
      · exact ⟨A, .head _, by rw [same]; exact linked.symm⟩
      · obtain ⟨C, target, follows⟩ := inv.closed B there
        have next := inv.old_next lo hi fresh result there same
        exact ⟨C, List.mem_cons_of_mem A target, follows.trans next.symm⟩
  case waiting =>
    intro B there away
    rcases List.mem_cons.mp there with rfl | there
    · exact ⟨_, update_self .., waitingA⟩
    · obtain ⟨c, suspended, waiting⟩ := inv.waiting B there fun running =>
        away (running.trans current.symm)
      have different := TaskArea.task_ne fresh there
      exact ⟨c, (update_of_ne different _ _).trans suspended,
        inv.old_waiting lo hi fresh result there waiting⟩

end create

theorem TaskInv.step {op : TaskOp} (inv : TaskInv s) (taken : TaskStep s op t) : TaskInv t := by
  cases taken with
  | own kept => exact inv.own kept
  | create lo hi fresh result => exact inv.create lo hi fresh result
  | schedule member running lower upper result =>
    exact inv.schedule member running lower upper result

theorem TaskReachable.inv (reach : TaskReachable s) : TaskInv s := by
  obtain ⟨main, cpu, ops, run⟩ := reach
  exact run.invariant TaskInv (fun _ _ _ inv taken => inv.step taken) (taskInv_init main cpu)

/-! ### Transparency -/

/-- The CPU is as the suspended task left it, or as a new task starts. -/
def Resumed : Suspension → Cpu → Prop
  | .called regs eflags returnAddress entryEsp, cpu =>
    cpu.regs = regs ∧ cpu.eflags = eflags ∧ cpu.eip = returnAddress ∧ cpu.esp = entryEsp + 4
  | .created entryPoint stack, cpu =>
    (∀ r, cpu.regs r = 0) ∧ cpu.eflags = 0x202 ∧ cpu.eip = entryPoint ∧ cpu.esp = stack + 4096

/-- A switch loads the stack pointer that the next task saved or was created with, and the next
task goes on as it was suspended. The running task is suspended as it called. -/
theorem switch_transparent (reach : TaskReachable s) {returnAddress : UInt32}
    (taken : TaskStep s (.schedule returnAddress) t)
    (switched : t.vars.currentTask ≠ s.vars.currentTask) :
    ∃ c, s.suspended t.vars.currentTask = some c ∧
      taskEsp s.cpu.mem t.vars.currentTask = c.savedEsp ∧ Resumed c t.cpu ∧
      t.suspended s.vars.currentTask =
        some (.called s.cpu.regs s.cpu.eflags returnAddress (s.cpu.esp - 12)) := by
  have inv := reach.inv
  cases taken with
  | @schedule _ cpu v A member running lower upper result =>
    by_cases other : s.vars.currentTask ≠ taskNext s.cpu.mem s.vars.currentTask
    · obtain ⟨c, m, suspended, loaded, scheduled, _⟩ :=
        inv.switch returnAddress member running lower upper other
      rw [scheduled, Prod.mk.injEq] at result
      obtain ⟨rfl, rfl⟩ := result
      refine ⟨c, suspended, loaded, ?_, by simp [other.symm]⟩
      cases c with
      | called => exact ⟨rfl, rfl, rfl, rfl⟩
      | created => exact ⟨fun _ => rfl, rfl, rfl, rfl⟩
    · rw [not_not] at other
      rw [taskSchedule_alone _ other, Prod.mk.injEq] at result
      obtain ⟨rfl, rfl⟩ := result
      exact absurd rfl switched

/-- The state that a call of `task_schedule` leads to. -/
def TaskSystem.scheduled (s : TaskSystem) (returnAddress : UInt32) : TaskSystem :=
  let (cpu, v) := taskSchedule s.cpu s.vars returnAddress
  { s with
    cpu := cpu, vars := v
    suspended :=
      if v.currentTask ≠ s.vars.currentTask then
        update s.suspended s.vars.currentTask
          (some (.called s.cpu.regs s.cpu.eflags returnAddress (s.cpu.esp - 12)))
      else s.suspended }

theorem TaskSystem.scheduled_step (returnAddress : UInt32) (member : A ∈ s.areas)
    (running : A.task = s.vars.currentTask) (lower : A.lo + 44 ≤ s.cpu.esp.toNat)
    (upper : s.cpu.esp.toNat ≤ A.hi) :
    TaskStep s (.schedule returnAddress) (s.scheduled returnAddress) :=
  .schedule member running lower upper rfl

/-! A small system: `main_task` with a page for its stack, and one created task. -/

def bootMain : TaskArea := ⟨0x1000, 0x8000, 0x9000, by decide, by decide, by decide, by decide⟩

def bootTask : TaskArea :=
  ⟨0x20000, 0x30000, 0x31000, by decide, by decide, by decide, by decide⟩

def bootCpu : Cpu := ⟨fun _ => 7, 0x8800, 0x5000, 0x246, fun _ => 0⟩

def bootTasks : TaskSystem :=
  let s := TaskSystem.init bootMain bootCpu
  let (m, v) := initTask s.cpu.mem s.vars bootTask.task 0x30000 0x4321
  { cpu := { s.cpu with mem := m }, vars := v, areas := [bootTask, bootMain]
    suspended := update s.suspended bootTask.task (some (.created 0x4321 0x30000)) }

theorem bootTasks_created : TaskStep (TaskSystem.init bootMain bootCpu)
    (.create bootTask.task 0x30000 0x4321) bootTasks := by
  refine .create rfl rfl ?_ rfl
  intro B member x inside outside
  obtain rfl := List.mem_singleton.mp member
  simp only [TaskArea.bytes, Set.mem_ofPred_eq, bootTask, bootMain, UInt32.reduceToNat]
    at inside outside
  omega

theorem bootTasks_reachable : TaskReachable bootTasks :=
  ⟨bootMain, bootCpu, _, .single bootTasks_created⟩

/-- The first switch from `main_task` starts the new task at its entry point. -/
theorem switch_transparent_first :
    Resumed (.created 0x4321 0x30000) (taskSchedule bootTasks.cpu bootTasks.vars 0x5678).1 := by
  have next : (taskSchedule bootTasks.cpu bootTasks.vars 0x5678).2.currentTask = 0x20000 := by
    decide +kernel
  obtain ⟨⟨cpu, v⟩, result⟩ : ∃ r, taskSchedule bootTasks.cpu bootTasks.vars 0x5678 = r := ⟨_, rfl⟩
  rw [result] at next ⊢
  have here : v.currentTask = 0x20000 := next
  obtain ⟨c, suspended, _, resumed, _⟩ := switch_transparent bootTasks_reachable
    (.schedule (A := bootMain) (by simp [bootTasks]) rfl (by decide) (by decide) result)
    (by rw [here]; decide)
  rw [here] at suspended
  have first : bootTasks.suspended 0x20000 = some (.created 0x4321 0x30000) := rfl
  rw [first, Option.some.injEq] at suspended
  exact suspended ▸ resumed

end FriscaOS
