import FriscaOS.Lib.Ring
import FriscaOS.Task.Scheduling

/-! The run queue in memory: the `next` fields form one ring of all tasks, and every record on it
is filled in, in every state that calls of `task_schedule` and `create_task` lead to. -/
namespace FriscaOS

open ByteMemory I386 Transition Function Ring

variable {s t : TaskSystem} {main A B : TaskArea} {m : Mem} {cpu : Cpu} {v : TaskVars}
  {stack entryPoint returnAddress : UInt32} {o : Nat}

/-! ### Fields that a step leaves alone -/

section fields

variable (inv : TaskInv s) (there : B ∈ s.areas)

include there in
/-- No code of a task stores to a field of any task. -/
theorem field_own (kept : ∀ x, Foreign s x → cpu.mem x = s.cpu.mem x) (inside : o + 4 ≤ 20) :
    cpu.mem.read32 (B.task.toNat + o) = s.cpu.mem.read32 (B.task.toNat + o) :=
  Mem.read32_congr fun x lower upper => kept x ⟨B, there, .inl ⟨by omega, by omega⟩⟩

include inv there

/-- Switching away changes `esp` fields only. -/
theorem TaskInv.field_saved (member : A ∈ s.areas) (change : Within A.saved s.cpu.mem m)
    (notEsp : o + 4 ≤ 4 ∨ 8 ≤ o) (inside : o + 4 ≤ 20) :
    m.read32 (B.task.toNat + o) = s.cpu.mem.read32 (B.task.toNat + o) := by
  apply change.read32
  intro x lower upper saved
  by_cases same : A.task = B.task
  · have apart := A.apart
    rw [← same] at lower upper
    rcases saved with field | stack
    all_goals omega
  · exact inv.apart member there same (A.saved_subset saved) (.inl ⟨by omega, by omega⟩)

/-- A new task changes the `next` field of the head only. -/
theorem TaskInv.field_created (lo : A.lo = stack.toNat) (hi : A.hi = stack.toNat + 4096)
    (fresh : ∀ B ∈ s.areas, ∀ x ∈ A.bytes, x ∉ B.bytes)
    (result : initTask s.cpu.mem s.vars A.task stack entryPoint = (m, v)) (inside : o + 4 ≤ 20)
    (other : B.task ≠ s.vars.taskList ∨ o + 4 ≤ 16) :
    m.read32 (B.task.toNat + o) = s.cpu.mem.read32 (B.task.toNat + o) := by
  obtain ⟨head, member, listed⟩ := inv.listed
  apply Mem.read32_congr
  intro x lower upper
  have own : x ∈ B.bytes := .inl ⟨by omega, by omega⟩
  apply initTask_old lo hi fresh result there own
  rw [← listed] at other ⊢
  intro field
  by_cases same : B.task = head.task
  · rw [same] at lower upper
    rcases other with different | early
    · exact different same
    · omega
  · exact inv.apart there member same own (.inl ⟨by omega, by omega⟩)

end fields

/-- What `task_schedule` does to the scheduler and to the memory of the running task. -/
theorem TaskInv.schedule_spec (inv : TaskInv s) (member : A ∈ s.areas)
    (running : A.task = s.vars.currentTask) (lower : A.lo + 44 ≤ s.cpu.esp.toNat)
    (upper : s.cpu.esp.toNat ≤ A.hi)
    (result : taskSchedule s.cpu s.vars returnAddress = (cpu, v)) :
    Within A.saved s.cpu.mem cpu.mem ∧
      v = { s.vars with currentTask := taskNext s.cpu.mem s.vars.currentTask } ∧
      (cpu.mem = s.cpu.mem ∨ A.lo ≤ (taskEsp cpu.mem A.task).toNat ∧
        (taskEsp cpu.mem A.task).toNat + 36 ≤ A.hi) := by
  by_cases other : s.vars.currentTask ≠ taskNext s.cpu.mem s.vars.currentTask
  · obtain ⟨c, m, _, _, switched, waiting, change⟩ :=
      inv.switch returnAddress member running lower upper other
    rw [switched, Prod.mk.injEq] at result
    obtain ⟨rfl, rfl⟩ := result
    have esp := waiting.esp
    exact ⟨change, rfl, .inr (esp ▸ ⟨waiting.lower, waiting.upper⟩)⟩
  · rw [not_not] at other
    rw [taskSchedule_alone _ other, Prod.mk.injEq] at result
    obtain ⟨rfl, rfl⟩ := result
    exact ⟨.refl _ _, by rw [← other], .inl rfl⟩

/-! ### The queue -/

/-- The stack of a task is recorded, and its stack pointer lies in it. -/
structure StackRecorded (m : Mem) (A : TaskArea) : Prop where
  stack : taskStack m A.task = .ofNat A.lo
  size : A.hi = A.lo + 4096
  lower : A.lo ≤ (taskEsp m A.task).toNat
  upper : (taskEsp m A.task).toNat + 36 ≤ A.hi

structure QueueInv (main : TaskArea) (s : TaskSystem) : Prop where
  tasks : TaskInv s
  rooted : ∃ created, s.areas = created ++ [main]
  listed : s.vars.taskList = main.task
  ring : ∃ xs, IsRing (taskNext s.cpu.mem) main.task xs ∧
    (main.task :: xs).Perm (s.areas.map TaskArea.task)
  -- ids are given out in the order of creation
  ids : s.areas.map (fun A => taskId s.cpu.mem A.task) =
    (List.range s.areas.length).reverse.map UInt32.ofNat
  nextPid : s.vars.nextPid = .ofNat s.areas.length
  recorded : ∀ A ∈ s.areas, A.task ≠ main.task → StackRecorded s.cpu.mem A
  states : ∀ A ∈ s.areas, taskState s.cpu.mem A.task =
    if A.task = main.task then TaskState.running.toWord else TaskState.ready.toWord

theorem QueueInv.main_mem (inv : QueueInv main s) : main ∈ s.areas := by
  obtain ⟨created, areas⟩ := inv.rooted
  simp [areas]

theorem queueInv_init (main : TaskArea) (cpu : Cpu) : QueueInv main (TaskSystem.init main cpu) where
  tasks := taskInv_init main cpu
  rooted := ⟨[], rfl⟩
  listed := rfl
  ring := by
    refine ⟨[], ⟨List.nodup_singleton _, ?_⟩, .refl _⟩
    exact Mem.read32_write32 _ _ _
  ids := congrArg (fun id => [id]) (taskInit_record cpu.mem main.task).1
  nextPid := rfl
  recorded A member other := by
    obtain rfl := List.mem_singleton.mp member
    exact absurd rfl other
  states A member := by
    obtain rfl := List.mem_singleton.mp member
    rw [if_pos rfl]
    exact (taskInit_record cpu.mem A.task).2

theorem mem_ring {xs : List UInt32}
    (perm : (main.task :: xs).Perm (s.areas.map TaskArea.task)) {p : UInt32} :
    p ∈ main.task :: xs ↔ ∃ A ∈ s.areas, A.task = p := by
  rw [perm.mem_iff, List.mem_map]

/-- A step that leaves everything but stack pointers alone. -/
theorem QueueInv.congr (inv : QueueInv main s) (tasks : TaskInv t) (areas : t.areas = s.areas)
    (listed : t.vars.taskList = s.vars.taskList) (nextPid : t.vars.nextPid = s.vars.nextPid)
    (fields : ∀ A ∈ s.areas, ∀ o, o + 4 ≤ 4 ∨ 8 ≤ o → o + 4 ≤ 20 →
      t.cpu.mem.read32 (A.task.toNat + o) = s.cpu.mem.read32 (A.task.toNat + o))
    (esp : ∀ A ∈ s.areas, taskEsp t.cpu.mem A.task = taskEsp s.cpu.mem A.task ∨
      A.lo ≤ (taskEsp t.cpu.mem A.task).toNat ∧ (taskEsp t.cpu.mem A.task).toNat + 36 ≤ A.hi) :
    QueueInv main t where
  tasks := tasks
  rooted := areas ▸ inv.rooted
  listed := listed.trans inv.listed
  ring := by
    obtain ⟨xs, ring, perm⟩ := inv.ring
    refine ⟨xs, ring.congr fun p member => ?_, areas ▸ perm⟩
    obtain ⟨A, there, rfl⟩ := (mem_ring perm).mp member
    exact fields A there 16 (.inr (by decide)) (by decide)
  ids := by
    rw [areas, ← inv.ids]
    apply List.map_congr_left
    exact fun A there => fields A there 0 (.inl (by decide)) (by decide)
  nextPid := by rw [nextPid, areas, inv.nextPid]
  recorded A there other := by
    rw [areas] at there
    have before := inv.recorded A there other
    refine ⟨(fields A there 8 (.inr (by decide)) (by decide)).trans before.stack, before.size, ?_, ?_⟩
    · rcases esp A there with same | inside
      · exact same ▸ before.lower
      · exact inside.1
    · rcases esp A there with same | inside
      · exact same ▸ before.upper
      · exact inside.2
  states A there := by
    rw [areas] at there
    exact (fields A there 12 (.inr (by decide)) (by decide)).trans (inv.states A there)

theorem QueueInv.own (inv : QueueInv main s) (kept : ∀ x, Foreign s x → cpu.mem x = s.cpu.mem x) :
    QueueInv main { s with cpu := cpu } :=
  inv.congr (inv.tasks.own kept) rfl rfl rfl
    (fun _ there _ _ inside => field_own there kept inside)
    (fun _ there => .inl (field_own there kept (by decide)))

theorem QueueInv.schedule {suspended : UInt32 → Option Suspension} (inv : QueueInv main s)
    (member : A ∈ s.areas) (running : A.task = s.vars.currentTask)
    (lower : A.lo + 44 ≤ s.cpu.esp.toNat) (upper : s.cpu.esp.toNat ≤ A.hi)
    (result : taskSchedule s.cpu s.vars returnAddress = (cpu, v))
    (tasks : TaskInv { s with cpu := cpu, vars := v, suspended := suspended }) :
    QueueInv main { s with cpu := cpu, vars := v, suspended := suspended } := by
  obtain ⟨change, rfl, esp⟩ := inv.tasks.schedule_spec member running lower upper result
  refine inv.congr tasks rfl rfl rfl
    (fun B there o notEsp inside => inv.tasks.field_saved there member change notEsp inside) ?_
  intro B there
  by_cases same : A.task = B.task
  · obtain rfl := inv.tasks.eq_of_task member there same
    exact esp.imp_left fun same => by rw [same]
  · -- the `esp` field of another task
    left
    apply change.read32
    exact fun x lower upper saved => inv.tasks.apart member there same (A.saved_subset saved)
      (.inl ⟨by omega, by omega⟩)

section create

variable (inv : QueueInv main s) (lo : A.lo = stack.toNat) (hi : A.hi = stack.toNat + 4096)
  (fresh : ∀ B ∈ s.areas, ∀ x ∈ A.bytes, x ∉ B.bytes)
  (result : initTask s.cpu.mem s.vars A.task stack entryPoint = (m, v))

include inv lo hi fresh result

/-- The new task is linked in behind the head, which is `main_task`. -/
theorem QueueInv.ring_created : ∃ xs, IsRing (taskNext m) main.task xs ∧
    (main.task :: xs).Perm ((A :: s.areas).map TaskArea.task) := by
  obtain ⟨xs, ring, perm⟩ := inv.ring
  obtain ⟨-, next, linked⟩ := inv.tasks.created lo hi fresh result
  rw [inv.listed] at next linked
  have absent : A.task ∉ main.task :: xs := by
    intro member
    obtain ⟨B, there, same⟩ := (mem_ring perm).mp member
    exact TaskArea.task_ne fresh there same
  refine ⟨A.task :: xs, ring.insert_head absent next linked fun p member => ?_, ?_⟩
  · obtain ⟨B, there, rfl⟩ := (mem_ring perm).mp (.tail _ member)
    have other : B.task ≠ s.vars.taskList := by
      rw [inv.listed]
      exact fun same => (List.nodup_cons.mp ring.nodup).1 (same ▸ member)
    exact inv.tasks.field_created (o := 16) there lo hi fresh result (by decide) (.inl other)
  · exact (List.Perm.swap ..).trans (perm.cons A.task)

theorem QueueInv.create : QueueInv main
    { cpu := { s.cpu with mem := m }, vars := v, areas := A :: s.areas
      suspended := update s.suspended A.task (some (.created entryPoint stack)) } := by
  have fits : stack.toNat + 4096 < 2 ^ 32 := hi ▸ A.stackFits
  have apart := A.apart
  obtain ⟨headTask, headStack⟩ := inv.tasks.head_beside fresh (by omega)
  obtain ⟨esp, recorded, -⟩ := initTask_spec fits result (by omega) headTask (by omega)
  obtain ⟨id, state⟩ := initTask_record result headTask (by omega)
  have old (B : TaskArea) (there : B ∈ s.areas) (o : Nat) (early : o + 4 ≤ 16) :
      m.read32 (B.task.toNat + o) = s.cpu.mem.read32 (B.task.toNat + o) :=
    inv.tasks.field_created there lo hi fresh result (by omega) (.inr early)
  constructor
  case tasks => exact inv.tasks.create lo hi fresh result
  case rooted =>
    obtain ⟨created, areas⟩ := inv.rooted
    exact ⟨A :: created, by rw [areas, List.cons_append]⟩
  case listed => exact (initTask_vars result).2.trans inv.listed
  case ring => exact inv.ring_created lo hi fresh result
  case ids =>
    have before : s.areas.map (fun B => taskId m B.task) =
        (List.range s.areas.length).reverse.map UInt32.ofNat := by
      rw [← inv.ids]
      exact List.map_congr_left fun B there => old B there 0 (by decide)
    rw [List.map_cons, before, List.length_cons, List.range_succ, List.reverse_append, id,
      inv.nextPid]
    rfl
  case nextPid =>
    have next : v.nextPid = .ofNat s.areas.length + 1 := by
      rw [initTask_nextPid result, inv.nextPid]
    rw [next, List.length_cons, UInt32.ofNat_add]
    rfl
  case recorded =>
    intro B there other
    rcases List.mem_cons.mp there with rfl | there
    · have top : (stack + 4096).toNat = stack.toNat + 4096 := toNat_add_of_lt fits
      have saved : (stack + 4096 - 36).toNat = stack.toNat + 4096 - 36 := by
        rw [toNat_sub_of_le, top] <;> simp [top]
      have place : (taskEsp m B.task).toNat = stack.toNat + 4096 - 36 := esp ▸ saved
      refine ⟨?_, by omega, ?_, ?_⟩
      · rw [recorded, lo, UInt32.ofNat_toNat]
      · dsimp only
        omega
      · dsimp only
        omega
    · have before := inv.recorded B there other
      have sameEsp : taskEsp m B.task = taskEsp s.cpu.mem B.task := old B there 4 (by decide)
      refine ⟨(old B there 8 (by decide)).trans before.stack, before.size, ?_, ?_⟩
      · exact sameEsp ▸ before.lower
      · exact sameEsp ▸ before.upper
  case states =>
    intro B there
    rcases List.mem_cons.mp there with rfl | there
    · rw [if_neg fun same => TaskArea.task_ne fresh inv.main_mem same.symm]
      exact state
    · exact (old B there 12 (by decide)).trans (inv.states B there)

end create

/-- Every step of the tasks keeps the queue. -/
theorem QueueInv.step {op : TaskOp} (inv : QueueInv main s) (taken : TaskStep s op t) :
    QueueInv main t := by
  have tasks := inv.tasks.step taken
  cases taken with
  | own kept => exact inv.own kept
  | create lo hi fresh result => exact inv.create lo hi fresh result
  | schedule member running lower upper result =>
    exact inv.schedule member running lower upper result tasks

theorem queueInv_of_run {ops : List TaskOp} (run : Run TaskStep (TaskSystem.init main cpu) ops s) :
    QueueInv main s :=
  run.invariant (QueueInv main) (fun _ _ _ inv taken => inv.step taken) (queueInv_init main cpu)

/-- The links lead from `task_list` to the task. -/
def Queued (s : TaskSystem) (p : UInt32) : Prop := ∃ k, (taskNext s.cpu.mem)^[k] s.vars.taskList = p

theorem QueueInv.queued_iff (inv : QueueInv main s) {p : UInt32} :
    Queued s p ↔ ∃ A ∈ s.areas, A.task = p := by
  obtain ⟨xs, ring, perm⟩ := inv.ring
  rw [Queued, inv.listed, ← ring.mem_iff, mem_ring perm]

/-! ### The current task -/

theorem TaskInv.current_schedule (inv : TaskInv s)
    (taken : TaskStep s (.schedule returnAddress) t) :
    t.vars.currentTask = taskNext s.cpu.mem s.vars.currentTask := by
  cases taken with
  | schedule member running lower upper result =>
    obtain ⟨-, rfl, -⟩ := inv.schedule_spec member running lower upper result
    rfl

theorem current_other {op : TaskOp} (taken : TaskStep s op t)
    (other : ∀ returnAddress, op ≠ .schedule returnAddress) :
    t.vars.currentTask = s.vars.currentTask := by
  cases taken with
  | own => rfl
  | create _ _ _ result => exact (initTask_vars result).1
  | schedule => exact absurd rfl (other _)

/-! ### The state fields -/

/-- The task that runs is marked as running, and the others of the queue as ready. -/
structure StatesMarked (s : TaskSystem) : Prop where
  queued : Queued s s.vars.currentTask
  running : taskState s.cpu.mem s.vars.currentTask = TaskState.running.toWord
  ready : ∀ p, Queued s p → p ≠ s.vars.currentTask →
    taskState s.cpu.mem p = TaskState.ready.toWord

/-- Only `main_task` is ever marked as running. -/
theorem QueueInv.statesMarked_iff (inv : QueueInv main s) :
    StatesMarked s ↔ s.vars.currentTask = main.task := by
  obtain ⟨C, there, current⟩ := inv.tasks.current
  constructor
  · intro marked
    by_contra other
    have state := inv.states C there
    rw [current, if_neg other, marked.running] at state
    cases state
  · intro same
    refine ⟨inv.queued_iff.mpr ⟨C, there, current⟩, ?_, ?_⟩
    · have state := inv.states main inv.main_mem
      rwa [if_pos rfl, ← same] at state
    · rintro p queued other
      obtain ⟨A, member, rfl⟩ := inv.queued_iff.mp queued
      rw [inv.states A member, if_neg (same ▸ other)]

/-- The states are marked as documented throughout a run exactly when no call of `task_schedule`
in it switches: each is made while the current task is its own successor. -/
theorem statesMarked_run {state : Nat → TaskSystem} {op : Nat → TaskOp} {n : Nat}
    (initial : state 0 = TaskSystem.init main cpu)
    (steps : ∀ i < n, TaskStep (state i) (op i) (state (i + 1))) :
    (∀ i ≤ n, StatesMarked (state i)) ↔ ∀ i < n, ∀ returnAddress,
      op i = .schedule returnAddress →
        taskNext (state i).cpu.mem (state i).vars.currentTask = (state i).vars.currentTask := by
  have inv (i : Nat) (bound : i ≤ n) : QueueInv main (state i) := by
    induction i with
    | zero => exact initial ▸ queueInv_init main cpu
    | succ i ih => exact (ih (by omega)).step (steps i bound)
  constructor
  · intro marked i bound returnAddress call
    have before := (inv i (by omega)).statesMarked_iff.mp (marked i (by omega))
    have after := (inv (i + 1) bound).statesMarked_iff.mp (marked (i + 1) bound)
    rw [← (inv i (by omega)).tasks.current_schedule (call ▸ steps i bound), after, before]
  · intro alone i bound
    rw [(inv i bound).statesMarked_iff]
    induction i with
    | zero =>
      rw [initial]
      rfl
    | succ i ih =>
      have before := ih (by omega)
      by_cases call : ∃ returnAddress, op i = .schedule returnAddress
      · obtain ⟨returnAddress, call⟩ := call
        rw [(inv i (by omega)).tasks.current_schedule (call ▸ steps i bound),
          alone i bound returnAddress call, before]
      · rw [current_other (steps i bound) (not_exists.mp call), before]

/-- Creating a task marks it as documented. -/
theorem statesMarked_run_create : StatesMarked bootTasks := by
  let state : Nat → TaskSystem
    | 0 => TaskSystem.init bootMain bootCpu
    | _ + 1 => bootTasks
  have steps (i : Nat) (bound : i < 1) :
      TaskStep (state i) (.create bootTask.task 0x30000 0x4321) (state (i + 1)) := by
    obtain rfl := Nat.lt_one_iff.mp bound
    exact bootTasks_created
  have initial : state 0 = TaskSystem.init bootMain bootCpu := rfl
  exact (statesMarked_run initial steps).mpr (fun _ _ _ call => by cases call) 1 (Nat.le_refl 1)

/-- The first switch leaves `main_task` marked as running. -/
theorem not_statesMarked_switch : ∃ t, TaskStep bootTasks (.schedule 0x5678) t ∧
    TaskReachable t ∧ ¬StatesMarked t := by
  have next : taskNext bootTasks.cpu.mem bootTasks.vars.currentTask = 0x20000 := by decide +kernel
  have taken := TaskSystem.scheduled_step (s := bootTasks) (A := bootMain) 0x5678
    (by simp [bootTasks]) rfl (by decide) (by decide)
  have run := Run.cons bootTasks_created (.single taken)
  refine ⟨_, taken, ⟨bootMain, bootCpu, _, run⟩, fun marked => ?_⟩
  have current := (queueInv_of_run run).statesMarked_iff.mp marked
  rw [(queueInv_of_run (.single bootTasks_created)).tasks.current_schedule taken, next] at current
  cases current

end FriscaOS
