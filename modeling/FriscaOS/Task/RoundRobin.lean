import FriscaOS.Task.RunQueue

/-! Between two activations of a task every other task of the queue has one turn, wherever new
tasks are linked in meanwhile. -/
namespace FriscaOS

open ByteMemory Transition Ring

/-- A step as the queue sees it. -/
inductive TaskEvent
  | other
  | create (task : UInt32)
  | activate (task : UInt32)

/-- `task_schedule` activates the task that is current when it is done. -/
def taskEvent (t : TaskSystem) : TaskOp → TaskEvent
  | .own _ => .other
  | .create newTask _ _ => .create newTask
  | .schedule _ => .activate t.vars.currentTask

def EventStep (s : TaskSystem) (e : TaskEvent) (t : TaskSystem) : Prop :=
  ∃ op, TaskStep s op t ∧ taskEvent t op = e

/-- The tasks activated in a run, in order. -/
def activations : List TaskEvent → List UInt32
  | [] => []
  | .other :: es => activations es
  | .create _ :: es => activations es
  | .activate p :: es => p :: activations es

variable {s t u : TaskSystem} {main : TaskArea} {e : TaskEvent} {es : List TaskEvent}
  {origin p : UInt32} {old created visits passed coming : List UInt32}

/-- A ring through any task is the queue. -/
theorem QueueInv.mem_iff {xs : List UInt32} (inv : QueueInv main s)
    (member : ∃ A ∈ s.areas, A.task = origin) (ring : IsRing (taskNext s.cpu.mem) origin xs) :
    p ∈ origin :: xs ↔ ∃ A ∈ s.areas, A.task = p := by
  obtain ⟨ys, queue, perm⟩ := inv.ring
  rw [queue.mem_congr ((mem_ring perm).mpr member) ring, mem_ring perm]

/-- The links as a new task changes them. -/
theorem QueueInv.walk_create {A : TaskArea} {stack entryPoint : UInt32} {m : Mem} {v : TaskVars}
    (inv : QueueInv main s) (member : ∃ A ∈ s.areas, A.task = origin)
    (walk : Walk (taskNext s.cpu.mem) origin old created visits s.vars.currentTask passed coming)
    (lo : A.lo = stack.toNat) (hi : A.hi = stack.toNat + 4096)
    (fresh : ∀ B ∈ s.areas, ∀ x ∈ A.bytes, x ∉ B.bytes)
    (result : initTask s.cpu.mem s.vars A.task stack entryPoint = (m, v)) :
    ∃ passed' coming', Walk (taskNext m) origin old (A.task :: created) visits
      s.vars.currentTask passed' coming' := by
  obtain ⟨-, next, linked⟩ := inv.tasks.created lo hi fresh result
  have head := (inv.mem_iff member walk.ring).mpr inv.tasks.listed
  have absent : A.task ∉ origin :: (passed ++ coming) := fun there => by
    obtain ⟨B, inside, same⟩ := (inv.mem_iff member walk.ring).mp there
    exact TaskArea.task_ne fresh inside same
  apply walk.insert head absent next linked
  intro q there other
  obtain ⟨B, inside, rfl⟩ := (inv.mem_iff member walk.ring).mp there
  exact inv.tasks.field_created (o := 16) inside lo hi fresh result (by decide) (.inl other)

/-- A step that does not activate the origin takes the walk further. -/
theorem QueueInv.walk_step (inv : QueueInv main s) (member : ∃ A ∈ s.areas, A.task = origin)
    (walk : Walk (taskNext s.cpu.mem) origin old created visits s.vars.currentTask passed coming)
    (taken : EventStep s e t) (away : e ≠ .activate origin) :
    ∃ created' passed' coming', Walk (taskNext t.cpu.mem) origin old created'
      (visits ++ activations [e]) t.vars.currentTask passed' coming' := by
  obtain ⟨op, taken, rfl⟩ := taken
  cases taken with
  | own kept =>
    rw [taskEvent, activations, activations, List.append_nil]
    refine ⟨created, passed, coming, walk.congr fun q there => ?_⟩
    obtain ⟨A, inside, rfl⟩ := (inv.mem_iff member walk.ring).mp there
    exact field_own (o := 16) inside kept (by decide)
  | create lo hi fresh result =>
    rw [taskEvent, activations, activations, List.append_nil, (initTask_vars result).1]
    exact ⟨_, inv.walk_create member walk lo hi fresh result⟩
  | @schedule _ cpu v A running task lower upper result =>
    obtain ⟨change, vars, -⟩ := inv.tasks.schedule_spec running task lower upper result
    have next := congrArg TaskVars.currentTask vars
    rw [taskEvent] at away ⊢
    rw [activations, activations]
    have same (q : UInt32) (there : q ∈ origin :: (passed ++ coming)) :
        taskNext cpu.mem q = taskNext s.cpu.mem q := by
      obtain ⟨B, inside, rfl⟩ := (inv.mem_iff member walk.ring).mp there
      exact inv.tasks.field_saved (o := 16) inside running change (.inr (by decide)) (by decide)
    cases coming with
    | nil => exact absurd (congrArg TaskEvent.activate (next.trans walk.next_origin)) away
    | cons y ys =>
      rw [next, walk.next_coming]
      refine ⟨created, passed ++ [y], ys, walk.visit.congr fun q there => same q ?_⟩
      rwa [List.append_assoc] at there

theorem areas_step {op : TaskOp} (taken : TaskStep s op t) (member : ∃ A ∈ s.areas, A.task = p) :
    ∃ A ∈ t.areas, A.task = p := by
  obtain ⟨A, there, same⟩ := member
  cases taken with
  | own => exact ⟨A, there, same⟩
  | create => exact ⟨A, .tail _ there, same⟩
  | schedule => exact ⟨A, there, same⟩

theorem activations_cons : activations (e :: es) = activations [e] ++ activations es := by
  cases e <;> rfl

theorem QueueInv.walk_run (run : Run EventStep s es t) (inv : QueueInv main s)
    (member : ∃ A ∈ s.areas, A.task = origin)
    (walk : Walk (taskNext s.cpu.mem) origin old created visits s.vars.currentTask passed coming)
    (away : .activate origin ∉ es) :
    QueueInv main t ∧ ∃ created' passed' coming', Walk (taskNext t.cpu.mem) origin old created'
      (visits ++ activations es) t.vars.currentTask passed' coming' := by
  induction run generalizing created visits passed coming with
  | nil => exact ⟨inv, created, passed, coming, by rwa [activations, List.append_nil]⟩
  | @cons s t u e es taken _ ih =>
    rw [List.mem_cons, not_or] at away
    obtain ⟨created', passed', coming', walk'⟩ := inv.walk_step member walk taken (Ne.symm away.1)
    obtain ⟨op, step, -⟩ := taken
    rw [activations_cons, ← List.append_assoc]
    exact ih (inv.step step) (areas_step step member) walk' away.2

/-- Between two consecutive activations of a task, every other task that was in the queue is
activated once, and every task created meanwhile at most once. -/
theorem round_robin (reach : TaskReachable s) (run : Run EventStep s es t)
    (away : .activate s.vars.currentTask ∉ es)
    (back : EventStep t (.activate s.vars.currentTask) u) :
    (∀ p, Queued s p → p ≠ s.vars.currentTask → (activations es).count p = 1) ∧
      ∀ p, .create p ∈ es → (activations es).count p ≤ 1 := by
  obtain ⟨main, cpu, ops, before⟩ := reach
  have inv := queueInv_of_run before
  obtain ⟨xs, queue, perm⟩ := inv.ring
  have member := (mem_ring perm).mpr inv.tasks.current
  obtain ⟨ys, ring, same⟩ := queue.enter member
  obtain ⟨inv', created, passed, coming, walk⟩ := inv.walk_run run inv.tasks.current
    (Walk.start ring) away
  -- the last step leads from the current task back to the origin
  obtain ⟨op, step, event⟩ := back
  obtain ⟨returnAddress, rfl⟩ : ∃ returnAddress, op = .schedule returnAddress := by
    cases op with
    | own => cases event
    | create => cases event
    | schedule returnAddress => exact ⟨returnAddress, rfl⟩
  have next := inv'.tasks.current_schedule step
  rw [TaskEvent.activate.inj event] at next
  cases coming with
  | cons y rest =>
    rw [walk.next_coming] at next
    have distinct := (List.nodup_cons.mp walk.ring.nodup).1
    exact absurd (by simp [next]) distinct
  | nil =>
    rw [List.nil_append] at walk
    refine ⟨fun p queued other => (walk.complete p).2 ?_ other, fun p _ => (walk.complete p).1⟩
    rw [same.mem_iff, mem_ring perm]
    exact inv.queued_iff.mp queued

/-- `main_task` and one created task take turns. -/
theorem round_robin_two : ∃ t u, Run EventStep bootTasks [.activate 0x20000] t ∧
    EventStep t (.activate 0x1000) u ∧ (activations [.activate 0x20000]).count 0x20000 = 1 := by
  have first := TaskSystem.scheduled_step (s := bootTasks) (A := bootMain) 0x5678
    (by simp [bootTasks]) rfl (by decide) (by decide)
  have second := TaskSystem.scheduled_step (s := bootTasks.scheduled 0x5678) (A := bootTask) 0x4321
    (by simp [TaskSystem.scheduled, bootTasks]) (by decide +kernel) (by decide +kernel)
    (by decide +kernel)
  have run : Run EventStep bootTasks [.activate 0x20000] (bootTasks.scheduled 0x5678) :=
    .single ⟨_, first, congrArg TaskEvent.activate (by decide +kernel)⟩
  have back : EventStep (bootTasks.scheduled 0x5678) (.activate 0x1000)
      ((bootTasks.scheduled 0x5678).scheduled 0x4321) :=
    ⟨_, second, congrArg TaskEvent.activate (by decide +kernel)⟩
  have away : TaskEvent.activate 0x1000 ∉ [TaskEvent.activate 0x20000] := by simp
  exact ⟨_, _, run, back, (round_robin bootTasks_reachable run away back).1 0x20000
    ⟨1, by decide +kernel⟩ (by decide)⟩

end FriscaOS
