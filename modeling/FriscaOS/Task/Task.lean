import FriscaOS.Memory.Heap

/-! The task control blocks and the ring of `task.c` over byte memory. The static variables of
the file are a record; `main_task` lies in memory like every other `task_t`. -/
namespace FriscaOS

open ByteMemory

/-- `sizeof(task_t)` on i386. -/
def sizeofTask : UInt32 := 20

/-! The fields of the `task_t` at `p`: `id`, `esp`, `stack`, `state` and `next`. -/

def taskId (m : Mem) (p : UInt32) : UInt32 := m.read32 p.toNat
def taskEsp (m : Mem) (p : UInt32) : UInt32 := m.read32 (p.toNat + 4)
def taskStack (m : Mem) (p : UInt32) : UInt32 := m.read32 (p.toNat + 8)
def taskState (m : Mem) (p : UInt32) : UInt32 := m.read32 (p.toNat + 12)
def taskNext (m : Mem) (p : UInt32) : UInt32 := m.read32 (p.toNat + 16)

def setTaskId (m : Mem) (p v : UInt32) : Mem := m.write32 p.toNat v
def setTaskEsp (m : Mem) (p v : UInt32) : Mem := m.write32 (p.toNat + 4) v
def setTaskStack (m : Mem) (p v : UInt32) : Mem := m.write32 (p.toNat + 8) v
def setTaskState (m : Mem) (p v : UInt32) : Mem := m.write32 (p.toNat + 12) v
def setTaskNext (m : Mem) (p v : UInt32) : Mem := m.write32 (p.toNat + 16) v

/-- `task_state_t`. -/
inductive TaskState
  | ready
  | running
  | terminated
  deriving DecidableEq, Repr

/-- The value an enumerator is stored as. -/
def TaskState.toWord : TaskState → UInt32
  | ready => 0
  | running => 1
  | terminated => 2

structure TaskVars where
  currentTask : UInt32
  taskList : UInt32
  nextPid : UInt32

/-- `task_init`, where `mainTask` is the address of `main_task`. -/
def taskInit (m : Mem) (mainTask : UInt32) : Mem × TaskVars :=
  let m := setTaskId m mainTask 0
  let m := setTaskEsp m mainTask 0
  let m := setTaskState m mainTask TaskState.running.toWord
  let m := setTaskNext m mainTask mainTask
  (m, { currentTask := mainTask, taskList := mainTask, nextPid := 1 })

theorem taskInit_within (m : Mem) (mainTask : UInt32) :
    Within {x | mainTask.toNat ≤ x ∧ x < mainTask.toNat + 20} m (taskInit m mainTask).1 := by
  have field {n : Mem} (offset : Nat) (w : UInt32) (inside : offset + 4 ≤ 20) :
      Within {x | mainTask.toNat ≤ x ∧ x < mainTask.toNat + 20} n
        (n.write32 (mainTask.toNat + offset) w) :=
    Within.write32 w fun x lower upper => ⟨by omega, by omega⟩
  exact (field 0 _ (by decide)).trans ((field 4 _ (by decide)).trans
    ((field 12 _ (by decide)).trans (field 16 _ (by decide))))

theorem taskInit_record (m : Mem) (mainTask : UInt32) :
    taskId (taskInit m mainTask).1 mainTask = 0 ∧
      taskState (taskInit m mainTask).1 mainTask = TaskState.running.toWord := by
  simp (disch := omega) only [taskInit, taskId, taskState, setTaskId, setTaskEsp, setTaskState,
    setTaskNext, Mem.read32_write32, Mem.read32_write32_apart, and_self]

/-- The words `create_task` stores below the top of a new stack: the entry point, seven
registers and EFLAGS with the interrupt flag. -/
def initialFrame (entryPoint : UInt32) : List UInt32 := [entryPoint, 0, 0, 0, 0, 0, 0, 0, 0x202]

/-- `create_task` once it has its two blocks. -/
def initTask (m : Mem) (v : TaskVars) (newTask stack entryPoint : UInt32) : Mem × TaskVars :=
  let (m, top) := storeDown m (stack + 4096) (initialFrame entryPoint)
  let m := setTaskId m newTask v.nextPid
  let m := setTaskEsp m newTask top
  let m := setTaskStack m newTask stack
  let m := setTaskState m newTask TaskState.ready.toWord
  let m := setTaskNext m newTask (taskNext m v.taskList)
  let m := setTaskNext m v.taskList newTask
  (m, { v with nextPid := v.nextPid + 1 })

/-- `create_task`: the new task, or `NULL` with the first block freed again. -/
def createTask (h : Heap) (v : TaskVars) (entryPoint : UInt32) :
    Option (Heap × TaskVars × UInt32) := do
  let (h, newTask) ← kmalloc h sizeofTask
  if newTask = NULL then return (h, v, NULL)
  let (h, stack) ← kmalloc h 4096
  if stack = NULL then
    -- roll the first allocation back
    let h ← kfree h newTask
    return (h, v, NULL)
  let (m, v) := initTask h.mem v newTask stack entryPoint
  return ({ h with mem := m }, v, newTask)

/-- Everything that `create_task` can do. -/
inductive CreateTaskOutcome (h : Heap) (v : TaskVars) (entryPoint : UInt32) :
    Heap → TaskVars → UInt32 → Prop
  | noTask {h'} : kmalloc h sizeofTask = some (h', NULL) →
      CreateTaskOutcome h v entryPoint h' v NULL
  | noStack {h₁ h₂ h' newTask} : kmalloc h sizeofTask = some (h₁, newTask) → newTask ≠ NULL →
      kmalloc h₁ 4096 = some (h₂, NULL) → kfree h₂ newTask = some h' →
      CreateTaskOutcome h v entryPoint h' v NULL
  | created {h₁ h₂ newTask stack m v'} : kmalloc h sizeofTask = some (h₁, newTask) →
      newTask ≠ NULL → kmalloc h₁ 4096 = some (h₂, stack) → stack ≠ NULL →
      initTask h₂.mem v newTask stack entryPoint = (m, v') →
      CreateTaskOutcome h v entryPoint ⟨m, h₂.heapStart⟩ v' newTask

theorem createTask_cases {h h' : Heap} {v v' : TaskVars} {entryPoint p : UInt32}
    (result : createTask h v entryPoint = some (h', v', p)) :
    CreateTaskOutcome h v entryPoint h' v' p := by
  simp only [createTask, Option.bind_eq_bind, Option.bind_eq_some_iff] at result
  obtain ⟨⟨h₁, newTask⟩, first, result⟩ := result
  by_cases noTask : newTask = NULL
  · subst noTask
    simp only [↓reduceIte, Option.pure_def, Option.some.injEq, Prod.mk.injEq] at result
    obtain ⟨rfl, rfl, rfl⟩ := result
    exact .noTask first
  · simp only [if_neg noTask, Option.bind_eq_some_iff] at result
    obtain ⟨⟨h₂, stack⟩, second, result⟩ := result
    by_cases noStack : stack = NULL
    · subst noStack
      simp only [↓reduceIte, Option.bind_eq_some_iff, Option.pure_def, Option.some.injEq,
        Prod.mk.injEq] at result
      obtain ⟨h₃, freed, rfl, rfl, rfl⟩ := result
      exact .noStack first noTask second freed
    · simp only [if_neg noStack, Option.pure_def, Option.some.injEq, Prod.mk.injEq] at result
      obtain ⟨rfl, rfl, rfl⟩ := result
      exact .created first noTask second noStack rfl

/-! ### What `create_task` leaves in memory -/

section initTask

variable {m m' : Mem} {v v' : TaskVars} {newTask stack entryPoint : UInt32}

/-- The bytes of the two new blocks and of the `next` field of the head of the ring. -/
def initTaskBytes (v : TaskVars) (newTask stack : UInt32) : Set Nat :=
  {x | newTask.toNat ≤ x ∧ x < newTask.toNat + 20 ∨
    stack.toNat ≤ x ∧ x < stack.toNat + 4096 ∨
    v.taskList.toNat + 16 ≤ x ∧ x < v.taskList.toNat + 20}

theorem initTask_vars (result : initTask m v newTask stack entryPoint = (m', v')) :
    v'.currentTask = v.currentTask ∧ v'.taskList = v.taskList := by
  simp only [initTask, Prod.mk.injEq] at result
  obtain ⟨-, rfl⟩ := result
  exact ⟨rfl, rfl⟩

theorem initTask_nextPid (result : initTask m v newTask stack entryPoint = (m', v')) :
    v'.nextPid = v.nextPid + 1 := by
  simp only [initTask, Prod.mk.injEq] at result
  exact congrArg TaskVars.nextPid result.2.symm

variable (fits : stack.toNat + 4096 < 2 ^ 32)
  (result : initTask m v newTask stack entryPoint = (m', v'))

include fits result

theorem initTask_within : Within (initTaskBytes v newTask stack) m m' := by
  have top : (stack + 4096).toNat = stack.toNat + 4096 := toNat_add_of_lt fits
  have room : 4 * (initialFrame entryPoint).length ≤ (stack + 4096).toNat := by
    simp [top, initialFrame]
  have frame := storeDown_within (m := m) room
  have field {n : Mem} (offset : Nat) (w : UInt32) (inside : offset + 4 ≤ 20) :
      Within (initTaskBytes v newTask stack) n (n.write32 (newTask.toNat + offset) w) :=
    Within.write32 w fun x lower upper => .inl ⟨by omega, by omega⟩
  simp only [initTask, Prod.mk.injEq] at result
  obtain ⟨rfl, -⟩ := result
  refine (frame.mono ?_).trans ((field 0 _ (by decide)).trans ((field 4 _ (by decide)).trans
    ((field 8 _ (by decide)).trans ((field 12 _ (by decide)).trans
    ((field 16 _ (by decide)).trans (Within.write32 _ ?_))))))
  · rintro x ⟨lower, upper⟩
    simp only [top, initialFrame, List.length_cons, List.length_nil] at lower upper
    exact .inr (.inl ⟨by omega, by omega⟩)
  · exact fun x lower upper => .inr (.inr ⟨lower, upper⟩)

variable (apart : newTask.toNat + 20 ≤ stack.toNat ∨ stack.toNat + 4096 ≤ newTask.toNat)
  (headTask : v.taskList.toNat + 20 ≤ newTask.toNat ∨ newTask.toNat + 20 ≤ v.taskList.toNat)
  (headStack : v.taskList.toNat + 20 ≤ stack.toNat ∨ stack.toNat + 4096 ≤ v.taskList.toNat)

include apart headTask headStack

/-- The new task waits at its initial frame, and comes right after the head of the ring. -/
theorem initTask_spec : taskEsp m' newTask = stack + 4096 - 36 ∧ taskStack m' newTask = stack ∧
    Words m' (stack.toNat + 4096 - 36) (initialFrame entryPoint).reverse ∧
    taskNext m' newTask = taskNext m v.taskList ∧ taskNext m' v.taskList = newTask := by
  have top : (stack + 4096).toNat = stack.toNat + 4096 := toNat_add_of_lt fits
  have room : 4 * (initialFrame entryPoint).length ≤ (stack + 4096).toNat := by
    simp [top, initialFrame]
  have frame := storeDown_within (m := m) room
  have words := storeDown_words (m := m) room
  have address := storeDown_address (m := m) room
  have length : 4 * (initialFrame entryPoint).length = 36 := rfl
  rw [top, length] at frame words address
  have esp : (storeDown m (stack + 4096) (initialFrame entryPoint)).2 = stack + 4096 - 36 := by
    apply UInt32.toNat_inj.mp
    rw [address, toNat_sub_of_le, top] <;> simp [top]
  simp only [initTask, Prod.mk.injEq] at result
  obtain ⟨rfl, -⟩ := result
  simp (disch := omega) only [taskEsp, taskStack, taskNext, setTaskId, setTaskEsp, setTaskStack,
    setTaskState, setTaskNext, Mem.read32_write32, Mem.read32_write32_apart]
  -- the stores to the two `task_t` miss the frame, and the frame misses the head of the ring
  refine ⟨esp, trivial, ?_, ?_, trivial⟩
  · apply words.congr
    intro x lower upper
    rw [List.length_reverse, length] at upper
    simp (disch := omega) only [Mem.write32_other]
  · apply frame.read32
    rintro x lower upper ⟨start, stop⟩
    omega

omit fits apart in
/-- The new task has the next id and is ready. -/
theorem initTask_record : taskId m' newTask = v.nextPid ∧
    taskState m' newTask = TaskState.ready.toWord := by
  simp only [initTask, Prod.mk.injEq] at result
  obtain ⟨rfl, -⟩ := result
  simp (disch := omega) only [taskId, taskState, setTaskId, setTaskEsp, setTaskStack, setTaskState,
    setTaskNext, Mem.read32_write32, Mem.read32_write32_apart, and_self]

end initTask

end FriscaOS
