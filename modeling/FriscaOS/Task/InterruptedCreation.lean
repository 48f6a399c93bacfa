import FriscaOS.Task.RunQueue

/-! `create_task` statement by statement, with complete calls of `task_schedule` and code of other
tasks between any two statements: to the queue it is one step, that of the last link. -/
namespace FriscaOS

open ByteMemory I386 Transition Function Ring

/-! ### The statements -/

/-- The statements of `create_task` that follow the stores to the new stack. -/
inductive FieldStmt
  -- `new_task->id = next_pid++`
  | setId
  | setEsp
  | setStack
  | setState
  -- `new_task->next = task_list->next`
  | setNext
  -- `task_list->next = new_task`
  | link
  deriving DecidableEq, Repr

def fieldStmts : List FieldStmt := [.setId, .setEsp, .setStack, .setState, .setNext, .link]

/-- A call of `create_task` that has its two blocks, with its local variables. -/
structure CreateCall where
  creator : UInt32
  entryPoint : UInt32
  -- `new_task` is the address of the `task_t` in this memory
  area : TaskArea
  stack : UInt32
  lo : area.lo = stack.toNat
  hi : area.hi = stack.toNat + 4096
  top : UInt32
  -- the words still to be stored by `*(--top) = w`, and the statements still to come
  words : List UInt32
  rest : List FieldStmt

def FieldStmt.exec (c : CreateCall) (m : Mem) (v : TaskVars) : FieldStmt → Mem × TaskVars
  | setId => (setTaskId m c.area.task v.nextPid, { v with nextPid := v.nextPid + 1 })
  | setEsp => (setTaskEsp m c.area.task c.top, v)
  | setStack => (setTaskStack m c.area.task c.stack, v)
  | setState => (setTaskState m c.area.task TaskState.ready.toWord, v)
  | setNext => (setTaskNext m c.area.task (taskNext m v.taskList), v)
  | link => (setTaskNext m v.taskList c.area.task, v)

/-- Without interruption the statements do what `initTask` does. -/
theorem exec_fieldStmts (c : CreateCall) (m : Mem) (v : TaskVars)
    (top : c.top = (storeDown m (c.stack + 4096) (initialFrame c.entryPoint)).2) :
    fieldStmts.foldl (fun r stmt => stmt.exec c r.1 r.2)
        ((storeDown m (c.stack + 4096) (initialFrame c.entryPoint)).1, v) =
      initTask m v c.area.task c.stack c.entryPoint := by
  simp only [fieldStmts, List.foldl_cons, List.foldl_nil, FieldStmt.exec, top, initTask]

/-! ### The system -/

/-- A call of `create_task` in progress. -/
inductive Creating
  -- `kmalloc` has returned `new_task`, and not been called for the stack
  | allocating (creator entryPoint newTask : UInt32)
  | filling (c : CreateCall)

/-- The tasks, the call of `create_task` that is in progress, and the tasks whose creation has
completed, the last one first. -/
structure CreationSystem where
  sys : TaskSystem
  creating : Option Creating
  completed : List UInt32

namespace CreationSystem

def init (main : TaskArea) (cpu : Cpu) : CreationSystem := ⟨TaskSystem.init main cpu, none, []⟩

/-- The blocks of a call in progress, until the new task is linked in. -/
def taken (s : CreationSystem) : Set Nat :=
  {x | match s.creating with
    | none => False
    | some (.allocating _ _ newTask) => newTask.toNat ≤ x ∧ x < newTask.toNat + 20
    | some (.filling c) => .link ∈ c.rest ∧ x ∈ c.area.bytes}

def setMem (s : CreationSystem) (m : Mem) : CreationSystem :=
  { s with sys := { s.sys with cpu := { s.sys.cpu with mem := m } } }

/-- `kmalloc` and `kfree` leave the memory of all tasks alone. -/
def AreasKept (s : CreationSystem) (m : Mem) : Prop :=
  ∀ A ∈ s.sys.areas, ∀ x ∈ A.bytes, m x = s.sys.cpu.mem x

/-- The call goes on with a statement that leaves this memory and these variables. -/
def advance (s : CreationSystem) (m : Mem) (v : TaskVars) (c : CreateCall) : CreationSystem :=
  { s with
    sys := { s.sys with cpu := { s.sys.cpu with mem := m }, vars := v }
    creating := some (.filling c) }

/-- The new task is in the queue from now on. -/
def linked (s : CreationSystem) (c : CreateCall) : CreationSystem :=
  { s with
    sys := { s.sys with
      areas := c.area :: s.sys.areas
      suspended := update s.sys.suspended c.area.task (some (.created c.entryPoint c.stack)) } }

end CreationSystem

inductive CreationOp
  | own (cpu : Cpu)
  | schedule (returnAddress : UInt32)
  | refuse
  | takeTask (entryPoint newTask : UInt32)
  | refuseStack
  | takeStack (stack : UInt32)
  | push (w : UInt32)
  | field (stmt : FieldStmt)
  | finish

open CreationSystem in
/-- A statement of `create_task` is executed by the task that called it. -/
inductive CreationStep : CreationSystem → CreationOp → CreationSystem → Prop
  | own {s cpu} : (∀ x, Foreign s.sys x → cpu.mem x = s.sys.cpu.mem x) →
      (∀ x ∈ s.taken, cpu.mem x = s.sys.cpu.mem x) →
      CreationStep s (.own cpu) { s with sys := { s.sys with cpu := cpu } }
  | schedule {s returnAddress sys} : TaskStep s.sys (.schedule returnAddress) sys →
      CreationStep s (.schedule returnAddress) { s with sys := sys }
  -- the first `kmalloc` returns `NULL`
  | refuse {s m} : s.creating = none → s.AreasKept m → CreationStep s .refuse (s.setMem m)
  | takeTask {s m entryPoint newTask} : s.creating = none → s.AreasKept m → newTask ≠ NULL →
      (∀ A ∈ s.sys.areas, ∀ x, newTask.toNat ≤ x → x < newTask.toNat + 20 → x ∉ A.bytes) →
      CreationStep s (.takeTask entryPoint newTask) { s.setMem m with
        creating := some (.allocating s.sys.vars.currentTask entryPoint newTask) }
  -- the second one does, and the first block is freed
  | refuseStack {s m creator entryPoint newTask} :
      s.creating = some (.allocating creator entryPoint newTask) →
      s.sys.vars.currentTask = creator → s.AreasKept m →
      CreationStep s .refuseStack { s.setMem m with creating := none }
  | takeStack {s m} {c : CreateCall} :
      s.creating = some (.allocating c.creator c.entryPoint c.area.task) →
      s.sys.vars.currentTask = c.creator → s.AreasKept m → c.stack ≠ NULL →
      (∀ A ∈ s.sys.areas, ∀ x, c.area.lo ≤ x → x < c.area.hi → x ∉ A.bytes) →
      c.top = c.stack + 4096 → c.words = initialFrame c.entryPoint → c.rest = fieldStmts →
      CreationStep s (.takeStack c.stack) { s.setMem m with creating := some (.filling c) }
  | push {s c w words} : s.creating = some (.filling c) → s.sys.vars.currentTask = c.creator →
      c.words = w :: words →
      CreationStep s (.push w) (s.advance (s.sys.cpu.mem.write32 (c.top - 4).toNat w) s.sys.vars
        { c with top := c.top - 4, words := words })
  | field {s c stmt rest m v} : s.creating = some (.filling c) →
      s.sys.vars.currentTask = c.creator → c.words = [] → c.rest = stmt :: rest →
      stmt.exec c s.sys.cpu.mem s.sys.vars = (m, v) →
      CreationStep s (.field stmt)
        (if stmt = .link then (s.advance m v { c with rest := rest }).linked c
          else s.advance m v { c with rest := rest })
  | finish {s c} : s.creating = some (.filling c) → s.sys.vars.currentTask = c.creator →
      c.words = [] → c.rest = [] →
      CreationStep s .finish
        { s with creating := none, completed := c.area.task :: s.completed }

/-! ### The blocks of a call in progress -/

/-- The block of the new task as far as it is filled in: a field holds its value once its statement
is no longer to come. -/
structure Filled (m : Mem) (v : TaskVars) (c : CreateCall) : Prop where
  frame : ∃ stored, initialFrame c.entryPoint = stored ++ c.words ∧
    c.top.toNat + 4 * stored.length = c.stack.toNat + 4096 ∧ Words m c.top.toNat stored.reverse
  id : .setId ∉ c.rest → taskId m c.area.task + 1 = v.nextPid
  esp : .setEsp ∉ c.rest → taskEsp m c.area.task = c.top
  stack : .setStack ∉ c.rest → taskStack m c.area.task = c.stack
  state : .setState ∉ c.rest → taskState m c.area.task = TaskState.ready.toWord
  next : .setNext ∉ c.rest → taskNext m c.area.task = taskNext m v.taskList

variable {m m' : Mem} {v v' : TaskVars} {c : CreateCall} {stmt : FieldStmt} {rest : List FieldStmt}
  {w : UInt32} {words : List UInt32} {o : Nat} {main : TaskArea} {s t : CreationSystem}

namespace FieldStmt

/-- The field of the new task that a statement stores to. -/
def offset : FieldStmt → Nat
  | setId => 0
  | setEsp => 4
  | setStack => 8
  | setState => 12
  | setNext => 16
  | link => 16

/-- What a statement makes of its field. -/
def Done (task top stack : UInt32) (m : Mem) (v : TaskVars) : FieldStmt → Prop
  | setId => taskId m task + 1 = v.nextPid
  | setEsp => taskEsp m task = top
  | setStack => taskStack m task = stack
  | setState => taskState m task = TaskState.ready.toWord
  | setNext => taskNext m task = taskNext m v.taskList
  | link => True

theorem offset_mem (stmt : FieldStmt) : stmt.offset ∈ [0, 4, 8, 12, 16] := by
  cases stmt
  all_goals decide

theorem offset_le (stmt : FieldStmt) : stmt.offset + 4 ≤ 20 := by
  cases stmt
  all_goals decide

theorem offset_ne {stmt' : FieldStmt} (different : stmt' ≠ stmt) (other : stmt ≠ .link)
    (other' : stmt' ≠ .link) : stmt'.offset ≠ stmt.offset := by
  cases stmt
  all_goals cases stmt'
  all_goals first
    | decide
    | exact absurd rfl different
    | exact absurd rfl other
    | exact absurd rfl other'

theorem Done.congr (done : stmt.Done c.area.task c.top c.stack m v)
    (field : m'.read32 (c.area.task.toNat + stmt.offset) = m.read32 (c.area.task.toNat + stmt.offset))
    (head : taskNext m' v'.taskList = taskNext m v.taskList)
    (nextPid : stmt = .setId → v'.nextPid = v.nextPid) :
    stmt.Done c.area.task c.top c.stack m' v' := by
  cases stmt with
  | setId => exact (congrArg (· + 1) field).trans (done.trans (nextPid rfl).symm)
  | setEsp | setStack | setState => exact field.trans done
  | setNext => exact field.trans (done.trans head.symm)
  | link => trivial

/-- Every statement but the last one is a store to its field. -/
theorem exec_store (c : CreateCall) (m : Mem) (v : TaskVars) (other : stmt ≠ .link) :
    ∃ w, stmt.exec c m v = (m.write32 (c.area.task.toNat + stmt.offset) w,
      { v with nextPid := if stmt = .setId then v.nextPid + 1 else v.nextPid }) := by
  cases stmt with
  | link => exact absurd rfl other
  | _ => exact ⟨_, rfl⟩

theorem exec_done (other : stmt ≠ .link) (result : stmt.exec c m v = (m', v'))
    (head : taskNext m' v'.taskList = taskNext m v.taskList) :
    stmt.Done c.area.task c.top c.stack m' v' := by
  cases stmt with
  | link => exact absurd rfl other
  | setNext =>
    cases result
    exact (Mem.read32_write32 ..).trans head.symm
  | setId =>
    cases result
    exact congrArg (· + 1) (Mem.read32_write32 ..)
  | setEsp | setStack | setState =>
    cases result
    exact Mem.read32_write32 ..

end FieldStmt

theorem Filled.done (filled : Filled m v c) (set : stmt ∉ c.rest) :
    stmt.Done c.area.task c.top c.stack m v := by
  cases stmt with
  | setId => exact filled.id set
  | setEsp => exact filled.esp set
  | setStack => exact filled.stack set
  | setState => exact filled.state set
  | setNext => exact filled.next set
  | link => trivial

theorem Filled.of_done (frame : ∃ stored, initialFrame c.entryPoint = stored ++ c.words ∧
      c.top.toNat + 4 * stored.length = c.stack.toNat + 4096 ∧ Words m c.top.toNat stored.reverse)
    (done : ∀ stmt ∉ c.rest, stmt.Done c.area.task c.top c.stack m v) : Filled m v c :=
  ⟨frame, done .setId, done .setEsp, done .setStack, done .setState, done .setNext⟩

theorem Filled.congr (filled : Filled m v c) (same : ∀ x ∈ c.area.bytes, m' x = m x)
    (head : taskNext m' v'.taskList = taskNext m v.taskList) (nextPid : v'.nextPid = v.nextPid) :
    Filled m' v' c := by
  have lo := c.lo
  have hi := c.hi
  refine .of_done ?_ fun stmt set => (filled.done set).congr ?_ head fun _ => nextPid
  · obtain ⟨stored, split, top, below⟩ := filled.frame
    have short := congrArg List.length split
    rw [List.length_append] at short
    have nine : (initialFrame c.entryPoint).length = 9 := rfl
    refine ⟨stored, split, top, below.congr fun x lower upper => same x (.inr ⟨?_, ?_⟩)⟩
    · omega
    · rw [List.length_reverse] at upper
      omega
  · have inside := stmt.offset_le
    exact Mem.read32_congr fun x lower upper => same x (.inl ⟨by omega, by omega⟩)

/-- `*(--top) = w` -/
theorem Filled.push (filled : Filled m v c) (todo : c.words = w :: words)
    (before : c.rest = fieldStmts) :
    c.area.lo ≤ (c.top - 4).toNat ∧ (c.top - 4).toNat + 4 ≤ c.area.hi ∧
      Filled (m.write32 (c.top - 4).toNat w) v { c with top := c.top - 4, words := words } := by
  obtain ⟨stored, split, top, below⟩ := filled.frame
  have short := congrArg List.length split
  rw [List.length_append, todo, List.length_cons] at short
  have nine : (initialFrame c.entryPoint).length = 9 := rfl
  have lo := c.lo
  have hi := c.hi
  have four : (4 : UInt32).toNat = 4 := rfl
  have place : (c.top - 4).toNat = c.top.toNat - 4 := toNat_sub_of_le (by omega)
  have pushed : Words (m.write32 (c.top - 4).toNat w) (c.top - 4).toNat (stored ++ [w]).reverse := by
    rw [List.reverse_append]
    refine ⟨Mem.read32_write32 .., ?_⟩
    have next : (c.top - 4).toNat + 4 = c.top.toNat := by omega
    rw [next]
    exact below.congr fun x lower upper => m.write32_other w (by omega)
  refine ⟨by omega, by omega, ⟨stored ++ [w], ?_, ?_, pushed⟩, ?_, ?_, ?_, ?_, ?_⟩
  · rw [split, todo, List.append_assoc]
    rfl
  · rw [List.length_append, List.length_singleton]
    dsimp only
    omega
  -- no field is set before the stack is filled
  all_goals
    intro set
    exact absurd (before ▸ by decide) set

/-- A store to one field of the new task leaves the rest of its memory and the head alone. -/
theorem Filled.store (filled : Filled m v c) (offset : o ∈ [0, 4, 8, 12, 16])
    (beside : v.taskList.toNat + 20 ≤ c.area.task.toNat ∨
      c.area.task.toNat + 20 ≤ v.taskList.toNat) :
    (∀ o' ∈ [0, 4, 8, 12, 16], o' ≠ o → (m.write32 (c.area.task.toNat + o) w).read32
        (c.area.task.toNat + o') = m.read32 (c.area.task.toNat + o')) ∧
      taskNext (m.write32 (c.area.task.toNat + o) w) v.taskList = taskNext m v.taskList ∧
      ∃ stored, initialFrame c.entryPoint = stored ++ c.words ∧
        c.top.toNat + 4 * stored.length = c.stack.toNat + 4096 ∧
        Words (m.write32 (c.area.task.toNat + o) w) c.top.toNat stored.reverse := by
  have inside : o + 4 ≤ 20 := by
    simp only [List.mem_cons, List.not_mem_nil, or_false] at offset
    omega
  refine ⟨fun o' offset' other => ?_, ?_, ?_⟩
  · simp only [List.mem_cons, List.not_mem_nil, or_false] at offset offset'
    exact Mem.read32_write32_apart m w (by omega)
  · exact Mem.read32_write32_apart m w (by omega)
  · obtain ⟨stored, split, top, below⟩ := filled.frame
    have short := congrArg List.length split
    rw [List.length_append] at short
    have nine : (initialFrame c.entryPoint).length = 9 := rfl
    have lo := c.lo
    have hi := c.hi
    have apart := c.area.apart
    refine ⟨stored, split, top, below.congr fun x lower upper => m.write32_other w ?_⟩
    rw [List.length_reverse] at upper
    omega

theorem Filled.field (filled : Filled m v c) (todo : c.rest = stmt :: rest) (other : stmt ≠ .link)
    (beside : v.taskList.toNat + 20 ≤ c.area.task.toNat ∨
      c.area.task.toNat + 20 ≤ v.taskList.toNat)
    (result : stmt.exec c m v = (m', v')) :
    Within c.area.bytes m m' ∧ v'.currentTask = v.currentTask ∧ v'.taskList = v.taskList ∧
      v'.nextPid = (if stmt = .setId then v.nextPid + 1 else v.nextPid) ∧
      Filled m' v' { c with rest := rest } := by
  have earlier {stmt'} (set : stmt' ∉ rest) (different : stmt' ≠ stmt) : stmt' ∉ c.rest := by
    rw [todo, List.mem_cons, not_or]
    exact ⟨different, set⟩
  have inside := stmt.offset_le
  obtain ⟨w, store⟩ := FieldStmt.exec_store c m v other
  obtain ⟨fields, head, frame⟩ := filled.store (w := w) stmt.offset_mem beside
  have stored := FieldStmt.exec_done other store head
  rw [store, Prod.mk.injEq] at result
  obtain ⟨rfl, rfl⟩ := result
  refine ⟨Within.write32 w fun x lower upper => .inl ⟨by omega, by omega⟩, rfl, rfl, rfl,
    .of_done frame fun stmt' set => ?_⟩
  by_cases same : stmt' = stmt
  · exact same ▸ stored
  · -- the statements before left their fields as they are
    by_cases last : stmt' = .link
    · subst last
      trivial
    · apply (filled.done (earlier set same)).congr
      · exact fields _ stmt'.offset_mem (FieldStmt.offset_ne same other last)
      · exact head
      · rintro rfl
        exact if_neg fun this => same this.symm

/-- Once all but the last link is done, the whole of `initTask` would change nothing else. -/
theorem Filled.initTask (filled : Filled m v c) (stored : c.words = []) (last : c.rest = [.link]) :
    initTask m { v with nextPid := v.nextPid - 1 } c.area.task c.stack c.entryPoint =
      (setTaskNext m v.taskList c.area.task, v) := by
  obtain ⟨frame, split, top, below⟩ := filled.frame
  rw [stored, List.append_nil] at split
  subst split
  have lo := c.lo
  have hi := c.hi
  have fits := c.area.stackFits
  have length : 4 * (initialFrame c.entryPoint).length = 36 := rfl
  have end_ : (c.stack + 4096).toNat = c.stack.toNat + 4096 := toNat_add_of_lt (by simp; omega)
  have room : 4 * (initialFrame c.entryPoint).length ≤ (c.stack + 4096).toNat := by omega
  have place : (c.stack + 4096).toNat - 4 * (initialFrame c.entryPoint).length = c.top.toNat := by
    omega
  have address : (storeDown m (c.stack + 4096) (initialFrame c.entryPoint)).2 = c.top :=
    UInt32.toNat_inj.mp ((storeDown_address room).trans place)
  have same : (storeDown m (c.stack + 4096) (initialFrame c.entryPoint)).1 = m :=
    storeDown_same room (by rwa [place])
  have id : taskId m c.area.task = v.nextPid - 1 := by
    rw [← filled.id (by simp [last]), UInt32.add_sub_cancel]
  have setId : setTaskId m c.area.task (v.nextPid - 1) = m := Mem.write32_same id
  have setEsp : setTaskEsp m c.area.task c.top = m := Mem.write32_same (filled.esp (by simp [last]))
  have setStack : setTaskStack m c.area.task c.stack = m :=
    Mem.write32_same (filled.stack (by simp [last]))
  have setState : setTaskState m c.area.task TaskState.ready.toWord = m :=
    Mem.write32_same (filled.state (by simp [last]))
  have setNext : setTaskNext m c.area.task (taskNext m v.taskList) = m :=
    Mem.write32_same (filled.next (by simp [last]))
  simp only [FriscaOS.initTask, address, same, setId, setEsp, setStack, setState, setNext,
    UInt32.sub_add_cancel]

/-! ### One creation is one step of the queue -/

namespace CreationSystem

/-- 1 while an id is taken for a task that is not linked in yet. -/
def pidsAhead (s : CreationSystem) : UInt32 :=
  match s.creating with
  | some (.filling c) => if .setId ∉ c.rest ∧ .link ∈ c.rest then 1 else 0
  | _ => 0

/-- The tasks, as if a creation in progress had not begun. -/
def abstract (s : CreationSystem) : TaskSystem :=
  { s.sys with vars := { s.sys.vars with nextPid := s.sys.vars.nextPid - s.pidsAhead } }

end CreationSystem

/-- What holds of the call in progress. -/
inductive CallInv (main : TaskArea) (s : CreationSystem) : Prop
  | idle : s.creating = none →
      s.sys.areas.map TaskArea.task = s.completed ++ [main.task] → CallInv main s
  | allocating {creator entryPoint newTask} :
      s.creating = some (.allocating creator entryPoint newTask) →
      s.sys.areas.map TaskArea.task = s.completed ++ [main.task] →
      (∀ A ∈ s.sys.areas, ∀ x, newTask.toNat ≤ x → x < newTask.toNat + 20 → x ∉ A.bytes) →
      CallInv main s
  | filling {c : CreateCall} : s.creating = some (.filling c) →
      s.sys.areas.map TaskArea.task = s.completed ++ [main.task] →
      .link ∈ c.rest → c.rest <:+ fieldStmts → (c.words ≠ [] → c.rest = fieldStmts) →
      (∀ A ∈ s.sys.areas, ∀ x ∈ c.area.bytes, x ∉ A.bytes) →
      Filled s.sys.cpu.mem s.sys.vars c → CallInv main s
  | linked {c : CreateCall} : s.creating = some (.filling c) →
      s.sys.areas.map TaskArea.task = c.area.task :: s.completed ++ [main.task] →
      c.words = [] → c.rest = [] → CallInv main s

variable {cpu cpu' : Cpu}

theorem foreign_area {sys : TaskSystem} {x : Nat} (foreign : Foreign sys x) :
    ∃ A ∈ sys.areas, x ∈ A.bytes := by
  obtain ⟨A, there, task | ⟨_, stack⟩⟩ := foreign
  · exact ⟨A, there, .inl task⟩
  · exact ⟨A, there, .inr stack⟩

/-- A step that leaves the memory of the tasks alone is to them like code of their own. -/
theorem abstract_own (kept : s.AreasKept m)
    (same : t.abstract = { s.abstract with cpu := { s.sys.cpu with mem := m } }) :
    TaskStep s.abstract (.own { s.sys.cpu with mem := m }) t.abstract := by
  rw [same]
  apply TaskStep.own
  intro x foreign
  obtain ⟨A, there, inside⟩ := foreign_area foreign
  exact kept A there x inside

/-- Changes of the memory that is not a task's and not the call's. -/
theorem CallInv.setMem (call : CallInv main s) (tasks : TaskInv s.abstract)
    (kept : ∀ x, Foreign s.sys x → cpu.mem x = s.sys.cpu.mem x)
    (untaken : ∀ x ∈ s.taken, cpu.mem x = s.sys.cpu.mem x) :
    CallInv main { s with sys := { s.sys with cpu := cpu } } := by
  cases call with
  | idle creating tasks => exact .idle creating tasks
  | allocating creating tasks fresh => exact .allocating creating tasks fresh
  | linked creating tasks stored done => exact .linked creating tasks stored done
  | @filling c creating list pending order whole fresh filled =>
    refine .filling creating list pending order whole fresh (filled.congr ?_ ?_ rfl)
    · intro x inside
      apply untaken x
      simp only [CreationSystem.taken, creating, Set.mem_ofPred_eq]
      exact ⟨pending, inside⟩
    · obtain ⟨head, member, listed⟩ := tasks.listed
      have same : head.task = s.sys.vars.taskList := listed
      dsimp only
      rw [← same]
      exact field_own (o := 16) member kept (by decide)

theorem CallInv.of_none (call : CallInv main s) (creating : s.creating = none) :
    s.sys.areas.map TaskArea.task = s.completed ++ [main.task] := by
  cases call with
  | idle _ list => exact list
  | allocating here | filling here | linked here =>
    rw [creating] at here
    cases here

theorem CallInv.of_allocating (call : CallInv main s) {creator entryPoint newTask : UInt32}
    (creating : s.creating = some (.allocating creator entryPoint newTask)) :
    s.sys.areas.map TaskArea.task = s.completed ++ [main.task] ∧
      ∀ A ∈ s.sys.areas, ∀ x, newTask.toNat ≤ x → x < newTask.toNat + 20 → x ∉ A.bytes := by
  cases call with
  | idle here | filling here | linked here =>
    rw [creating] at here
    cases here
  | allocating here list fresh =>
    rw [creating, Option.some.injEq, Creating.allocating.injEq] at here
    obtain ⟨-, -, rfl⟩ := here
    exact ⟨list, fresh⟩

/-- While statements are still to come the new task is not linked in. -/
theorem CallInv.of_filling (call : CallInv main s) (creating : s.creating = some (.filling c))
    (todo : c.words ≠ [] ∨ c.rest ≠ []) :
    s.sys.areas.map TaskArea.task = s.completed ++ [main.task] ∧ .link ∈ c.rest ∧
      c.rest <:+ fieldStmts ∧ (c.words ≠ [] → c.rest = fieldStmts) ∧
      (∀ A ∈ s.sys.areas, ∀ x ∈ c.area.bytes, x ∉ A.bytes) ∧
      Filled s.sys.cpu.mem s.sys.vars c := by
  cases call with
  | idle here | allocating here =>
    rw [creating] at here
    cases here
  | filling here list pending order whole fresh filled =>
    rw [creating, Option.some.injEq, Creating.filling.injEq] at here
    subst here
    exact ⟨list, pending, order, whole, fresh, filled⟩
  | linked here _ stored done =>
    rw [creating, Option.some.injEq, Creating.filling.injEq] at here
    subst here
    simp [stored, done] at todo

theorem CallInv.of_linked (call : CallInv main s) (creating : s.creating = some (.filling c))
    (done : c.rest = []) :
    s.sys.areas.map TaskArea.task = c.area.task :: s.completed ++ [main.task] := by
  cases call with
  | idle here | allocating here =>
    rw [creating] at here
    cases here
  | filling here _ pending =>
    rw [creating, Option.some.injEq, Creating.filling.injEq] at here
    subst here
    rw [done] at pending
    cases pending
  | linked here list =>
    rw [creating, Option.some.injEq, Creating.filling.injEq] at here
    subst here
    exact list

/-- The invariant of the tasks does not depend on the next id. -/
theorem TaskInv.concrete (tasks : TaskInv s.abstract) : TaskInv s.sys :=
  ⟨tasks.disjoint, tasks.current, tasks.listed, tasks.closed, tasks.waiting⟩

theorem taskSchedule_nextPid {returnAddress n : UInt32}
    (result : taskSchedule cpu v returnAddress = (cpu', v')) :
    taskSchedule cpu { v with nextPid := n } returnAddress = (cpu', { v' with nextPid := n }) := by
  by_cases none : v.currentTask = NULL
  · simp only [taskSchedule, none, ↓reduceIte, Prod.mk.injEq] at result ⊢
    obtain ⟨rfl, rfl⟩ := result
    exact ⟨rfl, by rw [none]⟩
  · by_cases other : v.currentTask = taskNext cpu.mem v.currentTask
    · simp only [taskSchedule, none, ← other, ↓reduceIte, ne_eq, not_true_eq_false,
        Prod.mk.injEq] at result ⊢
      obtain ⟨rfl, rfl⟩ := result
      exact ⟨rfl, rfl⟩
    · simp only [taskSchedule, none, other, ↓reduceIte, ne_eq, not_false_eq_true,
        Prod.mk.injEq] at result ⊢
      obtain ⟨rfl, rfl⟩ := result
      exact ⟨rfl, rfl⟩

theorem CallInv.schedule {returnAddress : UInt32} {sys : TaskSystem} (queue : QueueInv main s.abstract)
    (call : CallInv main s) (taken : TaskStep s.sys (.schedule returnAddress) sys) :
    (∃ op, TaskStep s.abstract op { s with sys := sys }.abstract) ∧
      CallInv main { s with sys := sys } := by
  cases taken with
  | @schedule _ cpu v A member running lower upper result =>
    obtain ⟨change, vars, -⟩ :=
      queue.tasks.concrete.schedule_spec member running lower upper result
    constructor
    · have nextPid : v.nextPid = s.sys.vars.nextPid := by rw [vars]
      have result' := taskSchedule_nextPid (n := s.sys.vars.nextPid - s.pidsAhead) result
      rw [← nextPid] at result'
      exact ⟨_, .schedule member running lower upper (nextPid ▸ result')⟩
    · cases call with
      | idle creating list => exact .idle creating list
      | allocating creating list fresh => exact .allocating creating list fresh
      | linked creating list stored done => exact .linked creating list stored done
      | @filling c creating list pending order whole fresh filled =>
        refine .filling creating list pending order whole fresh (filled.congr ?_ ?_ ?_)
        · exact fun x inside => change x fun saved => fresh A member x inside (A.saved_subset saved)
        · obtain ⟨head, there, listed⟩ := queue.tasks.concrete.listed
          rw [vars, ← listed]
          exact queue.tasks.concrete.field_saved (o := 16) there member change (.inr (by decide))
            (by decide)
        · rw [vars]

/-! ### The statements one by one -/

theorem CallInv.takeStack (call : CallInv main s) {creator entryPoint : UInt32}
    (creating : s.creating = some (.allocating creator entryPoint c.area.task))
    (fresh : ∀ A ∈ s.sys.areas, ∀ x, c.area.lo ≤ x → x < c.area.hi → x ∉ A.bytes)
    (top : c.top = c.stack + 4096) (words : c.words = initialFrame c.entryPoint)
    (rest : c.rest = fieldStmts) (m : Mem) :
    CallInv main { s.setMem m with creating := some (.filling c) } := by
  obtain ⟨list, freshTask⟩ := call.of_allocating creating
  refine .filling rfl list (by simp [rest, fieldStmts]) (rest ▸ List.suffix_refl _) (fun _ => rest)
    ?_ ⟨⟨[], ?_, ?_, trivial⟩, ?_, ?_, ?_, ?_, ?_⟩
  · rintro A there x (task | stack)
    · exact freshTask A there x task.1 task.2
    · exact fresh A there x stack.1 stack.2
  · rw [words, List.nil_append]
  · have hi := c.hi
    have fits := c.area.stackFits
    rw [top, toNat_add_of_lt] <;> simp
    omega
  -- no field is set yet
  all_goals
    intro set
    exact absurd (rest ▸ by decide) set

theorem CallInv.push (call : CallInv main s)
    (creating : s.creating = some (.filling c)) (todo : c.words = w :: words) :
    TaskStep s.abstract
        (.own { s.sys.cpu with mem := s.sys.cpu.mem.write32 (c.top - 4).toNat w })
        (s.advance (s.sys.cpu.mem.write32 (c.top - 4).toNat w) s.sys.vars
          { c with top := c.top - 4, words := words }).abstract ∧
      CallInv main (s.advance (s.sys.cpu.mem.write32 (c.top - 4).toNat w) s.sys.vars
        { c with top := c.top - 4, words := words }) := by
  have unfinished : c.words ≠ [] := todo ▸ List.cons_ne_nil _ _
  obtain ⟨list, pending, order, whole, fresh, filled⟩ := call.of_filling creating (.inl unfinished)
  obtain ⟨lower, upper, pushed⟩ := filled.push todo (whole unfinished)
  constructor
  · apply abstract_own
    · intro A there x inside
      apply s.sys.cpu.mem.write32_other
      by_contra outside
      exact fresh A there x (.inr ⟨by omega, by omega⟩) inside
    · simp only [CreationSystem.abstract, CreationSystem.pidsAhead, CreationSystem.advance, creating]
  · exact .filling rfl list pending order (fun _ => whole unfinished) fresh pushed

/-- The statements come in the order of the source, each once and the link last. -/
theorem fieldStmts_order (order : stmt :: rest <:+ fieldStmts) :
    rest <:+ fieldStmts ∧ (stmt = .link → rest = []) ∧ (stmt ≠ .link → .link ∈ rest) ∧
      stmt ∉ rest := by
  refine ⟨(List.suffix_cons _ _).trans order, ?_⟩
  simp only [fieldStmts, List.suffix_cons_iff, List.suffix_nil, List.cons.injEq, reduceCtorEq,
    or_false] at order
  rcases order with ⟨rfl, rfl⟩ | ⟨rfl, rfl⟩ | ⟨rfl, rfl⟩ | ⟨rfl, rfl⟩ | ⟨rfl, rfl⟩ | ⟨rfl, rfl⟩
  all_goals decide

/-- A statement before the link stores to the block of the new task only. -/
theorem CallInv.field (queue : QueueInv main s.abstract) (call : CallInv main s)
    (creating : s.creating = some (.filling c)) (stored : c.words = []) (todo : c.rest = stmt :: rest)
    (result : stmt.exec c s.sys.cpu.mem s.sys.vars = (m, v)) (before : stmt ≠ .link) :
    TaskStep s.abstract (.own { s.sys.cpu with mem := m })
        (s.advance m v { c with rest := rest }).abstract ∧
      CallInv main (s.advance m v { c with rest := rest }) := by
  have unfinished : c.rest ≠ [] := todo ▸ List.cons_ne_nil _ _
  obtain ⟨list, pending, order, whole, fresh, filled⟩ := call.of_filling creating (.inr unfinished)
  obtain ⟨later, -, linkLater, once⟩ := fieldStmts_order (todo ▸ order)
  have room : c.area.lo < c.area.hi := by
    have lo := c.lo
    have hi := c.hi
    omega
  obtain ⟨beside, -⟩ := queue.tasks.concrete.head_beside fresh room
  obtain ⟨change, current, taskList, nextPid, filled'⟩ := filled.field todo before beside result
  constructor
  · apply abstract_own
    · exact fun A there x inside => change x fun own => fresh A there x own inside
    · have ahead : v.nextPid - (s.advance m v { c with rest := rest }).pidsAhead =
          s.sys.vars.nextPid - s.pidsAhead := by
        simp only [CreationSystem.pidsAhead, CreationSystem.advance, creating, todo, nextPid,
          List.mem_cons, not_or]
        by_cases set : stmt = .setId
        · subst set
          simp [once, linkLater before]
        · simp [set, Ne.symm set, linkLater before]
      cases v
      cases current
      cases taskList
      simp only [CreationSystem.abstract, ← ahead]
      rfl
  · exact .filling rfl list (linkLater before) later (fun more => absurd stored more) fresh filled'

/-- The last statement but one of `create_task` is the step that creates the task. -/
theorem CallInv.link (call : CallInv main s) (creating : s.creating = some (.filling c))
    (stored : c.words = []) (todo : c.rest = .link :: rest)
    (result : FieldStmt.link.exec c s.sys.cpu.mem s.sys.vars = (m, v)) :
    TaskStep s.abstract (.create c.area.task c.stack c.entryPoint)
        ((s.advance m v { c with rest := rest }).linked c).abstract ∧
      CallInv main ((s.advance m v { c with rest := rest }).linked c) := by
  have unfinished : c.rest ≠ [] := todo ▸ List.cons_ne_nil _ _
  obtain ⟨list, pending, order, whole, fresh, filled⟩ := call.of_filling creating (.inr unfinished)
  obtain ⟨-, last, -, -⟩ := fieldStmts_order (todo ▸ order)
  obtain rfl := last rfl
  obtain ⟨rfl, rfl⟩ := Prod.mk.inj result
  have ahead : s.pidsAhead = 1 := by simp [CreationSystem.pidsAhead, creating, todo]
  constructor
  · have all := filled.initTask stored todo
    rw [← ahead] at all
    have created := TaskStep.create (s := s.abstract) c.lo c.hi fresh all
    simpa [CreationSystem.abstract, CreationSystem.linked, CreationSystem.advance,
      CreationSystem.pidsAhead] using created
  · exact .linked rfl (congrArg (c.area.task :: ·) list) stored rfl

theorem CallInv.finish (call : CallInv main s) (creating : s.creating = some (.filling c))
    (done : c.rest = []) :
    TaskStep s.abstract (.own s.sys.cpu) { s with
        creating := none, completed := c.area.task :: s.completed }.abstract ∧
      CallInv main { s with creating := none, completed := c.area.task :: s.completed } := by
  constructor
  · apply abstract_own (fun _ _ _ _ => rfl)
    simp [CreationSystem.abstract, CreationSystem.pidsAhead, creating, done]
  · exact .idle rfl (call.of_linked creating done)

/-- To the queue, every statement of `create_task` but the last link is code of the task itself. -/
theorem CallInv.step {op : CreationOp} (queue : QueueInv main s.abstract) (call : CallInv main s)
    (taken : CreationStep s op t) : (∃ op, TaskStep s.abstract op t.abstract) ∧ CallInv main t := by
  cases taken with
  | own kept untaken => exact ⟨⟨_, .own kept⟩, call.setMem queue.tasks kept untaken⟩
  | schedule taken => exact call.schedule queue taken
  | refuse creating kept =>
    exact ⟨⟨_, abstract_own kept (by simp [CreationSystem.abstract, CreationSystem.pidsAhead,
      CreationSystem.setMem])⟩, .idle creating (call.of_none creating)⟩
  | takeTask creating kept _ fresh =>
    exact ⟨⟨_, abstract_own kept (by simp [CreationSystem.abstract, CreationSystem.pidsAhead,
      CreationSystem.setMem, creating])⟩, .allocating rfl (call.of_none creating) fresh⟩
  | refuseStack creating _ kept =>
    exact ⟨⟨_, abstract_own kept (by simp [CreationSystem.abstract, CreationSystem.pidsAhead,
      CreationSystem.setMem, creating])⟩, .idle rfl (call.of_allocating creating).1⟩
  | takeStack creating _ kept _ fresh top words rest =>
    exact ⟨⟨_, abstract_own kept (by simp [CreationSystem.abstract, CreationSystem.pidsAhead,
      CreationSystem.setMem, creating, rest, fieldStmts])⟩,
      call.takeStack creating fresh top words rest _⟩
  | push creating _ todo => exact (call.push creating todo).imp_left fun taken => ⟨_, taken⟩
  | @field c stmt rest m v creating _ stored todo result =>
    by_cases link : stmt = .link
    · subst link
      rw [if_pos rfl]
      exact (call.link creating stored todo result).imp_left fun taken => ⟨_, taken⟩
    · rw [if_neg link]
      exact (call.field queue creating stored todo result link).imp_left fun taken => ⟨_, taken⟩
  | finish creating _ _ done => exact (call.finish creating done).imp_left fun taken => ⟨_, taken⟩

/-! ### Runs -/

theorem callInv_init (main : TaskArea) (cpu : Cpu) : CallInv main (CreationSystem.init main cpu) :=
  .idle rfl rfl

theorem creationInv_of_run {ops : List CreationOp}
    (run : Run CreationStep (CreationSystem.init main cpu) ops s) :
    QueueInv main s.abstract ∧ CallInv main s := by
  apply run.invariant (fun s => QueueInv main s.abstract ∧ CallInv main s)
  · intro s op t ⟨queue, call⟩ taken
    obtain ⟨⟨op, step⟩, call'⟩ := call.step queue taken
    exact ⟨queue.step step, call'⟩
  · have initial : (CreationSystem.init main cpu).abstract = TaskSystem.init main cpu := by
      simp [CreationSystem.abstract, CreationSystem.pidsAhead, CreationSystem.init]
    exact ⟨initial ▸ queueInv_init main cpu, callInv_init main cpu⟩

/-- The task has a stack of its own with its stack pointer in it, and unless it runs a frame waits
there: the initial one until it is first switched to. -/
def TaskReady (s : TaskSystem) (p : UInt32) : Prop :=
  ∃ A ∈ s.areas, A.task = p ∧ StackRecorded s.cpu.mem A ∧
    (p ≠ s.vars.currentTask → ∃ c, s.suspended p = some c ∧ Waiting s.cpu.mem A c)

structure QueueIntact (main : TaskArea) (s : CreationSystem) (xs : List UInt32) : Prop where
  ring : IsRing (taskNext s.sys.cpu.mem) s.sys.vars.taskList xs
  root : main.task ∈ s.sys.vars.taskList :: xs
  completed : ∀ p ∈ s.completed, p ∈ s.sys.vars.taskList :: xs
  current : s.sys.vars.currentTask ∈ s.sys.vars.taskList :: xs
  ids : ((s.sys.vars.taskList :: xs).map (taskId s.sys.cpu.mem)).Nodup
  ready : ∀ p ∈ s.sys.vars.taskList :: xs, p ≠ main.task → TaskReady s.sys p

/-- At most one task on the ring has not completed its creation. -/
theorem CallInv.areas (call : CallInv main s) : s.sys.areas.length ≤ s.completed.length + 2 ∧
    ∀ p ∈ s.completed, ∃ A ∈ s.sys.areas, A.task = p := by
  have listed {created : List UInt32} (list : s.sys.areas.map TaskArea.task = created) :
      s.sys.areas.length = created.length ∧
        ∀ p ∈ created, ∃ A ∈ s.sys.areas, A.task = p := by
    rw [← list, List.length_map]
    exact ⟨rfl, fun p member => List.mem_map.mp member⟩
  cases call with
  | idle _ list | allocating _ list | filling _ list =>
    obtain ⟨length, members⟩ := listed list
    rw [List.length_append, List.length_singleton] at length
    exact ⟨by omega, fun p member => members p (List.mem_append_left _ member)⟩
  | linked _ list =>
    obtain ⟨length, members⟩ := listed list
    rw [List.length_append, List.length_cons, List.length_singleton] at length
    exact ⟨by omega, fun p member => members p (List.mem_append_left _ (.tail _ member))⟩

/-- Wherever calls of `task_schedule` interrupt a call of `create_task`, the queue is whole. -/
theorem queue_intact {ops : List CreationOp}
    (run : Run CreationStep (CreationSystem.init main cpu) ops s)
    (few : s.completed.length < 2 ^ 32 - 1) : ∃ xs, QueueIntact main s xs := by
  obtain ⟨queue, call⟩ := creationInv_of_run run
  obtain ⟨bound, completed⟩ := call.areas
  obtain ⟨xs, ring, perm⟩ := queue.ring
  have head : s.sys.vars.taskList = main.task := queue.listed
  have member {p : UInt32} : p ∈ main.task :: xs ↔ ∃ A ∈ s.sys.areas, A.task = p := mem_ring perm
  refine ⟨xs, ?_⟩
  constructor <;> rw [head]
  · exact ring
  · exact .head _
  · exact fun p done => member.mpr (completed p done)
  · exact member.mpr queue.tasks.current
  · have ids : (s.sys.areas.map (fun A => taskId s.sys.cpu.mem A.task)).Nodup := by
      have given := queue.ids
      have distinct : ((List.range s.sys.areas.length).reverse.map UInt32.ofNat).Nodup := by
        apply (List.nodup_reverse.mpr List.nodup_range).map_on
        intro i left j right same
        rw [List.mem_reverse, List.mem_range] at left right
        have values := congrArg UInt32.toNat same
        rwa [UInt32.toNat_ofNat', UInt32.toNat_ofNat', Nat.mod_eq_of_lt (by omega),
          Nat.mod_eq_of_lt (by omega)] at values
      exact given ▸ distinct
    have moved := perm.map (taskId s.sys.cpu.mem)
    rw [List.map_map] at moved
    exact moved.nodup_iff.mpr ids
  · intro p there other
    obtain ⟨A, area, rfl⟩ := member.mp there
    exact ⟨A, area, rfl, queue.recorded A area other, fun away => queue.tasks.waiting A area away⟩

/-! ### A call that is not interrupted -/

theorem CreationStep.pushes (creating : s.creating = some (.filling c))
    (current : s.sys.vars.currentTask = c.creator) (todo : c.words = words) :
    ∃ m top, Run CreationStep s (words.map .push)
      (s.advance m s.sys.vars { c with top := top, words := [] }) := by
  induction words generalizing s c with
  | nil =>
    refine ⟨s.sys.cpu.mem, c.top, ?_⟩
    have unchanged : s.advance s.sys.cpu.mem s.sys.vars { c with top := c.top, words := [] } = s := by
      cases s
      cases creating
      rw [← todo]
      rfl
    rw [unchanged]
    exact .nil s
  | cons w words ih =>
    have taken := CreationStep.push creating current todo
    obtain ⟨m, top, run⟩ := ih
      (s := s.advance (s.sys.cpu.mem.write32 (c.top - 4).toNat w) s.sys.vars
        { c with top := c.top - 4, words := words })
      (c := { c with top := c.top - 4, words := words }) rfl current rfl
    exact ⟨m, top, .cons taken run⟩

/-- What statements that are not interrupted leave: the task runs on, and its new task is one more
area from its last link on. -/
structure RunsOn (s : CreationSystem) (c : CreateCall) (linked : Prop) (t : CreationSystem) :
    Prop where
  current : t.sys.vars.currentTask = c.creator
  esp : t.sys.cpu.esp = s.sys.cpu.esp
  areas : ∀ A, A ∈ t.sys.areas ↔ A ∈ s.sys.areas ∨ linked ∧ A = c.area

theorem CreationStep.fields (creating : s.creating = some (.filling c))
    (current : s.sys.vars.currentTask = c.creator) (stored : c.words = []) (todo : c.rest = rest) :
    ∃ t, Run CreationStep s (rest.map .field) t ∧
      t.creating = some (.filling { c with rest := [] }) ∧ t.completed = s.completed ∧
      RunsOn s c (.link ∈ rest) t := by
  induction rest generalizing s c with
  | nil =>
    exact ⟨s, .nil s, by rw [creating, ← todo], rfl, current, rfl, fun A => by simp⟩
  | cons stmt rest ih =>
    obtain ⟨⟨m, v⟩, result⟩ : ∃ r, stmt.exec c s.sys.cpu.mem s.sys.vars = r := ⟨_, rfl⟩
    have taken := CreationStep.field creating current stored todo result
    have same : v.currentTask = s.sys.vars.currentTask := by
      cases stmt <;> cases result <;> rfl
    by_cases link : stmt = .link
    · rw [if_pos link] at taken
      obtain ⟨t, run, done, completed, after⟩ := ih
        (s := (s.advance m v { c with rest := rest }).linked c)
        (c := { c with rest := rest }) rfl (same.trans current) stored rfl
      refine ⟨t, .cons taken run, done, completed, after.current, after.esp, fun A => ?_⟩
      rw [after.areas]
      simp only [CreationSystem.linked, CreationSystem.advance, List.mem_cons, link, true_or,
        true_and]
      tauto
    · rw [if_neg link] at taken
      obtain ⟨t, run, done, completed, after⟩ := ih (s := s.advance m v { c with rest := rest })
        (c := { c with rest := rest }) rfl (same.trans current) stored rfl
      refine ⟨t, .cons taken run, done, completed, after.current, after.esp, fun A => ?_⟩
      rw [after.areas, List.mem_cons, or_iff_right (Ne.symm link)]
      rfl

/-- Without interruption a call that has its two blocks completes. -/
theorem CreationStep.completes (creating : s.creating = some (.filling c))
    (current : s.sys.vars.currentTask = c.creator) (todo : c.rest = fieldStmts) :
    ∃ ops t, Run CreationStep s ops t ∧ t.creating = none ∧
      t.completed = c.area.task :: s.completed ∧ RunsOn s c True t := by
  obtain ⟨m, top, pushes⟩ := CreationStep.pushes creating current rfl
  obtain ⟨t, fields, done, completed, after⟩ := CreationStep.fields
    (s := s.advance m s.sys.vars { c with top := top, words := [] })
    (c := { c with top := top, words := [] }) rfl current rfl todo
  have finish := CreationStep.finish done after.current rfl rfl
  refine ⟨_, _, pushes.append (fields.append (.single finish)), rfl,
    congrArg (c.area.task :: ·) completed, after.current, after.esp, fun A => ?_⟩
  refine (after.areas A).trans ?_
  have last : FieldStmt.link ∈ fieldStmts := by decide
  simp only [last]
  rfl

/-! ### A call that is interrupted -/

/-- Two tasks on the ring take turns. -/
theorem next_of_two {ops : List CreationOp} {p : UInt32}
    (run : Run CreationStep (CreationSystem.init main cpu) ops s)
    (two : s.sys.areas.map TaskArea.task = [p, main.task]) :
    taskNext s.sys.cpu.mem main.task = p ∧ taskNext s.sys.cpu.mem p = main.task := by
  obtain ⟨xs, ring, perm⟩ := (creationInv_of_run run).1.ring
  have others : xs.Perm [p] := by
    have swapped := perm.trans (List.Perm.of_eq two)
    exact (swapped.trans (.swap ..)).cons_inv
  obtain rfl := List.perm_singleton.mp others
  exact ring.links

/-- A call by `main_task` that has these two blocks. -/
def creationCall (area : TaskArea) (stack : UInt32) (lo : area.lo = stack.toNat)
    (hi : area.hi = stack.toNat + 4096) : CreateCall :=
  { creator := 0x1000, entryPoint := 0x4321, area := area, stack := stack, lo := lo, hi := hi
    top := stack + 4096, words := initialFrame 0x4321, rest := fieldStmts }

def firstCall : CreateCall := creationCall bootTask 0x30000 rfl rfl

def secondTask : TaskArea :=
  ⟨0x40000, 0x50000, 0x51000, by decide, by decide, by decide, by decide⟩

def secondCall : CreateCall := creationCall secondTask 0x50000 rfl rfl

theorem bootTask_apart {x : Nat} (inside : x ∈ bootTask.bytes) : x ∉ bootMain.bytes := by
  simp only [TaskArea.bytes, Set.mem_ofPred_eq, bootMain, bootTask, UInt32.reduceToNat] at *
  omega

theorem secondTask_apart {x : Nat} (inside : x ∈ secondTask.bytes) :
    x ∉ bootMain.bytes ∧ x ∉ bootTask.bytes := by
  simp only [TaskArea.bytes, Set.mem_ofPred_eq, bootMain, bootTask, secondTask,
    UInt32.reduceToNat] at *
  omega

/-- The first task, created without interruption. -/
theorem firstCall_completes : ∃ ops t, Run CreationStep (CreationSystem.init bootMain bootCpu) ops t ∧
    t.creating = none ∧ t.completed = [0x20000] ∧ t.sys.vars.currentTask = 0x1000 ∧
    t.sys.cpu.esp = 0x8800 ∧ ∀ A, A ∈ t.sys.areas ↔ A = bootMain ∨ A = bootTask := by
  let s := CreationSystem.init bootMain bootCpu
  have only : ∀ A ∈ s.sys.areas, A = bootMain := fun A member => List.mem_singleton.mp member
  have task : CreationStep s (.takeTask 0x4321 0x20000) _ := .takeTask (m := s.sys.cpu.mem) rfl
    (fun _ _ _ _ => rfl) (by decide) fun A there x lower upper => by
      rw [only A there]
      exact bootTask_apart (.inl ⟨lower, upper⟩)
  have stack := CreationStep.takeStack (c := firstCall) (m := s.sys.cpu.mem)
    (s := { s.setMem s.sys.cpu.mem with creating := some (.allocating 0x1000 0x4321 0x20000) }) rfl rfl
    (fun _ _ _ _ => rfl) (by decide) (fun A there x lower upper => by
      rw [only A there]
      exact bootTask_apart (.inr ⟨lower, upper⟩)) rfl rfl rfl
  obtain ⟨ops, t, run, idle, completed, after⟩ := CreationStep.completes (c := firstCall)
    (s := { s.setMem s.sys.cpu.mem with creating := some (.filling firstCall) }) rfl rfl rfl
  refine ⟨_, t, .cons task (.cons stack run), idle, completed, after.current, after.esp, fun A => ?_⟩
  rw [after.areas, true_and]
  exact or_congr_left List.mem_singleton

/-- `main_task` creates a task, and is switched away from and back to while it creates another. -/
theorem queue_intact_created : ∃ before cpu after s xs,
    Run CreationStep (CreationSystem.init bootMain bootCpu)
      (before ++ ([.takeTask 0x4321 0x40000, .schedule 0x5678, .own cpu, .schedule 0x4444,
        .takeStack 0x50000] ++ after)) s ∧
      s.completed = [0x40000, 0x20000] ∧ QueueIntact bootMain s xs := by
  obtain ⟨before, s, run, idle, completed, current, esp, areas⟩ := firstCall_completes
  have fresh (A : TaskArea) (there : A ∈ s.sys.areas) {x : Nat} (inside : x ∈ secondTask.bytes) :
      x ∉ A.bytes := by
    obtain ⟨main, task⟩ := secondTask_apart inside
    rcases (areas A).mp there with rfl | rfl
    · exact main
    · exact task
  -- `kmalloc` has returned the `task_t`
  let s₁ : CreationSystem := { s with creating := some (.allocating 0x1000 0x4321 0x40000) }
  have taken : CreationStep s (.takeTask 0x4321 0x40000) s₁ := by
    have step : CreationStep s (.takeTask 0x4321 0x40000) _ :=
      .takeTask (m := s.sys.cpu.mem) idle (fun _ _ _ _ => rfl) (by decide)
        fun A there x lower upper => fresh A there (.inl ⟨lower, upper⟩)
    rwa [current] at step
  have run₁ := run.append (.single taken)
  have two : s.sys.areas.map TaskArea.task = [0x20000, 0x1000] := by
    have list := ((creationInv_of_run run₁).2.of_allocating rfl).1
    rwa [show s₁.completed = [0x20000] from completed] at list
  -- the other task is switched to
  let s₂ : CreationSystem := { s₁ with sys := s₁.sys.scheduled 0x5678 }
  have step : TaskStep s₁.sys (.schedule 0x5678) s₂.sys :=
    TaskSystem.scheduled_step (A := bootMain) 0x5678 ((areas _).mpr (.inl rfl)) current.symm
      (by rw [esp]; decide) (by rw [esp]; decide)
  have run₂ := run₁.append (.single (.schedule step))
  have away : s₂.sys.vars.currentTask = 0x20000 := by
    rw [(creationInv_of_run run₁).1.tasks.concrete.current_schedule step, current]
    exact (next_of_two run₁ two).1
  -- it runs, and calls `task_schedule` in its turn
  let cpu := { s₂.sys.cpu with esp := 0x30800 }
  let s₃ : CreationSystem := { s₂ with sys := { s₂.sys with cpu := cpu } }
  have code : CreationStep s₂ (.own cpu) s₃ := .own (fun _ _ => rfl) fun _ _ => rfl
  have run₃ := run₂.append (.single code)
  have esp' : s₃.sys.cpu.esp = 0x30800 := rfl
  let s₄ : CreationSystem := { s₃ with sys := s₃.sys.scheduled 0x4444 }
  have step' : TaskStep s₃.sys (.schedule 0x4444) s₄.sys :=
    TaskSystem.scheduled_step (A := bootTask) 0x4444 ((areas _).mpr (.inr rfl)) away.symm
      (by rw [esp']; decide) (by rw [esp']; decide)
  have run₄ := run₃.append (.single (.schedule step'))
  have back : s₄.sys.vars.currentTask = 0x1000 := by
    rw [(creationInv_of_run run₃).1.tasks.concrete.current_schedule step', away]
    exact (next_of_two run₃ two).2
  -- and the creation goes on
  have stack := CreationStep.takeStack (c := secondCall) (m := s₄.sys.cpu.mem) (s := s₄) rfl back
    (fun _ _ _ _ => rfl) (by decide) (fun A there x lower upper =>
      fresh A there (.inr ⟨lower, upper⟩)) rfl rfl rfl
  obtain ⟨after, t, rest, -, completed', -⟩ := CreationStep.completes (c := secondCall)
    (s := { s₄ with creating := some (.filling secondCall) }) rfl back rfl
  have whole := run₄.append (.cons stack rest)
  simp only [List.append_assoc, List.singleton_append] at whole
  have created : t.completed = [0x40000, 0x20000] :=
    completed'.trans (congrArg (0x40000 :: ·) completed)
  obtain ⟨xs, intact⟩ := queue_intact whole (by simp [created])
  exact ⟨before, cpu, after, t, xs, whole, created, intact⟩

end FriscaOS
