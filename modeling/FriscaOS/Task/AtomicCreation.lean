import FriscaOS.Memory.HeapCanonical
import FriscaOS.Memory.Layers
import FriscaOS.Task.Creation
import FriscaOS.Task.RunQueue

/-! The tasks and the heap their blocks come from as one system. In each of its states
`create_task` either succeeds with two new blocks, or leaves everything as it was. -/
namespace FriscaOS

open ByteMemory FreeList I386 Transition Function

/-! ### The system -/

/-- Where the memory lies: the heap region, and beside it `main_task` and its stack. -/
structure TaskLayout where
  region : HeapRegion
  main : TaskArea
  beside : ∀ x ∈ main.bytes, x < region.base.toNat ∨ region.base.toNat + 16384 ≤ x

/-- The tasks, with the heap in their memory. What is handed out, and which of it belongs to
tasks, is remembered on the side. -/
structure TaskHeap where
  tasks : TaskSystem
  heapStart : UInt32
  live : List UInt32
  taskBlocks : List UInt32

def TaskSystem.withMem (s : TaskSystem) (m : Mem) : TaskSystem :=
  { s with cpu := { s.cpu with mem := m } }

def TaskHeap.mem (s : TaskHeap) : Mem := s.tasks.cpu.mem

def TaskHeap.heap (s : TaskHeap) : Heap := ⟨s.mem, s.heapStart⟩

def TaskHeap.run (s : TaskHeap) : HeapRun := ⟨s.heap, s.live⟩

/-- The heap of `s` becomes that of `t`. -/
def TaskHeap.withHeap (s : TaskHeap) (t : HeapRun) : TaskHeap :=
  { s with tasks := s.tasks.withMem t.heap.mem, heapStart := t.heap.heapStart, live := t.live }

/-- After `heap_init` and `task_init`. -/
def TaskHeap.init (L : TaskLayout) (cpu : Cpu) : TaskHeap :=
  let heap := heapInitAt cpu.mem L.region.base
  { tasks := .init L.main { cpu with mem := heap.mem }, heapStart := heap.heapStart, live := []
    taskBlocks := [] }

/-- The tasks together with one that waits to start. -/
def TaskSystem.created (s : TaskSystem) (A : TaskArea) (m : Mem) (v : TaskVars)
    (entryPoint stack : UInt32) : TaskSystem :=
  { cpu := { s.cpu with mem := m }, vars := v, areas := A :: s.areas
    suspended := update s.suspended A.task (some (.created entryPoint stack)) }

/-- The state after a `create_task` that returned the task of the area. -/
def TaskHeap.created (s : TaskHeap) (A : TaskArea) (h : Heap) (v : TaskVars)
    (entryPoint : UInt32) : TaskHeap :=
  let stack := taskStack h.mem A.task
  { tasks := s.tasks.created A h.mem v entryPoint stack
    heapStart := h.heapStart
    live := stack :: A.task :: s.live
    taskBlocks := stack :: A.task :: s.taskBlocks }

inductive TaskHeapOp
  | own (cpu : Cpu)
  | kmalloc (size : UInt32)
  | kfree (ptr : UInt32)
  | createTask (entryPoint : UInt32)
  | schedule (returnAddress : UInt32)

inductive TaskHeapStep (L : TaskLayout) : TaskHeap → TaskHeapOp → TaskHeap → Prop
  -- in the heap, code of a task stores to blocks that were handed out
  | own {s cpu} : (∀ x, Foreign s.tasks x → cpu.mem x = s.mem x) →
      Within (clientBytes L.region s.mem s.live) s.mem cpu.mem →
      TaskHeapStep L s (.own cpu) { s with tasks := { s.tasks with cpu := cpu } }
  | kmalloc {s size h p} : kmalloc s.heap size = some (h, p) →
      TaskHeapStep L s (.kmalloc size) (s.withHeap ⟨h, if p = NULL then s.live else p :: s.live⟩)
  -- nothing in the kernel frees the blocks of a task once it is created
  | kfree {s ptr h} : ptr = NULL ∨ ptr ∈ s.live → ptr ∉ s.taskBlocks →
      kfree s.heap ptr = some h →
      TaskHeapStep L s (.kfree ptr) (s.withHeap ⟨h, s.live.erase ptr⟩)
  | taskCreated {s entryPoint h v} {A : TaskArea} :
      createTask s.heap s.tasks.vars entryPoint = some (h, v, A.task) →
      A.lo = (taskStack h.mem A.task).toNat →
      A.hi = (taskStack h.mem A.task).toNat + 4096 →
      TaskHeapStep L s (.createTask entryPoint) (s.created A h v entryPoint)
  | taskRefused {s entryPoint h v} :
      createTask s.heap s.tasks.vars entryPoint = some (h, v, NULL) →
      TaskHeapStep L s (.createTask entryPoint)
        { s.withHeap ⟨h, s.live⟩ with tasks := { s.tasks.withMem h.mem with vars := v } }
  | schedule {s returnAddress t} : TaskStep s.tasks (.schedule returnAddress) t →
      TaskHeapStep L s (.schedule returnAddress) { s with tasks := t }

/-- Reachable after boot, whatever the memory held before. -/
def TaskHeapReachable (L : TaskLayout) (s : TaskHeap) : Prop :=
  ∃ cpu ops, Run (TaskHeapStep L) (TaskHeap.init L cpu) ops s

/-! ### The invariant -/

/-- Every task lies in blocks of tasks, or beside the heap. -/
structure TaskHeapInv (L : TaskLayout) (s : TaskHeap) : Prop where
  heap : ∃ bs, HeapInv L.region s.run bs
  queue : QueueInv L.main s.tasks
  owned : ∀ q ∈ s.taskBlocks, q ∈ s.live
  placed : ∀ A ∈ s.tasks.areas, A.bytes ⊆ clientBytes L.region s.mem s.taskBlocks

variable {L : TaskLayout} {s t : TaskHeap} {A : TaskArea} {h h₁ h₂ : Heap} {v : TaskVars}
  {p q newTask stack entryPoint : UInt32} {bs : List Block} {m m' : Mem} {cpu : Cpu}

/-- The record of `main_task` lies beside the heap. -/
theorem TaskLayout.beside_task (L : TaskLayout) :
    L.main.task.toNat + 20 ≤ L.region.base.toNat ∨
      L.region.base.toNat + 16384 ≤ L.main.task.toNat := by
  apply ranges_apart (by omega) (by omega)
  rintro x lower upper ⟨start, stop⟩
  rcases L.beside x (.inl ⟨lower, upper⟩) with below | above
  all_goals omega

theorem TaskHeap.init_heap (L : TaskLayout) (cpu : Cpu) :
    HeapInv L.region (TaskHeap.init L cpu).run (initialBlocks L.region) := by
  have nobody : ∀ q ∈ ([] : List UInt32), q ∈ ([] : List UInt32) := fun _ member => member
  apply (heapInv_init L.region cpu.mem).client nobody
  apply (taskInit_within _ L.main.task).mono
  rintro x ⟨lower, upper⟩
  rcases L.beside_task with below | above
  · exact .inl (by omega)
  · exact .inr (.inl (by omega))

theorem taskHeapInv_init (L : TaskLayout) (cpu : Cpu) : TaskHeapInv L (TaskHeap.init L cpu) where
  heap := ⟨_, TaskHeap.init_heap L cpu⟩
  queue := queueInv_init L.main _
  owned q member := member
  placed A member := by
    obtain rfl := List.mem_singleton.mp member
    intro x inside
    exact (L.beside x inside).imp_right .inl

/-- What blocks cover depends on their recorded sizes only. -/
theorem clientBytes_congr {R : HeapRegion} {owners : List UInt32}
    (same : ∀ q ∈ owners, payloadSize m' q = payloadSize m q) :
    clientBytes R m' owners = clientBytes R m owners := by
  ext x
  simp only [clientBytes, payloadBytes, Set.mem_ofPred_eq]
  refine or_congr_right (or_congr_right (exists_congr fun q => and_congr_right fun owner => ?_))
  rw [same q owner]

/-! ### Calls of the heap -/

/-- For the tasks, stores that keep their memory are stores of the running task. -/
theorem TaskSystem.own_step {s : TaskSystem}
    (kept : ∀ A ∈ s.areas, ∀ x ∈ A.bytes, m x = s.cpu.mem x) :
    TaskStep s (.own { s.cpu with mem := m }) (s.withMem m) := by
  apply TaskStep.own
  rintro x ⟨B, member, record | ⟨-, lower, upper⟩⟩
  · exact kept B member x (.inl record)
  · exact kept B member x (.inr ⟨lower, upper⟩)

/-- A call of the heap that keeps the blocks of tasks leaves the tasks as they were. -/
theorem TaskHeapInv.withHeap {t : HeapRun} (inv : TaskHeapInv L s) (heap : HeapInv L.region t bs)
    (change : Within {x | L.region.base.toNat ≤ x ∧ x < L.region.base.toNat + 16384}
      s.mem t.heap.mem)
    (untouched : ∀ q ∈ s.taskBlocks, Untouched s.run t q) :
    TaskHeapInv L (s.withHeap t) ∧
      ∀ A ∈ s.tasks.areas, ∀ x ∈ A.bytes, t.heap.mem x = s.mem x := by
  have kept (B : TaskArea) (member : B ∈ s.tasks.areas) (x : Nat) (inside : x ∈ B.bytes) :
      t.heap.mem x = s.mem x := by
    rcases inv.placed B member inside with below | above | ⟨q, owner, payload⟩
    · exact change x fun region => by have := region.1; omega
    · exact change x fun region => by have := region.2; omega
    · exact (untouched q owner).bytes x payload
  refine ⟨⟨⟨bs, heap⟩, ?_, fun q owner => (untouched q owner).live, fun B member => ?_⟩, kept⟩
  · exact inv.queue.step (TaskSystem.own_step kept)
  · have sizes : clientBytes L.region t.heap.mem s.taskBlocks =
        clientBytes L.region s.mem s.taskBlocks :=
      clientBytes_congr fun q owner => (untouched q owner).size
    exact sizes.symm ▸ inv.placed B member

theorem TaskHeapInv.kmalloc {size : UInt32} (inv : TaskHeapInv L s)
    (result : kmalloc s.heap size = some (h, p)) :
    TaskHeapInv L (s.withHeap ⟨h, if p = NULL then s.live else p :: s.live⟩) ∧
      ∀ A ∈ s.tasks.areas, ∀ x ∈ A.bytes, h.mem x = s.mem x := by
  obtain ⟨bs, heap⟩ := inv.heap
  obtain ⟨cs, heap', untouched⟩ := heap.kmalloc_step result
  exact inv.withHeap heap' (heap.kmalloc_region result) fun q owner =>
    untouched q (inv.owned q owner)

theorem TaskHeapInv.kfree (inv : TaskHeapInv L s) (legal : p = NULL ∨ p ∈ s.live)
    (foreign : p ∉ s.taskBlocks) (result : kfree s.heap p = some h) :
    TaskHeapInv L (s.withHeap ⟨h, s.live.erase p⟩) ∧
      ∀ A ∈ s.tasks.areas, ∀ x ∈ A.bytes, h.mem x = s.mem x := by
  obtain ⟨bs, heap⟩ := inv.heap
  obtain ⟨cs, heap', untouched⟩ := heap.kfree_step legal result
  refine inv.withHeap heap' (heap.kfree_region legal result) fun q owner => ?_
  exact untouched q (inv.owned q owner) fun same => foreign (same ▸ owner)

/-! ### Stores of tasks -/

/-- Stores to blocks that were handed out leave the blocks where they are. -/
theorem TaskHeapInv.stored {u : TaskSystem} (inv : TaskHeapInv L s) (queue : QueueInv L.main u)
    (areas : u.areas = s.tasks.areas)
    (change : Within (clientBytes L.region s.mem s.live) s.mem u.cpu.mem) :
    TaskHeapInv L { s with tasks := u } := by
  obtain ⟨bs, heap⟩ := inv.heap
  have heap' := heap.client (fun q member => member) change
  refine ⟨⟨bs, heap'⟩, queue, inv.owned, fun B member => ?_⟩
  have sizes : clientBytes L.region u.cpu.mem s.taskBlocks =
      clientBytes L.region s.mem s.taskBlocks :=
    clientBytes_congr fun q owner =>
      heap.payloadSize_kept heap' (inv.owned q owner) fun _ taken _ => taken
  exact sizes.symm ▸ inv.placed B (areas ▸ member)

theorem TaskHeapInv.schedule {u : TaskSystem} {returnAddress : UInt32} (inv : TaskHeapInv L s)
    (taken : TaskStep s.tasks (.schedule returnAddress) u) :
    TaskHeapInv L { s with tasks := u } := by
  have queue := inv.queue.step taken
  cases taken with
  | @schedule _ _ _ A member running lower upper result =>
    obtain ⟨change, -, -⟩ := inv.queue.tasks.schedule_spec member running lower upper result
    apply inv.stored queue rfl
    -- a task that switches away stores to its own memory, which blocks of tasks cover
    apply change.mono
    intro x saved
    apply (inv.placed A member (A.saved_subset saved)).imp_right
    exact Or.imp_right fun ⟨q, owner, inside⟩ => ⟨q, inv.owned q owner, inside⟩

/-! ### Refusal -/

/-- A refused `create_task` leaves the node list as it was, and stores to the heap only. -/
theorem HeapInv.taskRefused_nodes {R : HeapRegion} {s : HeapRun} {v v' : TaskVars}
    (inv : HeapInv R s bs) (result : createTask s.heap v entryPoint = some (h, v', NULL)) :
    h.nodes = s.heap.nodes ∧
      Within {x | R.base.toNat ≤ x ∧ x < R.base.toNat + 16384} s.heap.mem h.mem := by
  generalize null : NULL = p at result
  cases createTask_cases result with
  | noTask failed =>
    exact ⟨congrArg Heap.nodes (inv.kmalloc_null failed), inv.kmalloc_region failed⟩
  | @noStack h₁ h₂ h newTask first nonnull second freed =>
    obtain ⟨cs, inv₁, -⟩ := inv.kmalloc_step first
    simp only [if_neg nonnull] at inv₁
    -- the second call found no room, so what is freed is the block the first call returned
    obtain rfl : h₂ = h₁ := inv₁.kmalloc_null second
    obtain ⟨h', freed', nodes⟩ := inv.free_fresh first nonnull
    rw [freed', Option.some.injEq] at freed
    subst freed
    exact ⟨nodes, (inv.kmalloc_region first).trans (inv₁.kfree_region (.inr (.head _)) freed')⟩
  | created _ nonnull => exact absurd null.symm nonnull

theorem TaskHeapInv.refused (inv : TaskHeapInv L s)
    (result : createTask s.heap s.tasks.vars entryPoint = some (h, v, NULL)) :
    TaskHeapInv L (s.withHeap ⟨h, s.live⟩) ∧
      ∀ A ∈ s.tasks.areas, ∀ x ∈ A.bytes, h.mem x = s.mem x := by
  obtain ⟨bs, heap⟩ := inv.heap
  obtain ⟨-, cs, heap', untouched⟩ := heap.taskRefused result
  exact inv.withHeap heap' (heap.taskRefused_nodes result).2 fun q owner =>
    untouched q (inv.owned q owner)

/-! ### Success -/

/-- Both blocks of a new task are handed out. -/
theorem TaskHeapInv.taskBlocks (inv : TaskHeapInv L s)
    (first : FriscaOS.kmalloc s.heap sizeofTask = some (h₁, newTask)) (nonnull : newTask ≠ NULL)
    (second : FriscaOS.kmalloc h₁ 4096 = some (h₂, stack)) (nonnull' : stack ≠ NULL) :
    let t := s.withHeap ⟨h₂, stack :: newTask :: s.live⟩
    TaskHeapInv L t ∧ TaskBlocks L.region t.run newTask stack ∧
      (∀ q ∈ s.live, Untouched s.run t.run q) ∧
      ∀ A ∈ s.tasks.areas, ∀ x ∈ A.bytes, h₂.mem x = s.mem x := by
  intro t
  obtain ⟨bs, heap⟩ := inv.heap
  obtain ⟨blocks, cs, heap', untouched⟩ := heap.taskBlocks first nonnull second nonnull'
  obtain ⟨ds, heap₁, -⟩ := heap.kmalloc_step first
  simp only [if_neg nonnull] at heap₁
  have change := (heap.kmalloc_region first).trans (heap₁.kmalloc_region second)
  obtain ⟨inv', kept⟩ := inv.withHeap heap' change fun q owner => untouched q (inv.owned q owner)
  exact ⟨inv', blocks, untouched, kept⟩

/-- The two blocks have room for the memory of a task. -/
theorem TaskHeapInv.area (inv : TaskHeapInv L s)
    (blocks : TaskBlocks L.region s.run newTask stack) :
    ∃ A : TaskArea, A.task = newTask ∧ A.lo = stack.toNat ∧ A.hi = stack.toNat + 4096 := by
  obtain ⟨bs, heap⟩ := inv.heap
  have fits := L.region.fits
  have regionTask := heap.payload_region blocks.liveTask
  have regionStack := heap.payload_region blocks.liveStack
  have apart := heap.payloads_apart blocks.liveTask blocks.liveStack blocks.other
  have roomTask := blocks.roomTask
  have roomStack := blocks.roomStack
  exact ⟨⟨newTask, stack.toNat, stack.toNat + 4096, heap.payload_nonnull blocks.liveTask, by omega,
    by omega, by omega⟩, rfl, rfl, rfl⟩

section create

variable (inv : TaskHeapInv L s) (blocks : TaskBlocks L.region s.run A.task stack)
  (lo : A.lo = stack.toNat) (hi : A.hi = stack.toNat + 4096)

include blocks lo hi in
theorem TaskBlocks.covered {x : Nat} (inside : x ∈ A.bytes) :
    ∃ q ∈ [stack, A.task], x ∈ payloadBytes s.mem q := by
  have roomTask := blocks.roomTask
  have roomStack := blocks.roomStack
  rcases inside with ⟨lower, upper⟩ | ⟨lower, upper⟩
  · exact ⟨A.task, by simp, lower, upper.trans_le (Nat.add_le_add_left roomTask _)⟩
  · exact ⟨stack, by simp, lo ▸ lower,
      (hi ▸ upper).trans_le (Nat.add_le_add_left roomStack _)⟩

variable (foreign : ∀ q ∈ [stack, A.task], q ∉ s.taskBlocks)
  (result : initTask s.mem s.tasks.vars A.task stack entryPoint = (m, v))

include inv blocks lo hi foreign

/-- Blocks that belong to no task yet meet the memory of no task. -/
theorem TaskHeapInv.fresh : ∀ B ∈ s.tasks.areas, ∀ x ∈ A.bytes, x ∉ B.bytes := by
  obtain ⟨bs, heap⟩ := inv.heap
  intro B member x inside old
  obtain ⟨p, new, lower, upper⟩ := blocks.covered lo hi inside
  have live : p ∈ s.live := by
    rcases List.mem_pair.mp new with rfl | rfl
    · exact blocks.liveStack
    · exact blocks.liveTask
  have region := heap.payload_region live
  dsimp only [TaskHeap.run, TaskHeap.heap] at region
  rcases inv.placed B member old with below | above | ⟨q, owner, start, stop⟩
  · omega
  · omega
  · have other : p ≠ q := fun same => foreign p new (same ▸ owner)
    have apart := heap.payloads_apart live (inv.owned q owner) other
    dsimp only [TaskHeap.run, TaskHeap.heap] at apart
    omega

include result

/-- A task is built in two blocks that belong to no task yet. -/
theorem TaskHeapInv.create :
    let t : TaskHeap :=
      { s with
        tasks := s.tasks.created A m v entryPoint stack
        taskBlocks := stack :: A.task :: s.taskBlocks }
    taskStack m A.task = stack ∧ TaskHeapInv L t ∧
      ∀ q ∈ s.live, payloadSize m q = payloadSize s.mem q := by
  intro t
  have fresh := inv.fresh blocks lo hi foreign
  have listed := inv.queue.listed
  obtain ⟨bs, heap⟩ := inv.heap
  obtain ⟨recorded, heap', -⟩ := heap.initTask blocks (listed ▸ L.beside_task) result
  have sizes (q : UInt32) (live : q ∈ s.live) : payloadSize m q = payloadSize s.mem q :=
    heap.payloadSize_kept heap' live fun _ taken _ => taken
  have owned : ∀ q ∈ stack :: A.task :: s.taskBlocks, q ∈ s.live := by
    rintro q (_ | ⟨_, _ | ⟨_, member⟩⟩)
    · exact blocks.liveStack
    · exact blocks.liveTask
    · exact inv.owned q member
  have covers : clientBytes L.region m (stack :: A.task :: s.taskBlocks) =
      clientBytes L.region s.mem (stack :: A.task :: s.taskBlocks) :=
    clientBytes_congr fun q owner => sizes q (owned q owner)
  refine ⟨recorded, ⟨⟨bs, heap'⟩, inv.queue.create lo hi fresh result, owned, ?_⟩, sizes⟩
  refine fun B member => covers.symm ▸ fun x inside => ?_
  rcases List.mem_cons.mp member with rfl | old
  · obtain ⟨q, new, payload⟩ := blocks.covered lo hi inside
    exact .inr (.inr ⟨q, List.mem_append_left s.taskBlocks new, payload⟩)
  · apply (inv.placed B old inside).imp_right
    exact Or.imp_right fun ⟨q, owner, payload⟩ => ⟨q, .tail _ (.tail _ owner), payload⟩

end create

/-- What a successful `create_task` leaves. -/
structure TaskAdded (L : TaskLayout) (s : TaskHeap) (entryPoint : UInt32) (A : TaskArea) (h : Heap)
    (v : TaskVars) : Prop where
  inv : TaskHeapInv L (s.created A h v entryPoint)
  tasks : ∃ ops, Run TaskStep s.tasks ops (s.created A h v entryPoint).tasks
  sizes : ∀ q ∈ s.live, payloadSize h.mem q = payloadSize s.mem q
  room : 4096 ≤ (payloadSize h.mem (taskStack h.mem A.task)).toNat
  waiting : Waiting h.mem A (.created entryPoint (taskStack h.mem A.task))
  lo : A.lo = (taskStack h.mem A.task).toNat
  hi : A.hi = (taskStack h.mem A.task).toNat + 4096

/-- A successful `create_task` has the memory of a task for its two blocks. -/
theorem TaskHeapInv.added (inv : TaskHeapInv L s)
    (result : createTask s.heap s.tasks.vars entryPoint = some (h, v, p)) (nonnull : p ≠ NULL) :
    ∃ A : TaskArea, A.task = p ∧ TaskAdded L s entryPoint A h v := by
  cases createTask_cases result with
  | noTask => exact absurd rfl nonnull
  | noStack => exact absurd rfl nonnull
  | @created h₁ h₂ newTask stack m v first _ second nonnull' init =>
    obtain ⟨inv₁, blocks, untouched, kept⟩ := inv.taskBlocks first nonnull second nonnull'
    obtain ⟨A, rfl, lo, hi⟩ := inv₁.area blocks
    obtain ⟨bs, heap⟩ := inv₁.heap
    have nodup : (stack :: A.task :: s.live).Nodup := heap.nodup
    have foreign : ∀ q ∈ [stack, A.task], q ∉ s.taskBlocks := by
      simp only [List.nodup_cons, List.mem_cons, not_or] at nodup
      rintro q (_ | ⟨_, _ | ⟨_, ⟨⟩⟩⟩) owner
      · exact nodup.1.2 (inv.owned _ owner)
      · exact nodup.2.1 (inv.owned _ owner)
    have fresh := inv₁.fresh blocks lo hi foreign
    obtain ⟨recorded, inv₂, sizes⟩ := inv₁.create blocks lo hi foreign init
    obtain ⟨waiting, -, -⟩ := inv₁.queue.tasks.created lo hi fresh init
    have roomStack : 4096 ≤ (payloadSize m stack).toNat := by
      rw [sizes stack blocks.liveStack]
      exact blocks.roomStack
    refine ⟨A, rfl, ?_⟩
    constructor
    case inv =>
      rw [TaskHeap.created]
      simp only [recorded]
      exact inv₂
    case tasks =>
      -- to the tasks the two calls of `kmalloc` are stores that miss their memory
      have called := TaskSystem.own_step kept
      rw [TaskHeap.created]
      simp only [recorded]
      exact ⟨_, .cons called (.single (.create lo hi fresh init))⟩
    case sizes =>
      intro q live
      exact (sizes q (.tail _ (.tail _ live))).trans (untouched q live).size
    all_goals simp only [recorded]
    case room => exact roomStack
    case waiting => exact waiting
    case lo => exact lo
    case hi => exact hi

/-! ### Runs -/

theorem TaskArea.ext {A B : TaskArea} (task : A.task = B.task) (lo : A.lo = B.lo)
    (hi : A.hi = B.hi) : A = B := by
  cases A
  cases B
  simp_all

/-- Every step keeps the invariant, and is a run of the tasks alone. -/
theorem TaskHeapInv.step {op : TaskHeapOp} (inv : TaskHeapInv L s) (taken : TaskHeapStep L s op t) :
    TaskHeapInv L t ∧ ∃ ops, Run TaskStep s.tasks ops t.tasks := by
  cases taken with
  | own kept change => exact ⟨inv.stored (inv.queue.own kept) rfl change, _, .single (.own kept)⟩
  | kmalloc result =>
    obtain ⟨inv', kept⟩ := inv.kmalloc result
    exact ⟨inv', _, .single (TaskSystem.own_step kept)⟩
  | kfree legal foreign result =>
    obtain ⟨inv', kept⟩ := inv.kfree legal foreign result
    exact ⟨inv', _, .single (TaskSystem.own_step kept)⟩
  | @taskCreated entryPoint h v A result lo hi =>
    obtain ⟨B, task, added⟩ := inv.added result A.nonnull
    have lo' := added.lo
    have hi' := added.hi
    rw [task] at lo' hi'
    obtain rfl : B = A := TaskArea.ext task (lo'.trans lo.symm) (hi'.trans hi.symm)
    exact ⟨added.inv, added.tasks⟩
  | taskRefused result =>
    obtain ⟨bs, heap⟩ := inv.heap
    obtain ⟨rfl, -⟩ := heap.taskRefused result
    obtain ⟨inv', kept⟩ := inv.refused result
    exact ⟨inv', _, .single (TaskSystem.own_step kept)⟩
  | schedule taken => exact ⟨inv.schedule taken, _, .single taken⟩

/-- The invariant holds throughout, and what holds of the tasks in all their runs holds while
their blocks come from the heap. -/
theorem TaskHeapReachable.refines (reach : TaskHeapReachable L s) :
    TaskHeapInv L s ∧ TaskReachable s.tasks := by
  obtain ⟨cpu, ops, run⟩ := reach
  apply run.invariant (fun s => TaskHeapInv L s ∧ TaskReachable s.tasks)
  · rintro s op t ⟨inv, main, cpu, before, boot⟩ taken
    obtain ⟨inv', after, taskRun⟩ := inv.step taken
    exact ⟨inv', main, cpu, before ++ after, boot.append taskRun⟩
  · exact ⟨taskHeapInv_init L cpu, L.main, _, [], .nil _⟩

/-- No call of `create_task` gets stuck. -/
theorem TaskHeapInv.createTask_step (inv : TaskHeapInv L s) (entryPoint : UInt32) :
    ∃ t, TaskHeapStep L s (.createTask entryPoint) t := by
  obtain ⟨bs, heap⟩ := inv.heap
  obtain ⟨h, v, p, result⟩ := heap.createTask_total s.tasks.vars entryPoint
  by_cases null : p = NULL
  · exact ⟨_, .taskRefused (null ▸ result)⟩
  · obtain ⟨A, rfl, added⟩ := inv.added result null
    exact ⟨_, .taskCreated result added.lo added.hi⟩

/-! ### Atomicity -/

/-- The node list has an allocated node in front of the pointer. -/
def Heap.Allocated (h : Heap) (q : UInt32) : Prop :=
  ∃ ns, h.nodes = some ns ∧ ∃ n ∈ ns, n.isFree = 0 ∧ q = n.addr + sizeofHeapNode

/-- The bytes of a node and its payload. -/
def blockBytes (m : Mem) (q : UInt32) : Set Nat :=
  {x | q.toNat ≤ x + 12 ∧ x < q.toNat + (payloadSize m q).toNat}

/-- A call of `create_task` that returned `NULL`: one of the two blocks could not be had, and
nothing has changed. -/
structure CreationUndone (s : TaskHeap) (h : Heap) (v : TaskVars) : Prop where
  cause : (∃ h₁, kmalloc s.heap sizeofTask = some (h₁, NULL)) ∨
    ∃ h₁ h₂ newTask, kmalloc s.heap sizeofTask = some (h₁, newTask) ∧ newTask ≠ NULL ∧
      kmalloc h₁ 4096 = some (h₂, NULL)
  nodes : ∃ ns, s.heap.nodes = some ns ∧ h.nodes = some ns
  links : ∀ q, Queued s.tasks q → taskNext h.mem q = taskNext s.mem q
  taskList : v.taskList = s.tasks.vars.taskList
  currentTask : v.currentTask = s.tasks.vars.currentTask
  nextPid : v.nextPid = s.tasks.vars.nextPid

/-- A call of `create_task` that returned a task: it and its stack are the only new blocks, and
the initial frame lies in the stack. -/
structure CreationDone (s : TaskHeap) (entryPoint : UInt32) (h : Heap) (newTask stack : UInt32) :
    Prop where
  blocks : ∀ q, h.Allocated q ↔ q = newTask ∨ q = stack ∨ s.heap.Allocated q
  other : newTask ≠ stack
  fresh : ¬s.heap.Allocated newTask ∧ ¬s.heap.Allocated stack
  sizes : ∀ q, s.heap.Allocated q → payloadSize h.mem q = payloadSize s.mem q
  disjoint : ∀ q r, h.Allocated q → h.Allocated r → q ≠ r →
    Disjoint (blockBytes h.mem q) (blockBytes h.mem r)
  recorded : taskStack h.mem newTask = stack
  frame : Words h.mem (taskEsp h.mem newTask).toNat (initialFrame entryPoint).reverse
  inside : ∀ x, (taskEsp h.mem newTask).toNat ≤ x → x < (taskEsp h.mem newTask).toNat + 36 →
    x ∈ payloadBytes h.mem stack

theorem HeapInv.allocated_iff {R : HeapRegion} {s : HeapRun} (inv : HeapInv R s bs) :
    s.heap.Allocated q ↔ q ∈ s.live := by
  rw [inv.wellFormed.allocated q]
  constructor
  · rintro ⟨ns, list, node⟩
    rw [inv.nodes, Option.some.injEq] at list
    exact list ▸ node
  · exact fun node => ⟨_, inv.nodes, node⟩

theorem HeapInv.blocks_disjoint {R : HeapRegion} {s : HeapRun} (inv : HeapInv R s bs)
    (hp : p ∈ s.live) (hq : q ∈ s.live) (other : p ≠ q) :
    Disjoint (blockBytes s.heap.mem p) (blockBytes s.heap.mem q) := by
  obtain ⟨b, there, _, payload, size⟩ := inv.block hp
  obtain ⟨c, there', _, payload', size'⟩ := inv.block hq
  rw [Set.disjoint_left]
  rintro x ⟨lower, upper⟩ ⟨lower', upper'⟩
  rcases inv.tiles.apart there there' with rfl | before | after
  · exact other (UInt32.toNat_inj.mp (payload.trans payload'.symm))
  all_goals omega

theorem TaskHeapInv.undone (inv : TaskHeapInv L s)
    (result : createTask s.heap s.tasks.vars entryPoint = some (h, v, NULL)) :
    CreationUndone s h v := by
  obtain ⟨bs, heap⟩ := inv.heap
  obtain ⟨rfl, -⟩ := heap.taskRefused result
  have nodes := (heap.taskRefused_nodes result).1
  refine ⟨?_, ⟨_, heap.nodes, nodes.trans heap.nodes⟩, fun q queued => ?_, rfl, rfl, rfl⟩
  · generalize null : NULL = p at result
    cases createTask_cases result with
    | noTask failed => exact .inl ⟨h, failed⟩
    | noStack first nonnull second => exact .inr ⟨_, _, _, first, nonnull, second⟩
    | created _ nonnull => exact absurd null.symm nonnull
  · obtain ⟨A, member, rfl⟩ := inv.queue.queued_iff.mp queued
    apply Mem.read32_congr
    exact fun x lower upper => (inv.refused result).2 A member x (.inl ⟨by omega, by omega⟩)

theorem TaskHeapInv.done (inv : TaskHeapInv L s)
    (result : createTask s.heap s.tasks.vars entryPoint = some (h, v, p)) (nonnull : p ≠ NULL) :
    CreationDone s entryPoint h p (taskStack h.mem p) := by
  obtain ⟨A, rfl, added⟩ := inv.added result nonnull
  obtain ⟨bs, heap⟩ := inv.heap
  obtain ⟨cs, heap'⟩ := added.inv.heap
  have before (q : UInt32) : s.heap.Allocated q ↔ q ∈ s.live := heap.allocated_iff
  have after (q : UInt32) :
      h.Allocated q ↔ q ∈ taskStack h.mem A.task :: A.task :: s.live := heap'.allocated_iff
  have nodup : (taskStack h.mem A.task :: A.task :: s.live).Nodup := heap'.nodup
  simp only [List.nodup_cons, List.mem_cons, not_or] at nodup
  have waiting := added.waiting
  constructor
  case blocks =>
    intro q
    rw [after, before, List.mem_cons, List.mem_cons]
    exact or_left_comm
  case other => exact Ne.symm nodup.1.1
  case fresh =>
    rw [before, before]
    exact ⟨nodup.2.1, nodup.1.2⟩
  case sizes => exact fun q live => added.sizes q ((before q).mp live)
  case disjoint =>
    intro q r live live' other
    exact heap'.blocks_disjoint ((after q).mp live) ((after r).mp live') other
  case recorded => rfl
  case frame =>
    rw [waiting.esp]
    exact waiting.frame
  case inside =>
    intro x lower upper
    rw [waiting.esp] at lower upper
    have lo := added.lo
    have hi := added.hi
    have room := added.room
    have bottom := waiting.lower
    have top := waiting.upper
    exact ⟨by omega, by omega⟩

/-- In every reachable state `create_task` returns. Either it has no effect, or it has taken two
new blocks for its task. -/
theorem createTask_atomic (reach : TaskHeapReachable L s) (entryPoint : UInt32) :
    ∃ h v p, createTask s.heap s.tasks.vars entryPoint = some (h, v, p) ∧
      (p = NULL → CreationUndone s h v) ∧
      (p ≠ NULL → CreationDone s entryPoint h p (taskStack h.mem p)) := by
  obtain ⟨inv, -⟩ := reach.refines
  obtain ⟨bs, heap⟩ := inv.heap
  obtain ⟨h, v, p, result⟩ := heap.createTask_total s.tasks.vars entryPoint
  refine ⟨h, v, p, result, ?_, inv.done result⟩
  rintro rfl
  exact inv.undone result

/-- The small system above, beside the heap after boot. -/
def bootTaskLayout : TaskLayout where
  region := bootRegion
  main := bootMain
  beside x inside := by
    simp only [TaskArea.bytes, Set.mem_ofPred_eq, bootMain, bootRegion, UInt32.reduceToNat] at *
    omega

def bootTaskHeap : TaskHeap := .init bootTaskLayout bootCpu

/-- After boot both blocks can be had. With all but 72 bytes handed out the first one is split
off and given back again. -/
theorem createTask_atomic_boot :
    (∃ h v p, createTask bootTaskHeap.heap bootTaskHeap.tasks.vars 0x4321 = some (h, v, p) ∧
      p ≠ NULL ∧ CreationDone bootTaskHeap 0x4321 h p (taskStack h.mem p)) ∧
    ∃ t, TaskHeapStep bootTaskLayout bootTaskHeap (.kmalloc 16300) t ∧
      ∃ h v, createTask t.heap t.tasks.vars 0x4321 = some (h, v, NULL) ∧
        CreationUndone t h v := by
  have heap := TaskHeap.init_heap bootTaskLayout bootCpu
  constructor
  · obtain ⟨h, v, p, result, nonnull, -⟩ := heap.createTask_some bootTaskHeap.tasks.vars 0x4321
      bootTaskLayout.beside_task rfl rfl
    have reach : TaskHeapReachable bootTaskLayout bootTaskHeap := ⟨bootCpu, [], .nil _⟩
    obtain ⟨h', v', p', result', -, done⟩ := createTask_atomic reach 0x4321
    have same := result.symm.trans result'
    simp only [Option.some.injEq, Prod.mk.injEq] at same
    obtain ⟨rfl, rfl, rfl⟩ := same
    exact ⟨h, v, p, result, nonnull, done nonnull⟩
  · have large : (16300 : UInt32) ≠ 0 := by decide
    obtain ⟨h, p, result, -, nonnull, heap', -⟩ := heap.kmalloc_some large rfl
    have taken := TaskHeapStep.kmalloc (L := bootTaskLayout) (s := bootTaskHeap) result
    simp only [if_neg nonnull] at taken
    obtain ⟨h₁, failed⟩ := heap'.createTask_noStack bootTaskHeap.tasks.vars 0x4321 rfl rfl
    have reach : TaskHeapReachable bootTaskLayout _ := ⟨bootCpu, _, .single taken⟩
    obtain ⟨h₂, v, p', result', undone, -⟩ := createTask_atomic reach 0x4321
    have same := failed.symm.trans result'
    simp only [Option.some.injEq, Prod.mk.injEq] at same
    obtain ⟨rfl, rfl, rfl⟩ := same
    exact ⟨_, taken, h₁, _, failed, undone rfl⟩

end FriscaOS
