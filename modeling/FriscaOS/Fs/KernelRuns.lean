import FriscaOS.Fs.Vfs
import FriscaOS.Task.Creation

/-! The file system, the task list and other clients on one heap, in any interleaving. Every file
keeps the block of its contents to itself, and nothing changes a file once it is created. -/
namespace FriscaOS

open ByteMemory FreeList Transition Function

/-! ### The system -/

/-- Where the shared memory lies: the heap region, and `main_task` beside it. -/
structure KernelLayout where
  region : HeapRegion
  mainTask : UInt32
  beside : mainTask.toNat + 20 ≤ region.base.toNat ∨ region.base.toNat + 16384 ≤ mainTask.toNat

/-- The heap, the file table and the variables of the scheduler. What was created successfully
and who owns which block is remembered on the side. -/
structure Kernel where
  heap : HeapRun
  vfs : Vfs
  tasks : TaskVars
  created : List (CString × CString)
  taskBlocks : List UInt32
  clientBlocks : List UInt32

def Kernel.mem (k : Kernel) : Mem := k.heap.heap.mem

/-- After `heap_init`, `vfs_init` and `task_init`. -/
def Kernel.init (L : KernelLayout) (m : Mem) (v : Vfs) : Kernel :=
  let heap := heapInitAt m L.region.base
  let vfs := vfsInit v
  let (mem, tasks) := taskInit heap.mem L.mainTask
  { heap := ⟨{ heap with mem := mem }, []⟩, vfs := vfs, tasks := tasks, created := [],
    taskBlocks := [], clientBlocks := [] }

inductive KernelOp
  | createFile (name content : CString) (result : Int)
  | createTask (entryPoint : UInt32)
  | kmalloc (size : UInt32)
  | kfree (ptr : UInt32)
  -- stores of tasks and other clients, as the memory they leave
  | client (mem : Mem)

inductive KernelStep (L : KernelLayout) : Kernel → KernelOp → Kernel → Prop
  | fileCreated {k name content h v} :
      vfsCreateFile k.heap.heap k.vfs name.bytes content.bytes = some (h, v, 0) →
      KernelStep L k (.createFile name content 0)
        { k with
          heap := ⟨h, (v.fileTable k.vfs.fileCount.toNat).buffer :: k.heap.live⟩
          vfs := v
          created := k.created ++ [(name, content)] }
  | fileRefused {k name content h v r} :
      vfsCreateFile k.heap.heap k.vfs name.bytes content.bytes = some (h, v, r) → r ≠ 0 →
      KernelStep L k (.createFile name content r)
        { k with heap := ⟨h, k.heap.live⟩, vfs := v }
  | taskCreated {k entryPoint h v p} :
      createTask k.heap.heap k.tasks entryPoint = some (h, v, p) → p ≠ NULL →
      KernelStep L k (.createTask entryPoint)
        { k with
          heap := ⟨h, taskStack h.mem p :: p :: k.heap.live⟩
          tasks := v
          taskBlocks := taskStack h.mem p :: p :: k.taskBlocks }
  | taskRefused {k entryPoint h v} :
      createTask k.heap.heap k.tasks entryPoint = some (h, v, NULL) →
      KernelStep L k (.createTask entryPoint)
        { k with heap := ⟨h, k.heap.live⟩, tasks := v }
  | kmalloc {k size h p} : kmalloc k.heap.heap size = some (h, p) →
      KernelStep L k (.kmalloc size)
        { k with
          heap := ⟨h, if p = NULL then k.heap.live else p :: k.heap.live⟩
          clientBlocks := if p = NULL then k.clientBlocks else p :: k.clientBlocks }
  -- a client frees nothing but its own blocks
  | kfree {k ptr h} : ptr = NULL ∨ ptr ∈ k.clientBlocks → kfree k.heap.heap ptr = some h →
      KernelStep L k (.kfree ptr)
        { k with
          heap := ⟨h, k.heap.live.erase ptr⟩
          clientBlocks := k.clientBlocks.erase ptr }
  -- and stores to nothing in the heap but these and the blocks of tasks
  | client {k mem} :
      Within (clientBytes L.region k.mem (k.taskBlocks ++ k.clientBlocks)) k.mem mem →
      KernelStep L k (.client mem)
        { k with heap := ⟨{ k.heap.heap with mem := mem }, k.heap.live⟩ }

/-- Reachable after boot, whatever the memory and the file table held before. -/
def KernelReachable (L : KernelLayout) (k : Kernel) : Prop :=
  ∃ m v ops, Run (KernelStep L) (Kernel.init L m v) ops k

/-! ### The invariant -/

/-- The buffers of the files, in the order of the table. -/
def Kernel.buffers (k : Kernel) : List UInt32 :=
  (List.range k.created.length).map fun i => (k.vfs.fileTable i).buffer

/-- The node holds the name and the content, and the content fits in its block. -/
structure Stored (m : Mem) (n : VfsNode) (name content : CString) : Prop where
  holds : n.Holds m name content
  room : content.chars.length + 1 ≤ (payloadSize m n.buffer).toNat

structure KernelInv (L : KernelLayout) (k : Kernel) : Prop where
  heap : ∃ bs, HeapInv L.region k.heap bs
  owners : (k.buffers ++ (k.taskBlocks ++ k.clientBlocks)).Perm k.heap.live
  taskList : k.tasks.taskList = L.mainTask
  count : k.vfs.fileCount.toNat = k.created.length
  bound : k.created.length ≤ 16
  stored : ∀ i name content, k.created[i]? = some (name, content) →
    Stored k.mem (k.vfs.fileTable i) name content

theorem vfsInit_fileCount (v : Vfs) : (vfsInit v).fileCount = 0 := by
  have kept (is : List Nat) (u : Vfs) :
      (is.foldl (fun u i => { u with fileTable := update u.fileTable i (u.fileTable i).clear })
        u).fileCount = u.fileCount := by
    induction is generalizing u with
    | nil => rfl
    | cons i is ih => exact ih _
  exact kept _ _

/-- The kernel image, `main_task` included, is loaded below the heap. -/
def bootLayout : KernelLayout := ⟨bootRegion, 0x8000, by decide⟩

/-- The kernel after boot, in memory that held zeros. -/
def bootKernel : Kernel :=
  .init bootLayout (fun _ => 0) ⟨fun _ => ⟨fun _ => 0, 0, 0, NULL⟩, 0⟩

theorem bootKernel_reachable : KernelReachable bootLayout bootKernel := ⟨_, _, _, .nil _⟩

variable {L : KernelLayout}

/-- `task_init` stores to `main_task`, beside the heap. -/
theorem HeapInv.taskInit {h : Heap} {bs : List Block} (heap : HeapInv L.region ⟨h, []⟩ bs) :
    HeapInv L.region ⟨{ h with mem := (FriscaOS.taskInit h.mem L.mainTask).1 }, []⟩ bs := by
  have nobody : ∀ q ∈ ([] : List UInt32), q ∈ ([] : List UInt32) := fun _ member => member
  apply heap.client nobody
  apply (taskInit_within _ L.mainTask).mono
  rintro x ⟨lower, upper⟩
  rcases L.beside with below | above
  · exact .inl (by omega)
  · exact .inr (.inl (by omega))

/-- Once the heap is built the file table and the task list can be. -/
theorem kernelInv_boot {h : Heap} {bs : List Block} (heap : HeapInv L.region ⟨h, []⟩ bs) (v : Vfs) :
    KernelInv L
      { heap := ⟨{ h with mem := (taskInit h.mem L.mainTask).1 }, []⟩, vfs := vfsInit v
        tasks := (taskInit h.mem L.mainTask).2, created := [], taskBlocks := []
        clientBlocks := [] } where
  heap := ⟨bs, heap.taskInit⟩
  owners := .nil
  taskList := rfl
  count := by
    have none := vfsInit_fileCount v
    simp only [none]
    rfl
  bound := by simp
  stored i name content there := by simp at there

theorem kernelInv_init (m : Mem) (v : Vfs) : KernelInv L (Kernel.init L m v) :=
  kernelInv_boot (heapInv_init L.region m) v

variable {k k' : Kernel} {name content : CString} {i : Nat}

theorem Kernel.mem_buffers : i < k.created.length → (k.vfs.fileTable i).buffer ∈ k.buffers :=
  fun bound => List.mem_map.mpr ⟨i, List.mem_range.mpr bound, rfl⟩

theorem KernelInv.nodup (inv : KernelInv L k) :
    (k.buffers ++ (k.taskBlocks ++ k.clientBlocks)).Nodup := by
  obtain ⟨bs, heap⟩ := inv.heap
  exact inv.owners.nodup_iff.mpr heap.nodup

/-- The blocks of files are those of nobody else. -/
theorem KernelInv.buffers_apart (inv : KernelInv L k) {q : UInt32} (member : q ∈ k.buffers) :
    q ∈ k.heap.live ∧ q ∉ k.taskBlocks ++ k.clientBlocks := by
  refine ⟨inv.owners.subset (List.mem_append_left _ member), fun other => ?_⟩
  exact (List.nodup_append.mp inv.nodup).2.2 q member q other rfl

/-- A content lies inside the payload of its block. -/
theorem Stored.payload {m : Mem} {n : VfsNode} (stored : Stored m n name content) {x : Nat}
    (lower : n.buffer.toNat ≤ x) (upper : x < n.buffer.toNat + (content.chars.length + 1)) :
    x ∈ payloadBytes m n.buffer := by
  have room := stored.room
  exact ⟨lower, by omega⟩

/-- A file whose block is untouched is stored as before. -/
theorem Stored.kept {s t : HeapRun} {n : VfsNode} (stored : Stored s.heap.mem n name content)
    (untouched : Untouched s t n.buffer) : Stored t.heap.mem n name content where
  holds := by
    refine ⟨stored.holds.named, stored.holds.length, stored.holds.content ▸ ?_⟩
    apply Mem.bytes_congr
    exact fun x lower upper => untouched.bytes x (stored.payload lower upper)
  room := by
    rw [untouched.size]
    exact stored.room

/-! ### Steps -/

/-- The files of the one state are files of the other, with the same names, lengths, buffers and
contents. -/
def FilesKept (k k' : Kernel) : Prop :=
  k.vfs.fileCount.toNat ≤ k'.vfs.fileCount.toNat ∧
    ∀ i < k.vfs.fileCount.toNat, k'.vfs.fileTable i = k.vfs.fileTable i ∧
      let n := k.vfs.fileTable i
      k'.mem.bytes n.buffer.toNat (n.length.toNat + 1) =
        k.mem.bytes n.buffer.toNat (n.length.toNat + 1)

theorem FilesKept.refl (k : Kernel) : FilesKept k k := ⟨le_rfl, fun _ _ => ⟨rfl, rfl⟩⟩

theorem FilesKept.trans {k'' : Kernel} (first : FilesKept k k') (second : FilesKept k' k'') :
    FilesKept k k'' := by
  refine ⟨first.1.trans second.1, fun i bound => ?_⟩
  obtain ⟨node, bytes⟩ := first.2 i bound
  obtain ⟨node', bytes'⟩ := second.2 i (bound.trans_le first.1)
  rw [node] at node' bytes'
  exact ⟨node', bytes'.trans bytes⟩

/-- Files whose blocks are untouched are kept. -/
theorem KernelInv.filesKept (inv : KernelInv L k)
    (untouched : ∀ q ∈ k.buffers, Untouched k.heap k'.heap q)
    (count : k.vfs.fileCount.toNat ≤ k'.vfs.fileCount.toNat)
    (nodes : ∀ i < k.vfs.fileCount.toNat, k'.vfs.fileTable i = k.vfs.fileTable i) :
    FilesKept k k' := by
  refine ⟨count, fun i bound => ⟨nodes i bound, ?_⟩⟩
  rw [inv.count] at bound
  have there : k.created[i]? = some (k.created[i].1, k.created[i].2) :=
    List.getElem?_eq_getElem bound
  have stored := inv.stored i _ _ there
  have kept := stored.kept (untouched _ (Kernel.mem_buffers bound))
  simp only
  rw [stored.holds.length]
  exact kept.holds.content.trans stored.holds.content.symm

/-- What a step that creates no file has to leave alone. -/
theorem KernelInv.frame (inv : KernelInv L k) (heap : ∃ bs, HeapInv L.region k'.heap bs)
    (untouched : ∀ q ∈ k.buffers, Untouched k.heap k'.heap q)
    (owners : (k.buffers ++ (k'.taskBlocks ++ k'.clientBlocks)).Perm k'.heap.live)
    (vfs : k'.vfs = k.vfs) (created : k'.created = k.created)
    (taskList : k'.tasks.taskList = k.tasks.taskList) : KernelInv L k' ∧ FilesKept k k' := by
  have buffers : k'.buffers = k.buffers := by rw [Kernel.buffers, vfs, created, Kernel.buffers]
  refine ⟨⟨heap, buffers ▸ owners, taskList.trans inv.taskList, ?_, ?_, ?_⟩, ?_⟩
  · rw [vfs, created]
    exact inv.count
  · rw [created]
    exact inv.bound
  · intro i name content there
    rw [created] at there
    rw [vfs]
    obtain ⟨bound, _⟩ := List.getElem?_eq_some_iff.mp there
    exact (inv.stored i name content there).kept (untouched _ (Kernel.mem_buffers bound))
  · exact inv.filesKept untouched (by rw [vfs]) fun i _ => by rw [vfs]

/-! ### Clients -/

theorem KernelInv.kmalloc {size p : UInt32} {h : Heap} (inv : KernelInv L k)
    (result : kmalloc k.heap.heap size = some (h, p)) :
    let k' : Kernel :=
      { k with
        heap := ⟨h, if p = NULL then k.heap.live else p :: k.heap.live⟩
        clientBlocks := if p = NULL then k.clientBlocks else p :: k.clientBlocks }
    KernelInv L k' ∧ FilesKept k k' := by
  intro k'
  obtain ⟨bs, heap⟩ := inv.heap
  obtain ⟨cs, heap', untouched⟩ := heap.kmalloc_step result
  apply inv.frame ⟨cs, heap'⟩
  · exact fun q member => untouched q (inv.buffers_apart member).1
  · by_cases null : p = NULL
    · simpa [k', null] using inv.owners
    · simp only [k', if_neg null, ← List.append_assoc]
      refine List.perm_middle.trans (List.Perm.cons p ?_)
      simpa using inv.owners
  all_goals rfl

theorem KernelInv.kfree {p : UInt32} {h : Heap} (inv : KernelInv L k)
    (legal : p = NULL ∨ p ∈ k.clientBlocks) (result : kfree k.heap.heap p = some h) :
    let k' : Kernel :=
      { k with
        heap := ⟨h, k.heap.live.erase p⟩
        clientBlocks := k.clientBlocks.erase p }
    KernelInv L k' ∧ FilesKept k k' := by
  intro k'
  obtain ⟨bs, heap⟩ := inv.heap
  -- a client's block is no file's and no task's, and the null pointer is nobody's block
  have foreign : p ∉ k.buffers ∧ p ∉ k.taskBlocks := by
    have disjoint := (List.nodup_append.mp inv.nodup).2
    have tasks := (List.nodup_append.mp disjoint.1).2.2
    rcases legal with rfl | member
    · have absent : NULL ∉ k.heap.live := fun member => heap.payload_nonnull member rfl
      rw [← inv.owners.mem_iff] at absent
      simp only [List.mem_append, not_or] at absent
      exact ⟨absent.1, absent.2.1⟩
    · refine ⟨fun buffer => ?_, fun task => tasks p task p member rfl⟩
      exact disjoint.2 p buffer p (List.mem_append_right _ member) rfl
  obtain ⟨cs, heap', untouched⟩ := heap.kfree_step
    (legal.imp_right fun member => inv.owners.subset (by simp [member])) result
  apply inv.frame ⟨cs, heap'⟩
  · intro q member
    exact untouched q (inv.buffers_apart member).1 fun same => foreign.1 (same ▸ member)
  · have erased := inv.owners.erase p
    rwa [List.erase_append_right _ foreign.1, List.erase_append_right _ foreign.2] at erased
  all_goals rfl

theorem KernelInv.client {m : Mem} (inv : KernelInv L k)
    (change : Within (clientBytes L.region k.mem (k.taskBlocks ++ k.clientBlocks)) k.mem m) :
    let k' : Kernel := { k with heap := ⟨{ k.heap.heap with mem := m }, k.heap.live⟩ }
    KernelInv L k' ∧ FilesKept k k' := by
  intro k'
  obtain ⟨bs, heap⟩ := inv.heap
  have allowed (q : UInt32) (member : q ∈ k.taskBlocks ++ k.clientBlocks) : q ∈ k.heap.live :=
    inv.owners.subset (List.mem_append_right _ member)
  obtain ⟨cs, heap', untouched⟩ := heap.client_step allowed change
  apply inv.frame ⟨cs, heap'⟩
  · intro q member
    obtain ⟨live, other⟩ := inv.buffers_apart member
    exact untouched q live other
  · exact inv.owners
  all_goals rfl

/-! ### Tasks -/

theorem KernelInv.taskRefused {entryPoint : UInt32} {h : Heap} {v : TaskVars}
    (inv : KernelInv L k)
    (result : createTask k.heap.heap k.tasks entryPoint = some (h, v, NULL)) :
    let k' : Kernel := { k with heap := ⟨h, k.heap.live⟩, tasks := v }
    KernelInv L k' ∧ FilesKept k k' := by
  intro k'
  obtain ⟨bs, heap⟩ := inv.heap
  obtain ⟨vars, cs, heap', untouched⟩ := heap.taskRefused result
  apply inv.frame ⟨cs, heap'⟩
  · exact fun q member => untouched q (inv.buffers_apart member).1
  · exact inv.owners
  · rfl
  · rfl
  · exact congrArg TaskVars.taskList vars

theorem KernelInv.taskCreated {entryPoint p : UInt32} {h : Heap} {v : TaskVars}
    (inv : KernelInv L k) (result : createTask k.heap.heap k.tasks entryPoint = some (h, v, p))
    (nonnull : p ≠ NULL) :
    let k' : Kernel :=
      { k with
        heap := ⟨h, taskStack h.mem p :: p :: k.heap.live⟩
        tasks := v
        taskBlocks := taskStack h.mem p :: p :: k.taskBlocks }
    KernelInv L k' ∧ FilesKept k k' := by
  intro k'
  obtain ⟨bs, heap⟩ := inv.heap
  obtain ⟨taskList, cs, heap', untouched⟩ :=
    heap.taskCreated (inv.taskList ▸ L.beside) result nonnull
  apply inv.frame ⟨cs, heap'⟩
  · exact fun q member => untouched q (inv.buffers_apart member).1
  · refine List.perm_middle.trans (List.Perm.cons _ ?_)
    exact List.perm_middle.trans (List.Perm.cons p inv.owners)
  · rfl
  · rfl
  · exact taskList

/-! ### Files -/

/-- The names in the table, in order. -/
def Kernel.names (k : Kernel) : List (List UInt8) := k.created.map fun file => file.1.stored

theorem Kernel.length_names (k : Kernel) : k.names.length = k.created.length := by
  simp [names]

theorem KernelInv.named (inv : KernelInv L k) : k.vfs.Names k.names := by
  refine ⟨inv.count.trans k.length_names.symm, fun i s there => ?_⟩
  obtain ⟨⟨name, content⟩, created, rfl⟩ :=
    Option.map_eq_some_iff.mp (List.getElem?_map.symm.trans there)
  exact (inv.stored i name content created).holds.named

/-- `vfs_create_file` returns, with one of its outcomes. -/
theorem KernelInv.createFile (inv : KernelInv L k) (name content : CString) :
    ∃ h v r, vfsCreateFile k.heap.heap k.vfs name.bytes content.bytes = some (h, v, r) ∧
      CreateOutcome k.heap.heap k.vfs k.names name content h v r := by
  obtain ⟨bs, heap⟩ := inv.heap
  exact vfsCreateFile_cases inv.named (heap.kmalloc_total _)

theorem KernelInv.outcome {h : Heap} {v : Vfs} {r : Int} (inv : KernelInv L k)
    (result : vfsCreateFile k.heap.heap k.vfs name.bytes content.bytes = some (h, v, r)) :
    CreateOutcome k.heap.heap k.vfs k.names name content h v r := by
  obtain ⟨h', v', r', result', outcome⟩ := inv.createFile name content
  rw [result', Option.some.injEq, Prod.mk.injEq, Prod.mk.injEq] at result
  obtain ⟨rfl, rfl, rfl⟩ := result
  exact outcome

/-- A file that was created got past every check. -/
theorem KernelInv.passed {h : Heap} {v : Vfs} (inv : KernelInv L k)
    (result : vfsCreateFile k.heap.heap k.vfs name.bytes content.bytes = some (h, v, 0)) :
    k.names.length < 16 ∧ name.chars ∉ k.names ∧
      ∃ h' buf, FriscaOS.kmalloc k.heap.heap content.size = some (h', buf) ∧ buf ≠ NULL := by
  generalize success : (0 : Int) = r at result
  cases inv.outcome result with
  | full => cases success
  | duplicate => cases success
  | noMemory => cases success
  | @created h' buf m file room fresh allocated nonnull =>
    exact ⟨room, fresh, h', buf, allocated, nonnull⟩

/-- A refused file leaves the heap and the table as they were. -/
theorem KernelInv.refused {h : Heap} {v : Vfs} {r : Int} (inv : KernelInv L k)
    (result : vfsCreateFile k.heap.heap k.vfs name.bytes content.bytes = some (h, v, r))
    (negative : r ≠ 0) : h = k.heap.heap ∧ v = k.vfs := by
  obtain ⟨bs, heap⟩ := inv.heap
  cases inv.outcome result with
  | full => exact ⟨rfl, rfl⟩
  | duplicate => exact ⟨rfl, rfl⟩
  | noMemory _ _ failed => exact ⟨heap.kmalloc_null failed, rfl⟩
  | created => exact absurd rfl negative

/-- A block that was handed out for a content and filled with it. -/
theorem HeapInv.kmalloc_store {R : HeapRegion} {s : HeapRun} {bs : List Block} {h : Heap}
    {buf : UInt32} {m : Mem} (inv : HeapInv R s bs)
    (result : FriscaOS.kmalloc s.heap content.size = some (h, buf)) (nonnull : buf ≠ NULL)
    (change : Within {x | buf.toNat ≤ x ∧ x < buf.toNat + (content.chars.length + 1)} h.mem m) :
    let t : HeapRun := ⟨⟨m, h.heapStart⟩, buf :: s.live⟩
    content.chars.length + 1 ≤ (payloadSize m buf).toNat ∧
      ∃ cs, HeapInv R t cs ∧ ∀ q ∈ s.live, Untouched s t q := by
  intro t
  -- the request is below the sizes whose rounding wraps
  have fits := content.fits
  have room := inv.kmalloc_room (by rw [content.toNat_size]; omega) result nonnull
  rw [content.toNat_size] at room
  obtain ⟨cs, inv₁, untouched₁⟩ := inv.kmalloc_step result
  simp only [if_neg nonnull] at inv₁ untouched₁
  have inside : Within (clientBytes R h.mem [buf]) h.mem m := by
    apply change.mono
    rintro x ⟨lower, upper⟩
    exact .inr (.inr ⟨buf, .head _, lower, by omega⟩)
  have owned : ∀ q ∈ [buf], q ∈ buf :: s.live := by simp
  have inv₂ := inv₁.client owned inside
  have kept := inv₁.payloadSize_kept inv₂ (.head _) fun b taken _ => taken
  refine ⟨kept ▸ room, ?_⟩
  obtain ⟨ds, inv₃, untouched₂⟩ := inv₁.client_step owned inside
  refine ⟨ds, inv₃, fun q member => (untouched₁ q member).trans ?_⟩
  have fresh := (List.nodup_cons.mp inv₁.nodup).1
  apply untouched₂ q (.tail _ member)
  simpa using fun same : q = buf => fresh (same ▸ member)

/-- What a step that adds a file has to do. -/
theorem KernelInv.extend (inv : KernelInv L k) (heap : ∃ bs, HeapInv L.region k'.heap bs)
    (untouched : ∀ q ∈ k.heap.live, Untouched k.heap k'.heap q)
    (live : k'.heap.live = (k'.vfs.fileTable k.created.length).buffer :: k.heap.live)
    (others : k'.taskBlocks = k.taskBlocks ∧ k'.clientBlocks = k.clientBlocks)
    (tasks : k'.tasks = k.tasks) (created : k'.created = k.created ++ [(name, content)])
    (count : k'.vfs.fileCount.toNat = k.created.length + 1) (room : k.created.length < 16)
    (old : ∀ i < k.created.length, k'.vfs.fileTable i = k.vfs.fileTable i)
    (stored : Stored k'.mem (k'.vfs.fileTable k.created.length) name content) :
    KernelInv L k' ∧ FilesKept k k' := by
  -- what the old files own is among the live blocks, which are all untouched
  have kept (q : UInt32) (member : q ∈ k.buffers) : Untouched k.heap k'.heap q :=
    untouched q (inv.buffers_apart member).1
  have buffers : k'.buffers = k.buffers ++ [(k'.vfs.fileTable k.created.length).buffer] := by
    simp only [Kernel.buffers, created, List.length_append, List.length_singleton,
      List.range_succ, List.map_append, List.map_singleton, List.append_left_inj]
    apply List.map_congr_left
    intro i member
    rw [old i (List.mem_range.mp member)]
  refine ⟨⟨heap, ?_, ?_, ?_, ?_, ?_⟩, ?_⟩
  · rw [buffers, others.1, others.2, live, List.append_assoc, List.singleton_append]
    exact List.perm_middle.trans (List.Perm.cons _ inv.owners)
  · rw [tasks]
    exact inv.taskList
  · simp [count, created]
  · simp only [created, List.length_append, List.length_singleton]
    omega
  · intro i name' content' there
    rw [created] at there
    by_cases bound : i < k.created.length
    · rw [List.getElem?_append_left bound] at there
      rw [old i bound]
      exact (inv.stored i name' content' there).kept (kept _ (Kernel.mem_buffers bound))
    · -- the only other entry is the new one
      obtain ⟨last, _⟩ := List.getElem?_eq_some_iff.mp there
      rw [List.length_append, List.length_singleton] at last
      obtain rfl : i = k.created.length := by omega
      rw [List.getElem?_concat_length, Option.some.injEq, Prod.mk.injEq] at there
      obtain ⟨rfl, rfl⟩ := there
      exact stored
  · apply inv.filesKept kept
    · rw [count, inv.count]
      omega
    · exact fun i bound => old i (inv.count ▸ bound)

theorem KernelInv.fileCreated {h : Heap} {v : Vfs} (inv : KernelInv L k)
    (result : vfsCreateFile k.heap.heap k.vfs name.bytes content.bytes = some (h, v, 0)) :
    let k' : Kernel :=
      { k with
        heap := ⟨h, (v.fileTable k.vfs.fileCount.toNat).buffer :: k.heap.live⟩
        vfs := v
        created := k.created ++ [(name, content)] }
    KernelInv L k' ∧ FilesKept k k' := by
  obtain ⟨bs, heap⟩ := inv.heap
  generalize success : (0 : Int) = r at result
  cases inv.outcome result with
  | full => cases success
  | duplicate => cases success
  | noMemory => cases success
  | @created h' buf m file room _ allocated nonnull buffer change holds =>
    obtain ⟨enough, cs, heap', untouched⟩ := heap.kmalloc_store allocated nonnull change
    rw [k.length_names] at room
    simp only [inv.count, k.length_names, update_self, buffer]
    -- fewer than 16 files, so the counter does not wrap
    have count : (k.vfs.fileCount + 1).toNat = k.created.length + 1 := by
      have one : (1 : UInt32).toNat = 1 := rfl
      rw [toNat_add_of_lt, inv.count, one]
      rw [inv.count, one]
      omega
    apply inv.extend ⟨cs, heap'⟩ untouched
    · simp only [update_self, buffer]
    · exact ⟨rfl, rfl⟩
    · rfl
    · rfl
    · exact count
    · exact room
    · exact fun i bound => update_of_ne (by omega) ..
    · simp only [update_self]
      exact ⟨holds, buffer ▸ enough⟩

theorem KernelInv.fileRefused {h : Heap} {v : Vfs} {r : Int} (inv : KernelInv L k)
    (result : vfsCreateFile k.heap.heap k.vfs name.bytes content.bytes = some (h, v, r))
    (negative : r ≠ 0) :
    let k' : Kernel := { k with heap := ⟨h, k.heap.live⟩, vfs := v }
    KernelInv L k' ∧ FilesKept k k' := by
  obtain ⟨rfl, rfl⟩ := inv.refused result negative
  exact ⟨inv, .refl k⟩

/-! ### Runs -/

/-- Every step keeps the invariant, and every file. -/
theorem KernelInv.step {op : KernelOp} (inv : KernelInv L k) (taken : KernelStep L k op k') :
    KernelInv L k' ∧ FilesKept k k' := by
  cases taken with
  | fileCreated result => exact inv.fileCreated result
  | fileRefused result negative => exact inv.fileRefused result negative
  | taskCreated result nonnull => exact inv.taskCreated result nonnull
  | taskRefused result => exact inv.taskRefused result
  | kmalloc result => exact inv.kmalloc result
  | kfree legal result => exact inv.kfree legal result
  | client change => exact inv.client change

theorem KernelInv.run {ops : List KernelOp} (inv : KernelInv L k)
    (run : Run (KernelStep L) k ops k') : KernelInv L k' ∧ FilesKept k k' := by
  apply run.invariant (fun k' => KernelInv L k' ∧ FilesKept k k')
  · rintro s op t ⟨inv, kept⟩ taken
    obtain ⟨inv', kept'⟩ := inv.step taken
    exact ⟨inv', kept.trans kept'⟩
  · exact ⟨inv, .refl k⟩

theorem KernelReachable.run {ops : List KernelOp} (reach : KernelReachable L k)
    (run : Run (KernelStep L) k ops k') : KernelReachable L k' := by
  obtain ⟨m, v, before, boot⟩ := reach
  exact ⟨m, v, before ++ ops, boot.append run⟩

theorem KernelReachable.inv (reach : KernelReachable L k) : KernelInv L k := by
  obtain ⟨m, v, ops, run⟩ := reach
  exact ((kernelInv_init m v).run run).1

end FriscaOS
