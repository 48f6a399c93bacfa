import FriscaOS.Memory.HeapSafety
import FriscaOS.Task.Task

/-! `create_task` on the heap it shares with other clients: the two blocks it takes, or the one
it gives back. -/
namespace FriscaOS

open ByteMemory FreeList

variable {R : HeapRegion} {s : HeapRun} {bs : List Block} {h h₁ h₂ : Heap} {m : Mem}
  {v v' : TaskVars} {newTask stack entryPoint p : UInt32}

/-- `create_task` returns. -/
theorem HeapInv.createTask_total (inv : HeapInv R s bs) (v : TaskVars) (entryPoint : UInt32) :
    ∃ h v' p, createTask s.heap v entryPoint = some (h, v', p) := by
  obtain ⟨h₁, newTask, first⟩ := inv.kmalloc_total sizeofTask
  by_cases noTask : newTask = NULL
  · exact ⟨h₁, v, NULL, by simp [createTask, first, noTask]⟩
  obtain ⟨cs, inv₁, -⟩ := inv.kmalloc_step first
  simp only [if_neg noTask] at inv₁
  obtain ⟨h₂, stack, second⟩ := inv₁.kmalloc_total 4096
  by_cases noStack : stack = NULL
  · obtain ⟨ds, inv₂, -⟩ := inv₁.kmalloc_step second
    simp only [if_pos noStack] at inv₂
    obtain ⟨h₃, freed, -⟩ := inv₂.kfree_some (.head _)
    exact ⟨h₃, v, NULL, by simp [createTask, first, noTask, second, noStack, freed]⟩
  · rcases built : initTask h₂.mem v newTask stack entryPoint with ⟨m, v'⟩
    exact ⟨{ h₂ with mem := m }, v', newTask, by
      simp [createTask, first, noTask, second, noStack, built]⟩

/-- A failed `create_task` owns nothing: the heap is valid with the blocks from before, which
are as they were. -/
theorem HeapInv.taskRefused (inv : HeapInv R s bs)
    (result : createTask s.heap v entryPoint = some (h, v', NULL)) :
    v' = v ∧ ∃ cs, HeapInv R ⟨h, s.live⟩ cs ∧ ∀ q ∈ s.live, Untouched s ⟨h, s.live⟩ q := by
  generalize null : NULL = p at result
  cases createTask_cases result with
  | noTask failed =>
    obtain ⟨cs, inv₁, untouched⟩ := inv.kmalloc_step failed
    simp only [↓reduceIte] at inv₁ untouched
    exact ⟨rfl, cs, inv₁, untouched⟩
  | @noStack h₁ h₂ h newTask first nonnull second freed =>
    obtain ⟨cs, inv₁, untouched₁⟩ := inv.kmalloc_step first
    simp only [if_neg nonnull] at inv₁ untouched₁
    obtain ⟨ds, inv₂, untouched₂⟩ := inv₁.kmalloc_step second
    simp only [↓reduceIte] at inv₂ untouched₂
    obtain ⟨es, inv₃, untouched₃⟩ := inv₂.kfree_step (.inr (List.mem_cons_self ..)) freed
    simp only [List.erase_cons_head] at inv₃ untouched₃
    -- the block that is freed again was not live before the call
    refine ⟨rfl, es, inv₃, fun q member => ?_⟩
    have old : q ∈ newTask :: s.live := .tail _ member
    have fresh := (List.nodup_cons.mp inv₁.nodup).1
    apply ((untouched₁ q member).trans (untouched₂ q old)).trans
    exact untouched₃ q old fun same => fresh (same ▸ member)
  | created _ nonnull => exact absurd null.symm nonnull

/-- The two blocks of a new task, once both calls of `kmalloc` have succeeded. -/
structure TaskBlocks (R : HeapRegion) (t : HeapRun) (newTask stack : UInt32) : Prop where
  liveTask : newTask ∈ t.live
  liveStack : stack ∈ t.live
  roomTask : 20 ≤ (payloadSize t.heap.mem newTask).toNat
  roomStack : 4096 ≤ (payloadSize t.heap.mem stack).toNat
  other : newTask ≠ stack

theorem HeapInv.taskBlocks (inv : HeapInv R s bs)
    (first : kmalloc s.heap sizeofTask = some (h₁, newTask)) (nonnull : newTask ≠ NULL)
    (second : kmalloc h₁ 4096 = some (h₂, stack)) (nonnull' : stack ≠ NULL) :
    let t : HeapRun := ⟨h₂, stack :: newTask :: s.live⟩
    TaskBlocks R t newTask stack ∧ ∃ cs, HeapInv R t cs ∧ ∀ q ∈ s.live, Untouched s t q := by
  intro t
  obtain ⟨cs, inv₁, untouched₁⟩ := inv.kmalloc_step first
  have roomTask := inv.kmalloc_room (by decide) first nonnull
  simp only [if_neg nonnull] at inv₁ untouched₁
  obtain ⟨ds, inv₂, untouched₂⟩ := inv₁.kmalloc_step second
  have roomStack := inv₁.kmalloc_room (by decide) second nonnull'
  simp only [if_neg nonnull'] at inv₂ untouched₂
  -- the second call leaves the first block as it was
  rw [← (untouched₂ newTask (.head _)).size] at roomTask
  refine ⟨⟨.tail _ (.head _), .head _, roomTask, roomStack, ?_⟩, ds, inv₂, fun q member => ?_⟩
  · rintro rfl
    have fresh := (List.nodup_cons.mp inv₂.nodup).1
    exact fresh (.head _)
  · exact (untouched₁ q member).trans (untouched₂ q (.tail _ member))

/-- A new task initialised in its two blocks, beside the head of the ring. -/
theorem HeapInv.initTask {t : HeapRun} (inv : HeapInv R t bs)
    (blocks : TaskBlocks R t newTask stack)
    (beside : v.taskList.toNat + 20 ≤ R.base.toNat ∨ R.base.toNat + 16384 ≤ v.taskList.toNat)
    (init : initTask t.heap.mem v newTask stack entryPoint = (m, v')) :
    let u : HeapRun := ⟨⟨m, t.heap.heapStart⟩, t.live⟩
    taskStack m newTask = stack ∧ HeapInv R u bs ∧
      ∀ q ∈ t.live, q ≠ newTask → q ≠ stack → Untouched t u q := by
  intro u
  have roomTask := blocks.roomTask
  have roomStack := blocks.roomStack
  have regionTask := inv.payload_region blocks.liveTask
  have regionStack := inv.payload_region blocks.liveStack
  have apart := inv.payloads_apart blocks.liveTask blocks.liveStack blocks.other
  have fits := R.fits
  have stackFits : stack.toNat + 4096 < 2 ^ 32 := by omega
  obtain ⟨_, recorded, _⟩ :=
    initTask_spec stackFits init (by omega) (by omega) (by omega)
  -- the stores go to the two blocks, and to the head of the ring, which lies outside the heap
  have change : Within (clientBytes R t.heap.mem [newTask, stack]) t.heap.mem m := by
    apply (initTask_within stackFits init).mono
    rintro x (⟨lower, upper⟩ | ⟨lower, upper⟩ | ⟨lower, upper⟩)
    · exact .inr (.inr ⟨newTask, by simp, lower, by omega⟩)
    · exact .inr (.inr ⟨stack, by simp, lower, by omega⟩)
    · rcases beside with below | above
      · exact .inl (by omega)
      · exact .inr (.inl (by omega))
  have owned : ∀ q ∈ [newTask, stack], q ∈ t.live := by
    simpa using ⟨blocks.liveTask, blocks.liveStack⟩
  obtain ⟨_, -, untouched⟩ := inv.client_step owned change
  refine ⟨recorded, inv.client owned change, fun q member notTask notStack => ?_⟩
  exact untouched q member (by simp [notTask, notStack])

/-- A successful `create_task` owns two new blocks, and leaves the others as they were. -/
theorem HeapInv.taskCreated (inv : HeapInv R s bs)
    (beside : v.taskList.toNat + 20 ≤ R.base.toNat ∨ R.base.toNat + 16384 ≤ v.taskList.toNat)
    (result : createTask s.heap v entryPoint = some (h, v', p)) (nonnull : p ≠ NULL) :
    let t : HeapRun := ⟨h, taskStack h.mem p :: p :: s.live⟩
    v'.taskList = v.taskList ∧ ∃ cs, HeapInv R t cs ∧ ∀ q ∈ s.live, Untouched s t q := by
  cases createTask_cases result with
  | noTask => exact absurd rfl nonnull
  | noStack => exact absurd rfl nonnull
  | created first _ second nonnull' init =>
    obtain ⟨blocks, cs, inv₂, untouched⟩ := inv.taskBlocks first nonnull second nonnull'
    obtain ⟨recorded, inv₃, untouched'⟩ := inv₂.initTask blocks beside init
    simp only [recorded]
    refine ⟨(initTask_vars init).2, cs, inv₃, fun q member => ?_⟩
    have fresh := inv₂.nodup
    simp only [List.nodup_cons, List.mem_cons, not_or] at fresh
    apply (untouched q member).trans
    apply untouched' q (.tail _ (.tail _ member))
    · exact fun same => fresh.2.1 (same ▸ member)
    · exact fun same => fresh.1.2 (same ▸ member)

/-- `create_task` succeeds where both blocks fit. -/
theorem HeapInv.createTask_some {cs ds : List Block} {c d : Block} (inv : HeapInv R s bs)
    (v : TaskVars) (entryPoint : UInt32)
    (beside : v.taskList.toNat + 20 ≤ R.base.toNat ∨ R.base.toNat + 16384 ≤ v.taskList.toNat)
    (first : allocate 12 16 (roundUp sizeofTask).toNat bs = some (c, cs))
    (second : allocate 12 16 (roundUp 4096).toNat cs = some (d, ds)) :
    ∃ h v' p, createTask s.heap v entryPoint = some (h, v', p) ∧ p ≠ NULL ∧
      HeapInv R ⟨h, taskStack h.mem p :: p :: s.live⟩ ds := by
  obtain ⟨h₁, newTask, taken, -, nonnull, inv₁, -⟩ := inv.kmalloc_some (by decide) first
  obtain ⟨h₂, stack, taken', -, nonnull', inv₂, -⟩ := inv₁.kmalloc_some (by decide) second
  obtain ⟨blocks, -⟩ := inv.taskBlocks taken nonnull taken' nonnull'
  rcases init : FriscaOS.initTask h₂.mem v newTask stack entryPoint with ⟨m, v'⟩
  obtain ⟨recorded, inv₃, -⟩ := inv₂.initTask blocks beside init
  refine ⟨⟨m, h₂.heapStart⟩, v', newTask, ?_, nonnull, ?_⟩
  · simp [createTask, taken, nonnull, taken', nonnull', init]
  · simpa only [recorded] using inv₃

/-- `create_task` fails where only the first block fits. -/
theorem HeapInv.createTask_noStack {cs : List Block} {c : Block} (inv : HeapInv R s bs)
    (v : TaskVars) (entryPoint : UInt32)
    (first : allocate 12 16 (roundUp sizeofTask).toNat bs = some (c, cs))
    (second : allocate 12 16 (roundUp 4096).toNat cs = none) :
    ∃ h, createTask s.heap v entryPoint = some (h, v, NULL) := by
  obtain ⟨h₁, newTask, taken, -, nonnull, inv₁, -⟩ := inv.kmalloc_some (by decide) first
  have failed := kmalloc_none inv₁.rep inv₁.tiles R.top (by decide) second
  obtain ⟨h₂, freed, -⟩ := inv₁.kfree_some (.head _)
  exact ⟨h₂, by simp [createTask, taken, nonnull, failed, freed]⟩

end FriscaOS
