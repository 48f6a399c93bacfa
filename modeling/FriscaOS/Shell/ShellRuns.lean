import FriscaOS.Shell.LineEditor

/-! The booted system with its keyboard: keys also arrive while commands sleep, and tasks store to
their own blocks. Every run of it is a run of the kernel of heap, files and tasks. -/
namespace FriscaOS

open ByteMemory FramePool Transition

/-! ### The system -/

structure ShellSystem where
  os : Os
  -- calls of `execute_command` that wait in `sleep`
  blocked : Nat

inductive ShellOp
  | key (env : Env) (c : UInt8)
  -- `sleep` returns in one of the calls that wait
  | wake
  -- stores of tasks, as the memory they leave
  | tasks (mem : Mem)

def Progress.blocks : Progress → Nat
  | sleeping _ => 1
  | _ => 0

inductive ShellStep (L : KernelLayout) : ShellSystem → ShellOp → ShellSystem → Prop
  -- the keyboard driver delivers no terminator
  | key {s env c os progress} : c ≠ 0 → shellInput env c s.os = some (os, progress) →
      progress ≠ .halted → ShellStep L s (.key env c) ⟨os, s.blocked + progress.blocks⟩
  | wake {s n os} : s.blocked = n + 1 → afterSleep s.os = some os → ShellStep L s .wake ⟨os, n⟩
  | tasks {s mem} : Within (clientBytes L.region s.os.heap.mem s.os.taskBlocks) s.os.heap.mem mem →
      ShellStep L s (.tasks mem) { s with os := { s.os with heap := ⟨mem, s.os.heap.heapStart⟩ } }

/-- The state in which `kernel_main` enters its idle loop, whatever the memory held before. -/
def Booted.Idle (L : KernelLayout) (os : Os) : Prop :=
  L.region = bootRegion ∧
    ∃ m r v buffer entryPoint, kernelMain m r v buffer L.mainTask entryPoint = some os

def ShellReachable (L : KernelLayout) (s : ShellSystem) : Prop :=
  ∃ os ops, Booted.Idle L os ∧ Run (ShellStep L) ⟨os, 0⟩ ops s

structure ShellInv (L : KernelLayout) (os : Os) : Prop where
  store : StoreInv L os.toStore
  edit : EditInv os

variable {L : KernelLayout} {s t : ShellSystem} {os os' : Os} {a b : Store} {k : Kernel} {env : Env}
  {c : UInt8} {op : ShellOp} {ops : List ShellOp} {file : Option (CString × CString)}

/-! ### Steps -/

/-- A command is a run of the kernel: it creates a file, or takes a block and frees it. -/
theorem StoreEffect.run (effect : StoreEffect a file b) (tracks : Tracks a k) :
    ∃ ops k', Run (KernelStep L) k ops k' ∧ Tracks b k' := by
  obtain ⟨heap, vfs, taskBlocks, clientBlocks⟩ := tracks
  cases effect with
  | kept => exact ⟨[], k, .nil k, heap, vfs, taskBlocks, clientBlocks⟩
  | @tested h p h' taken nonnull freed =>
    rw [← heap] at taken
    have first := KernelStep.kmalloc (L := L) taken
    rw [if_neg nonnull, if_neg nonnull, clientBlocks] at first
    have second := KernelStep.kfree (L := L)
      (k := { k with heap := ⟨h, p :: k.heap.live⟩, clientBlocks := [p] }) (.inr (.head _)) freed
    exact ⟨_, _, .cons first (.single second), rfl, vfs, taskBlocks, List.erase_cons_head ..⟩
  | @created name content h v r result =>
    rw [← heap, ← vfs] at result
    by_cases success : r = 0
    · subst success
      exact ⟨_, _, .single (.fileCreated result), rfl, rfl, taskBlocks, clientBlocks⟩
    · exact ⟨_, _, .single (.fileRefused result success), rfl, rfl, taskBlocks, clientBlocks⟩

theorem StoreEffect.pmm (effect : StoreEffect a file b) : b.pmm = a.pmm := by
  cases effect with
  | kept | tested | created => rfl

theorem StoreEffect.inv (effect : StoreEffect a file b) (inv : StoreInv L a) : StoreInv L b := by
  obtain ⟨k, kernel, tracks⟩ := inv.kernel
  obtain ⟨ops, k', run, tracks'⟩ := effect.run tracks
  exact ⟨⟨k', (kernel.run run).1, tracks'⟩, effect.pmm ▸ inv.restores⟩

/-- What a key does. -/
theorem ShellInv.shellInput (inv : ShellInv L os) (env : Env) (key : c ≠ 0) :
    ∃ os' progress, shellInput env c os = some (os', progress) ∧ ShellInv L os' ∧
      ∃ file, StoreEffect os.toStore file os'.toStore := by
  by_cases enter : c = newline
  · obtain ⟨os', progress, result, executed⟩ :=
      executeCommand_executed inv.store inv.edit env
    obtain ⟨file, asked, effect⟩ := executed.effect
    exact ⟨os', progress, (if_pos enter).trans result,
      ⟨effect.inv inv.store, executed.edit inv.edit⟩, file, effect⟩
  · obtain ⟨os', result, store, line, edit⟩ := shellInput_edit inv.edit env key enter
    exact ⟨os', .returned, result, ⟨store ▸ inv.store, edit⟩, none, store ▸ .kept⟩

/-- Tasks store to their own blocks. -/
theorem StoreInv.tasks (inv : StoreInv L a) (kernel : KernelInv L k) (tracks : Tracks a k) {mem : Mem}
    (change : Within (clientBytes L.region a.heap.mem a.taskBlocks) a.heap.mem mem) :
    let b : Store := { a with heap := ⟨mem, a.heap.heapStart⟩ }
    ∃ op k', KernelStep L k op k' ∧ Tracks b k' ∧ StoreInv L b := by
  have owned : k.taskBlocks ++ k.clientBlocks = a.taskBlocks := by
    rw [tracks.taskBlocks, tracks.clientBlocks, List.append_nil]
  have same : k.mem = a.heap.mem := congrArg Heap.mem tracks.heap
  rw [← owned, ← same] at change
  have taken := KernelStep.client change
  have tracks' : Tracks { a with heap := ⟨mem, a.heap.heapStart⟩ }
      { k with heap := ⟨{ k.heap.heap with mem := mem }, k.heap.live⟩ } :=
    ⟨by rw [tracks.heap], tracks.vfs, tracks.taskBlocks, tracks.clientBlocks⟩
  exact ⟨_, _, taken, tracks', ⟨_, (kernel.run (.single taken)).1, tracks'⟩, inv.restores⟩

/-- Every step keeps the invariant, and is a run of the kernel. -/
theorem ShellInv.step (inv : ShellInv L s.os) (kernel : KernelInv L k)
    (tracks : Tracks s.os.toStore k) (taken : ShellStep L s op t) : ShellInv L t.os ∧
      ∃ ops k', Run (KernelStep L) k ops k' ∧ Tracks t.os.toStore k' := by
  cases taken with
  | @key env c os progress key result =>
    obtain ⟨os', progress', result', inv', file, effect⟩ := inv.shellInput env key
    rw [result', Option.some.injEq, Prod.mk.injEq] at result
    obtain ⟨rfl, rfl⟩ := result
    exact ⟨inv', effect.run tracks⟩
  | wake waiting result =>
    rw [afterSleep_eq, Option.some.injEq] at result
    subst result
    exact ⟨⟨inv.store, .of_empty rfl⟩, [], k, .nil k, tracks⟩
  | @tasks mem change =>
    obtain ⟨op, k', taken, tracks', inv'⟩ := inv.store.tasks kernel tracks change
    exact ⟨⟨inv', inv.edit.index, inv.edit.plain⟩, [op], k', .single taken, tracks'⟩

theorem ShellInv.run (inv : ShellInv L s.os) (kernel : KernelInv L k)
    (tracks : Tracks s.os.toStore k) (run : Run (ShellStep L) s ops t) : ShellInv L t.os ∧
      ∃ ops k', Run (KernelStep L) k ops k' ∧ Tracks t.os.toStore k' := by
  induction run generalizing k with
  | nil => exact ⟨inv, [], k, .nil k, tracks⟩
  | cons taken _ ih =>
    obtain ⟨inv', first, k', matched, tracks'⟩ := inv.step kernel tracks taken
    obtain ⟨final, rest, k'', matched', tracks''⟩ := ih inv' (kernel.run matched).1 tracks'
    exact ⟨final, first ++ rest, k'', matched.append matched', tracks''⟩

/-! ### Boot -/

/-- Boot leaves a frame free, so that taking one and giving it back leaves no trace. -/
theorem Booted.restores {memSize : UInt32} {r : ControlRegs} {b : Layers}
    (booted : Booted memSize r b) (more : 265 < managedBlocks memSize) (pmm : Pmm) (addr : UInt32)
    (result : pmmAllocBlock b.pmm = (pmm, addr)) : pmmFreeBlock pmm addr = b.pmm := by
  obtain ⟨p, frames⟩ := booted.frames
  have managed : 265 ∈ p.free ∪ p.owned := by
    rw [frames.rep.all.total, mem_bootFrames]
    exact ⟨by decide, more⟩
  -- boot took the frames from 256 to 264
  have notOwned : 265 ∉ p.owned := by
    rw [frames.rep.owned]
    dsimp only
    decide
  have free : 265 ∈ b.pmm.freeBlocks :=
    frames.rep.free ▸ (Finset.mem_union.mp managed).resolve_right notOwned
  exact frames.pmm.alloc_free ⟨265, free⟩ result

def welcome : List VgaCall :=
  .setColor .lightGreen .black :: printed "=== Welcome to Frisca OS Shell ===\n" ++
    .setColor .white .black :: prompt

theorem shellInit_eq (s : Os) :
    shellInit s = some { s with bufferIdx := 0, vga := s.vga ++ welcome } := by
  simp [shellInit, printPrompt_eq, Os.print, welcome]

/-- The kernel comes up, whether or not there is room for the background task. -/
theorem kernelMain_some (region : L.region = bootRegion) (m : Mem) (r : ControlRegs) (v : Vfs)
    (buffer : Mem) (entryPoint : UInt32) : ∃ b h tasks p, Booted (16 * 1024 * 1024) r b ∧
      createTask ⟨(taskInit b.heap.mem L.mainTask).1, b.heap.heapStart⟩
        (taskInit b.heap.mem L.mainTask).2 entryPoint = some (h, tasks, p) ∧
      kernelMain m r v buffer L.mainTask entryPoint = some
        { pmm := b.pmm, heap := h, vfs := vfsInit v
          taskBlocks := if p = NULL then [] else [taskStack h.mem p, p]
          commandBuffer := buffer, bufferIdx := 0
          vga := [.setColor .white .black, .clear] ++ welcome } := by
  have booted : Booted (16 * 1024 * 1024) r (memoryInit (16 * 1024 * 1024) m r) :=
    memoryInit_booted (by decide) m r
  -- what the layers are in full takes too long to compute
  obtain ⟨b, same⟩ : ∃ b, b = memoryInit (16 * 1024 * 1024) m r := ⟨_, rfl⟩
  rw [← same] at booted
  obtain ⟨bs, heap⟩ := booted.heap
  rw [← region] at heap
  obtain ⟨h, tasks, p, created⟩ :=
    heap.taskInit.createTask_total (taskInit b.heap.mem L.mainTask).2 entryPoint
  refine ⟨b, h, tasks, p, booted, created, ?_⟩
  rw [kernelMain, ← same]
  dsimp only
  rw [created, Option.bind_eq_bind, Option.bind_some]
  exact shellInit_eq _

theorem kernelMain_boots (region : L.region = bootRegion) (m : Mem) (r : ControlRegs) (v : Vfs)
    (buffer : Mem) (entryPoint : UInt32) :
    ∃ os, kernelMain m r v buffer L.mainTask entryPoint = some os ∧ ShellInv L os ∧
      os.line = [] := by
  obtain ⟨b, h, tasks, p, booted, created, result⟩ :=
    kernelMain_some region m r v buffer entryPoint
  obtain ⟨bs, heap⟩ := booted.heap
  rw [← region] at heap
  have kernel := kernelInv_boot heap v
  refine ⟨_, result, ⟨⟨?_, booted.restores (by decide)⟩, .of_empty rfl⟩,
    Os.line_eq_nil_iff.mpr rfl⟩
  by_cases null : p = NULL
  · subst null
    exact ⟨_, (kernel.taskRefused created).1, rfl, rfl, rfl, rfl⟩
  · exact ⟨_, (kernel.taskCreated created null).1, rfl, rfl, (if_neg null).symm, rfl⟩

/-- The blocks of the background task, and the rest of the heap. -/
def idleBlocks : List FreeList.Block :=
  [⟨0x100000, 20, false⟩, ⟨0x100020, 4096, false⟩, ⟨0x10102C, 12232, true⟩]

/-- After boot no file is there yet, and there is room for the first one. -/
theorem Booted.Idle.room (idle : Booted.Idle L os) : os.vfs.fileCount = 0 ∧
    ∀ size : UInt32, size ≠ 0 → size.toNat ≤ 256 →
      ∃ h p, kmalloc os.heap size = some (h, p) ∧ p ≠ NULL := by
  obtain ⟨region, m, r, v, buffer, entryPoint, result⟩ := idle
  obtain ⟨b, h, tasks, p, booted, created, result'⟩ :=
    kernelMain_some region m r v buffer entryPoint
  rw [result', Option.some.injEq] at result
  subst result
  refine ⟨vfsInit_fileCount v, fun size nonzero small => ?_⟩
  obtain ⟨bs, heap⟩ := booted.heap
  obtain rfl : bs = initialBlocks bootRegion :=
    heap.unique (heapInv_init bootRegion m) (fun _ => Iff.rfl) (fun _ => nofun)
  rw [← region] at heap
  have first : FreeList.allocate 12 16 (roundUp sizeofTask).toNat (initialBlocks L.region) =
      some (⟨0x100000, 20, false⟩, [⟨0x100000, 20, false⟩, ⟨0x100020, 16340, true⟩]) := by
    rw [region]
    decide
  have second : FreeList.allocate 12 16 (roundUp 4096).toNat
      [⟨0x100000, 20, false⟩, ⟨0x100020, 16340, true⟩] =
        some (⟨0x100020, 4096, false⟩, idleBlocks) := by decide
  obtain ⟨h', tasks', p', created', -, inv⟩ :=
    heap.taskInit.createTask_some (taskInit b.heap.mem L.mainTask).2 entryPoint L.beside first second
  rw [created, Option.some.injEq, Prod.mk.injEq, Prod.mk.injEq] at created'
  obtain ⟨rfl, -, -⟩ := created'
  have fits : (roundUp size).toNat ≤ 12232 := by
    rw [toNat_roundUp]
    omega
  obtain ⟨⟨c, cs⟩, found⟩ : ∃ found, FreeList.allocate 12 16 (roundUp size).toNat idleBlocks =
      some found := by
    rw [← Option.ne_none_iff_exists', ne_eq, FreeList.allocate_none]
    intro small
    have last := small ⟨0x10102C, 12232, true⟩ (by simp [idleBlocks]) rfl
    exact absurd fits (Nat.not_le.mpr last)
  obtain ⟨h'', q, taken, -, nonnull, -⟩ := inv.kmalloc_some nonzero found
  exact ⟨h'', q, taken, nonnull⟩

theorem Booted.Idle.inv (idle : Booted.Idle L os) : ShellInv L os ∧ os.line = [] := by
  obtain ⟨region, m, r, v, buffer, entryPoint, result⟩ := idle
  obtain ⟨os', result', inv, line⟩ := kernelMain_boots region m r v buffer entryPoint
  rw [result', Option.some.injEq] at result
  subst result
  exact ⟨inv, line⟩

theorem kernelMain_idle (region : L.region = bootRegion) : ∃ os, Booted.Idle L os := by
  obtain ⟨os, result, -⟩ := kernelMain_boots region (fun _ => 0) ⟨0, 0⟩
    ⟨fun _ => ⟨fun _ => 0, 0, 0, NULL⟩, 0⟩ (fun _ => 0) 0
  exact ⟨os, region, _, _, _, _, _, result⟩

theorem Booted.Idle.reachable (idle : Booted.Idle L os) : ShellReachable L ⟨os, 0⟩ :=
  ⟨os, [], idle, .nil _⟩

theorem ShellReachable.inv (reach : ShellReachable L s) : ShellInv L s.os := by
  obtain ⟨os, ops, idle, run⟩ := reach
  obtain ⟨inv, -⟩ := idle.inv
  obtain ⟨k, kernel, tracks⟩ := inv.store.kernel
  exact (ShellInv.run (s := ⟨os, 0⟩) inv kernel tracks run).1

theorem ShellReachable.run (reach : ShellReachable L s) (run : Run (ShellStep L) s ops t) :
    ShellReachable L t := by
  obtain ⟨os, before, idle, boot⟩ := reach
  exact ⟨os, before ++ ops, idle, boot.append run⟩

end FriscaOS
