import FriscaOS.Shell.Listing

/-! What each line is answered with. Whatever happened before, a line that is entered at the prompt
leaves exactly the lines of its reply above the next prompt, and changes the files as the reply
says. -/
namespace FriscaOS

open ByteMemory Transition PaperTerminal Numeral FramePool

/-! ### Replies -/

variable {L : KernelLayout} {k : Kernel} {s t : ShellSystem} {os e u : Os} {env : Env} {op : ShellOp}
  {typed line args f c : List UInt8} {files : List File} {name content : CString} {h : Heap} {v : Vfs}
  {r : Int}

/-! ### The frames -/

/-- The frames that are free after boot. -/
def idleFrames : Finset Nat := Finset.Ico 265 4096

theorem Booted.frames_free {memSize : UInt32} {r : ControlRegs} {b : Layers}
    (booted : Booted memSize r b) : PmmInv b.pmm ∧
      b.pmm.freeBlocks = Finset.Ico 265 (managedBlocks memSize) := by
  obtain ⟨p, frames⟩ := booted.frames
  have boot : (bootBlocks.map fun addr => addr.toNat / 4096).toFinset = Finset.Ico 256 265 := by
    decide
  have owned : p.owned = Finset.Ico 256 265 := frames.rep.owned.trans boot
  refine ⟨frames.pmm, ?_⟩
  ext i
  have free : i ∈ b.pmm.freeBlocks ↔ i ∈ p.free := by rw [frames.rep.free]
  have whole : i ∈ p.free ∨ i ∈ p.owned ↔ i ∈ bootFrames memSize := by
    rw [← frames.rep.all.total, Finset.mem_union]
  have apart : i ∈ p.free → i ∉ p.owned := frames.rep.all.notMem_owned
  rw [owned, Finset.mem_Ico, mem_bootFrames] at whole
  rw [owned, Finset.mem_Ico] at apart
  rw [free, Finset.mem_Ico]
  by_cases member : i ∈ p.free
  · have inside := whole.mp (.inl member)
    have outside := apart member
    exact iff_of_true member (by omega)
  · refine iff_of_false member fun above => ?_
    rcases whole.mpr ⟨by omega, above.2⟩ with inside | early
    · exact member inside
    · omega

/-- What `mem` and `testmem` ask of the frames. -/
structure FramesIdle (pmm : Pmm) : Prop where
  inv : PmmInv pmm
  free : pmm.freeBlocks = idleFrames

theorem Booted.Idle.frames (idle : Booted.Idle L os) : FramesIdle os.pmm := by
  obtain ⟨region, m, r, v, buffer, entryPoint, result⟩ := idle
  obtain ⟨b, h, tasks, p, booted, -, result'⟩ :=
    kernelMain_some region m r v buffer entryPoint
  rw [result', Option.some.injEq] at result
  subst result
  obtain ⟨inv, free⟩ := booted.frames_free
  exact ⟨inv, free⟩

theorem ShellStep.pmm (inv : ShellInv L s.os) (taken : ShellStep L s op t) :
    t.os.pmm = s.os.pmm := by
  cases taken with
  | @key env c os progress key result =>
    obtain ⟨os', progress', result', -, file, effect⟩ := inv.shellInput env key
    rw [result, Option.some.injEq, Prod.mk.injEq] at result'
    obtain ⟨rfl, -⟩ := result'
    exact effect.pmm
  | wake waiting result =>
    rw [afterSleep_eq, Option.some.injEq] at result
    subst result
    rfl
  | tasks change => rfl

theorem ShellReachable.frames (reach : ShellReachable L s) : FramesIdle s.os.pmm := by
  obtain ⟨os, ops, idle, run⟩ := reach
  refine (run.invariant (fun s => ShellReachable L s ∧ FramesIdle s.os.pmm) ?_
    ⟨idle.reachable, idle.frames⟩).2
  rintro s op t ⟨reach, frames⟩ taken
  exact ⟨reach.run (.single taken), taken.pmm reach.inv ▸ frames⟩

theorem FramesIdle.freeMemory {pmm : Pmm} (frames : FramesIdle pmm) :
    (pmmGetFreeMemory pmm / 1024).toNat = 15324 := by
  have bytes := frames.inv.freeMemory
  rw [frames.free, idleFrames, Nat.card_Ico] at bytes
  rw [UInt32.toNat_div, bytes]
  rfl

/-- The lowest free frame is the one behind the page tables. -/
theorem FramesIdle.alloc {pmm next : Pmm} {addr : UInt32} (frames : FramesIdle pmm)
    (result : pmmAllocBlock pmm = (next, addr)) : addr.toNat = 1085440 := by
  have free (i : Nat) : (i < pmm.maxBlocks.toNat ∧ ¬pmm.Used i) ↔ 265 ≤ i ∧ i < 4096 := by
    rw [← mem_freeBlocks, frames.free, idleFrames, Finset.mem_Ico]
  have first := (free 265).mpr (by decide)
  cases frames.inv.alloc_cases result with
  | exhausted all => exact absurd (all 265 first.1) first.2
  | @handed block below unused lowest =>
    have inside := (free block.toNat).mp ⟨UInt32.lt_iff_toNat_lt.mp below, unused⟩
    have least : ¬265 < block.toNat := fun early => first.2 (lowest 265 early)
    rw [block_address block inside.2]
    omega

/-! ### Numbers -/

/-- The command prints these lines, and nothing else. -/
def Responds (e : Os) (result : Option Os) (lines : List (List UInt8)) : Prop :=
  ∃ u calls, result = some u ∧ u.vga = e.vga ++ calls ∧ Prints calls lines

/-- Files that were parts of lines. -/
theorem FilesInv.listable (inv : FilesInv L e k) : ∀ file ∈ k.created.map keptFile, Listable file := by
  intro file member
  obtain ⟨⟨name, content⟩, created, rfl⟩ := List.mem_map.mp member
  obtain ⟨named, filled, small⟩ := inv.lines _ created
  exact ⟨fun c inside => named c (List.mem_of_mem_take inside), List.length_take_le .., filled, small⟩

/-- The commands that print their reply and return at once. -/
def Command.prints : Command → Bool
  | testdelay | clear | crash | divzero | reboot => false
  | _ => true

theorem Responds.returned {result : Option Os} {lines : List (List UInt8)}
    (responds : Responds e result lines) :
    ∃ u calls, (result >>= fun u => pure (u, Progress.returned)) = some (u, .returned) ∧
      u.vga = e.vga ++ calls ∧ Prints calls lines := by
  obtain ⟨u, calls, rfl, grown, prints⟩ := responds
  exact ⟨u, calls, rfl, grown, prints⟩

end FriscaOS
