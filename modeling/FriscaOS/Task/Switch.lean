import FriscaOS.Lib.I386
import FriscaOS.Lib.Transition
import FriscaOS.Task.Task

/-! The context switch of `task_asm.asm`, and `task_schedule` on top of it: what a task finds in
its registers when `switch_to_task` returns is what it left there when it called it. -/
namespace FriscaOS

open ByteMemory I386 Transition Function

/-! ### The code -/

/-- Step 1 of `switch_to_task`: save registers and EFLAGS. -/
def saveContext : List Instr :=
  [.push .eax, .push .ebx, .push .ecx, .push .edx, .push .esi, .push .edi, .push .ebp, .pushfd]

/-- Steps 2 and 3: `*old_esp = esp`, then `esp = new_esp`. The arguments are 36 and 40 bytes above
ESP after the eight pushes. -/
def switchStacks : List Instr := [.load .eax 36, .storeEsp .eax, .loadEsp 40]

/-- Steps 4 and 5: restore EFLAGS and registers, and return. -/
def restoreContext : List Instr :=
  [.popfd, .pop .ebp, .pop .edi, .pop .esi, .pop .edx, .pop .ecx, .pop .ebx, .pop .eax, .ret]

def switchToTask : List Instr := saveContext ++ switchStacks ++ restoreContext

/-! ### Suspended tasks -/

/-- How a task came to be suspended. -/
inductive Suspension
  -- it called `switch_to_task` with these registers and EFLAGS; `entryEsp` is ESP on entry
  | called (regs : Reg → UInt32) (eflags returnAddress entryEsp : UInt32)
  -- `create_task` made it, and it has not run yet
  | created (entryPoint stack : UInt32)

namespace Suspension

def regs : Suspension → Reg → UInt32
  | called regs _ _ _ => regs
  | created _ _ => fun _ => 0

def eflags : Suspension → UInt32
  | called _ eflags _ _ => eflags
  | created _ _ => 0x202

def eip : Suspension → UInt32
  | called _ _ returnAddress _ => returnAddress
  | created entryPoint _ => entryPoint

/-- ESP once the task runs again. -/
def esp : Suspension → UInt32
  | called _ _ _ entryEsp => entryEsp + 4
  | created _ stack => stack + 4096

/-- The nine words that wait on the stack of the task, the lowest first. -/
def frame (c : Suspension) : List UInt32 :=
  [c.eflags, c.regs .ebp, c.regs .edi, c.regs .esi, c.regs .edx, c.regs .ecx, c.regs .ebx,
    c.regs .eax, c.eip]

/-- The stack pointer kept in the `esp` field. -/
def savedEsp (c : Suspension) : UInt32 := c.esp - 36

end Suspension

variable {cpu : Cpu} {c : Suspension}

/-- Restoring a frame leaves the CPU as the suspension describes it. -/
theorem run_restoreContext (words : Words cpu.mem cpu.esp.toNat c.frame)
    (room : cpu.esp.toNat + 36 < 2 ^ 32) :
    cpu.run restoreContext =
      { cpu with regs := c.regs, eflags := c.eflags, eip := c.eip, esp := cpu.esp + 36 } := by
  let pops : List Reg := [.ebp, .edi, .esi, .edx, .ecx, .ebx, .eax]
  obtain ⟨flags, words⟩ := words
  have next : (cpu.esp + 4).toNat = cpu.esp.toNat + 4 := toNat_add_of_lt (by simp; omega)
  have split : Words cpu.mem (cpu.esp.toNat + 4) (pops.map c.regs ++ [c.eip]) := words
  obtain ⟨registers, address, -⟩ := words_append.mp split
  have flagged : cpu.exec .popfd = { cpu with eflags := c.eflags, esp := cpu.esp + 4 } := by
    rw [← flags]
    rfl
  have flagsRead : Words (cpu.exec .popfd).mem (cpu.exec .popfd).esp.toNat (pops.map c.regs) := by
    rw [flagged]
    simpa only [next] using registers
  have equal : pops.length = (pops.map c.regs).length := by rw [List.length_map]
  obtain ⟨esp, popped, above⟩ := Cpu.run_pops flagsRead equal
    (by rw [flagged]; simp [next, pops]; omega)
  have parts : cpu.run restoreContext = ((cpu.exec .popfd).run (pops.map .pop)).exec .ret := rfl
  rw [parts, popped, flagged]
  simp only [flagged, next, List.length_map] at above
  have final : esp + 4 = cpu.esp + 36 := by
    apply UInt32.toNat_inj.mp
    have four : (esp + 4).toNat = esp.toNat + 4 := toNat_add_of_lt (by simp [above, pops]; omega)
    have all : (cpu.esp + 36).toNat = cpu.esp.toNat + 36 := toNat_add_of_lt room
    rw [four, all, above]
    rfl
  have returned : cpu.mem.read32 esp.toNat = c.eip := by
    rw [above, ← address, List.length_map]
  have restored : (pops.zip (pops.map c.regs)).foldl (fun f p => update f p.1 p.2) cpu.regs =
      c.regs := by
    funext r
    cases r <;> simp [pops, update]
  simp only [Cpu.exec, Cpu.top, returned, final, restored]

/-- The words below ESP once `switch_to_task` has saved its caller, the first one highest: the
two arguments, the return address, the registers and EFLAGS. -/
def savedWords (cpu : Cpu) (oldEsp newEsp returnAddress : UInt32) : List UInt32 :=
  [newEsp, oldEsp, returnAddress, cpu.regs .eax, cpu.regs .ebx, cpu.regs .ecx, cpu.regs .edx,
    cpu.regs .esi, cpu.regs .edi, cpu.regs .ebp, cpu.eflags]

theorem run_saveContext (cpu : Cpu) (oldEsp newEsp returnAddress : UInt32) :
    (cpu.call [newEsp, oldEsp] returnAddress).run saveContext =
      { cpu with
        mem := (storeDown cpu.mem cpu.esp (savedWords cpu oldEsp newEsp returnAddress)).1
        esp := (storeDown cpu.mem cpu.esp (savedWords cpu oldEsp newEsp returnAddress)).2 } := by
  have pushes : (cpu.call [newEsp, oldEsp] returnAddress).run saveContext =
      (savedWords cpu oldEsp newEsp returnAddress).foldl Cpu.push cpu := by
    simp only [saveContext, savedWords, Cpu.run, Cpu.call, List.foldl_cons, List.foldl_nil,
      Cpu.exec, Cpu.push_regs, Cpu.push_eflags]
  rw [pushes, Cpu.foldl_push]

theorem run_switchStacks (cpu : Cpu) {oldEsp newEsp : UInt32}
    (firstArg : cpu.mem.read32 (cpu.esp + 36).toNat = oldEsp)
    (secondArg : (cpu.mem.write32 oldEsp.toNat cpu.esp).read32 (cpu.esp + 40).toNat = newEsp) :
    cpu.run switchStacks =
      { cpu with
        regs := update cpu.regs .eax oldEsp, mem := cpu.mem.write32 oldEsp.toNat cpu.esp,
        esp := newEsp } := by
  simp only [switchStacks, Cpu.run, List.foldl_cons, List.foldl_nil, Cpu.exec, firstArg,
    update_self, secondArg]

/-- The saved stack pointer of a caller: eleven words below ESP before the call. -/
theorem savedEsp_called (room : 44 ≤ cpu.esp.toNat) (returnAddress : UInt32) :
    (Suspension.called cpu.regs cpu.eflags returnAddress (cpu.esp - 12)).savedEsp.toNat =
      cpu.esp.toNat - 44 := by
  have bound := cpu.esp.toNat_lt
  have entry : (cpu.esp - 12).toNat = cpu.esp.toNat - 12 := toNat_sub_of_le (by simp; omega)
  have after : (cpu.esp - 12 + 4).toNat = cpu.esp.toNat - 8 := by
    rw [toNat_add_of_lt, entry] <;> simp [entry] <;> omega
  rw [Suspension.savedEsp, Suspension.esp, toNat_sub_of_le, after] <;> simp [after]
  all_goals omega

/-- What `switch_to_task` does for its caller: it saves a frame, and whatever frame it finds at
`new_esp` in the memory it leaves is restored. -/
theorem run_switchToTask (cpu : Cpu) (oldEsp newEsp returnAddress : UInt32)
    (room : 44 ≤ cpu.esp.toNat)
    (apart : oldEsp.toNat + 4 ≤ cpu.esp.toNat - 44 ∨ cpu.esp.toNat ≤ oldEsp.toNat)
    (saved : c = .called cpu.regs cpu.eflags returnAddress (cpu.esp - 12)) :
    ∃ m, Within {x | cpu.esp.toNat - 44 ≤ x ∧ x < cpu.esp.toNat ∨
          oldEsp.toNat ≤ x ∧ x < oldEsp.toNat + 4} cpu.mem m ∧
      m.read32 oldEsp.toNat = c.savedEsp ∧ c.savedEsp.toNat = cpu.esp.toNat - 44 ∧
      Words m (cpu.esp.toNat - 44) c.frame ∧
      ∀ d : Suspension, Words m newEsp.toNat d.frame → newEsp.toNat + 36 < 2 ^ 32 →
        (cpu.call [newEsp, oldEsp] returnAddress).run switchToTask =
          { regs := d.regs, esp := newEsp + 36, eip := d.eip, eflags := d.eflags, mem := m } := by
  subst c
  obtain ⟨ws, list⟩ : ∃ ws, ws = savedWords cpu oldEsp newEsp returnAddress := ⟨_, rfl⟩
  have length : 4 * ws.length = 44 := by rw [list]; rfl
  have fits : 4 * ws.length ≤ cpu.esp.toNat := length ▸ room
  have pushed := run_saveContext cpu oldEsp newEsp returnAddress
  have below := storeDown_address (m := cpu.mem) fits
  have change := storeDown_within (m := cpu.mem) fits
  have words := storeDown_words (m := cpu.mem) fits
  rw [← list] at pushed
  rw [length] at below change words
  obtain ⟨⟨m, esp⟩, stored⟩ : ∃ r, storeDown cpu.mem cpu.esp ws = r := ⟨_, rfl⟩
  simp only [stored] at pushed below change words
  have savedEsp := savedEsp_called room returnAddress
  have same := UInt32.toNat_inj.mp (below.trans savedEsp.symm)
  have kept : Words (m.write32 oldEsp.toNat esp) (cpu.esp.toNat - 44) ws.reverse :=
    words.congr fun x lower upper => m.write32_other esp (by
      rw [List.length_reverse, length] at upper
      omega)
  rw [list] at words kept
  have bound := cpu.esp.toNat_lt
  -- the return address and eight more words lie between ESP and the arguments
  have address {d : UInt32} (i : Nat) (offset : d.toNat = 4 * i) (inside : i ≤ 10) :
      (esp + d).toNat = cpu.esp.toNat - 44 + 4 * i := by
    rw [toNat_add_of_lt, below, offset]
    omega
  have firstArg : m.read32 (esp + 36).toNat = oldEsp := by
    have ninth : (savedWords cpu oldEsp newEsp returnAddress).reverse[9]? = some oldEsp := rfl
    rw [address 9 rfl (by decide)]
    exact words.get ninth
  have secondArg : (m.write32 oldEsp.toNat esp).read32 (esp + 40).toNat = newEsp := by
    have tenth : (savedWords cpu oldEsp newEsp returnAddress).reverse[10]? = some newEsp := rfl
    rw [address 10 rfl (by decide)]
    exact kept.get tenth
  refine ⟨m.write32 oldEsp.toNat esp, ?_, ?_, ?_, ?_, fun d frame fits => ?_⟩
  · apply (change.mono fun x inside => Or.inl inside).trans
    apply Within.write32
    exact fun x lower upper => Or.inr ⟨lower, upper⟩
  · rw [Mem.read32_write32, same]
  · exact savedEsp
  · -- the frame is all that was pushed but the two arguments
    have parts : (savedWords cpu oldEsp newEsp returnAddress).reverse =
      Suspension.frame (.called cpu.regs cpu.eflags returnAddress (cpu.esp - 12)) ++
        [oldEsp, newEsp] := rfl
    rw [parts] at kept
    exact (words_append.mp kept).1
  · have switched := run_switchStacks { cpu with mem := m, esp := esp } firstArg secondArg
    rw [switchToTask, Cpu.run_append, Cpu.run_append, pushed, switched]
    exact run_restoreContext frame fits

end FriscaOS
