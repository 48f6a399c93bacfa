import FriscaOS.Lib.I386

/-! Interrupts of the i386 at one privilege level: what the CPU pushes when it accepts one, the
instructions with which a handler saves and restores the rest, and the return. -/
namespace I386

open ByteMemory Function

inductive Seg
  | cs
  | ds
  | es
  | fs
  | gs
  deriving DecidableEq, Repr

/-- The CPU with its segment registers. -/
structure Core where
  cpu : Cpu
  segs : Seg → UInt16

inductive SystemInstr
  | cli
  | push (w : UInt32)
  | pushEsp
  | pushReg (r : Reg)
  | popReg (r : Reg)
  | pusha
  | popa
  -- `mov ax, w`
  | movAx (w : UInt16)
  -- `mov ax, s`
  | movAxSeg (s : Seg)
  -- `mov s, ax`
  | movSegAx (s : Seg)
  | addEsp (w : UInt32)
  | iret
  deriving DecidableEq, Repr

/-- IF, which interrupt gates clear. -/
def flagIF : UInt32 := 0x200

/-- What an interrupt gate leaves of EFLAGS: it clears TF, IF, NT, RF and VM. -/
def gateFlags (eflags : UInt32) : UInt32 := eflags &&& ~~~0x34300

/-- A word whose low half is replaced. -/
def withLow (w : UInt32) (low : UInt16) : UInt32 := (w &&& 0xFFFF0000) ||| low.toUInt32

theorem toUInt16_withLow (w : UInt32) (low : UInt16) : (withLow w low).toUInt16 = low := by
  apply UInt16.toBitVec_inj.mp
  ext i inside
  simp [withLow]

namespace Cpu

def withEax (c : Cpu) (w : UInt32) : Cpu := { c with regs := update c.regs .eax w }

/-- The word `disp` bytes above ESP. -/
def stackWord (c : Cpu) (disp : UInt32) : UInt32 := c.mem.read32 (c.esp + disp).toNat

/-- `pusha` pushes ESP as it was before. -/
def pusha (c : Cpu) : Cpu :=
  [c.regs .eax, c.regs .ecx, c.regs .edx, c.regs .ebx, c.esp, c.regs .ebp, c.regs .esi,
    c.regs .edi].foldl push c

/-- Where `popa` finds a register above ESP. It skips the word of ESP, at 12. -/
def popaOffset : Reg → UInt32
  | .edi => 0
  | .esi => 4
  | .ebp => 8
  | .ebx => 16
  | .edx => 20
  | .ecx => 24
  | .eax => 28

def popa (c : Cpu) : Cpu :=
  { c with regs := fun r => c.stackWord (popaOffset r), esp := c.esp + 32 }

end Cpu

namespace Core

def exec (c : Core) : SystemInstr → Core
  | .cli => { c with cpu := { c.cpu with eflags := c.cpu.eflags &&& ~~~flagIF } }
  | .push w => { c with cpu := c.cpu.push w }
  | .pushEsp => { c with cpu := c.cpu.push c.cpu.esp }
  | .pushReg r => { c with cpu := c.cpu.push (c.cpu.regs r) }
  | .popReg r => { c with cpu := c.cpu.exec (.pop r) }
  | .pusha => { c with cpu := c.cpu.pusha }
  | .popa => { c with cpu := c.cpu.popa }
  | .movAx w => { c with cpu := c.cpu.withEax (withLow (c.cpu.regs .eax) w) }
  | .movAxSeg s => { c with cpu := c.cpu.withEax (withLow (c.cpu.regs .eax) (c.segs s)) }
  | .movSegAx s => { c with segs := update c.segs s (c.cpu.regs .eax).toUInt16 }
  | .addEsp w => { c with cpu := { c.cpu with esp := c.cpu.esp + w } }
  | .iret =>
    { cpu := { c.cpu with
        eip := c.cpu.stackWord 0, eflags := c.cpu.stackWord 8, esp := c.cpu.esp + 12 }
      segs := update c.segs .cs (c.cpu.stackWord 4).toUInt16 }

def run (c : Core) (program : List SystemInstr) : Core := program.foldl exec c

/-- The CPU goes through an interrupt gate. Some exceptions push an error code. -/
def deliver (c : Core) (selector : UInt16) (handler : UInt32) (errorCode : Option UInt32) : Core :=
  let words := [c.cpu.eflags, (c.segs .cs).toUInt32, c.cpu.eip] ++ errorCode.toList
  { cpu := { words.foldl Cpu.push c.cpu with
      eip := handler, eflags := gateFlags c.cpu.eflags }
    segs := update c.segs .cs selector }

end Core

/-! ### Interrupted code -/

/-- What interrupted code finds again. -/
structure Interrupted where
  regs : Reg → UInt32
  esp : UInt32
  eip : UInt32
  eflags : UInt32
  cs : UInt16

namespace Interrupted

/-- What the CPU pushes, the last word first. -/
def gateWords (i : Interrupted) : List UInt32 := [i.eip, i.cs.toUInt32, i.eflags]

/-- What `pusha` pushes when ESP is `esp`, the last word first. -/
def registerWords (i : Interrupted) (esp : UInt32) : List UInt32 :=
  [i.regs .edi, i.regs .esi, i.regs .ebp, esp, i.regs .ebx, i.regs .edx, i.regs .ecx, i.regs .eax]

/-- The eleven words on the stack behind `pusha` in a handler that pushes nothing before. -/
def frame (i : Interrupted) : List UInt32 := i.registerWords (i.esp - 12) ++ i.gateWords

/-- The address of the frame. -/
def base (i : Interrupted) : Nat := i.esp.toNat - 44

end Interrupted

/-- The code that runs. -/
def Core.interrupted (c : Core) : Interrupted :=
  ⟨c.cpu.regs, c.cpu.esp, c.cpu.eip, c.cpu.eflags, c.segs .cs⟩

variable {c : Core} {i : Interrupted} {esp : UInt32}

/-- The words of the registers are read back by `popa`, whatever is in the word of ESP. -/
theorem popa_eq {cpu : Cpu} (words : Words cpu.mem cpu.esp.toNat (i.registerWords esp))
    (room : cpu.esp.toNat + 32 < 2 ^ 32) :
    cpu.popa = { cpu with regs := i.regs, esp := cpu.esp + 32 } := by
  have found {disp w : UInt32} (k : Nat) (offset : disp.toNat = 4 * k) (inside : k < 8)
      (at_ : (i.registerWords esp)[k]? = some w) : cpu.stackWord disp = w := by
    rw [Cpu.stackWord, toNat_add_of_lt (by omega), offset]
    exact words.get at_
  have regs : (fun r => cpu.stackWord (Cpu.popaOffset r)) = i.regs := by
    funext r
    cases r
    · exact found 7 rfl (by decide) rfl
    · exact found 4 rfl (by decide) rfl
    · exact found 6 rfl (by decide) rfl
    · exact found 5 rfl (by decide) rfl
    · exact found 1 rfl (by decide) rfl
    · exact found 0 rfl (by decide) rfl
    · exact found 2 rfl (by decide) rfl
  rw [Cpu.popa, regs]

/-- The words of the gate are read back by `iret`. -/
theorem exec_iret {cpu : Cpu} (segs : Seg → UInt16) (words : Words cpu.mem cpu.esp.toNat i.gateWords)
    (room : cpu.esp.toNat + 12 < 2 ^ 32) :
    Core.exec ⟨cpu, segs⟩ .iret =
      ⟨{ cpu with eip := i.eip, eflags := i.eflags, esp := cpu.esp + 12 },
        update segs .cs i.cs⟩ := by
  have found {disp w : UInt32} (k : Nat) (offset : disp.toNat = 4 * k) (inside : k < 3)
      (at_ : i.gateWords[k]? = some w) : cpu.stackWord disp = w := by
    rw [Cpu.stackWord, toNat_add_of_lt (by omega), offset]
    exact words.get at_
  have eip : cpu.stackWord 0 = i.eip := found 0 rfl (by decide) rfl
  have cs : cpu.stackWord 4 = i.cs.toUInt32 := found 1 rfl (by decide) rfl
  have eflags : cpu.stackWord 8 = i.eflags := found 2 rfl (by decide) rfl
  rw [Core.exec, eip, cs, eflags, UInt16.toUInt16_toUInt32]

/-- The words that the gate and `pusha` push. -/
theorem exec_pusha_deliver (c : Core) (selector : UInt16) (handler : UInt32) :
    (c.deliver selector handler none).exec .pusha =
      ⟨{ c.cpu with
          eip := handler, eflags := gateFlags c.cpu.eflags
          mem := (storeDown c.cpu.mem c.cpu.esp c.interrupted.frame.reverse).1
          esp := (storeDown c.cpu.mem c.cpu.esp c.interrupted.frame.reverse).2 },
        update c.segs .cs selector⟩ := by
  have esp : c.cpu.esp - 12 = c.cpu.esp - 4 - 4 - 4 := by grind
  have words : c.interrupted.frame.reverse = [c.cpu.eflags, (c.segs .cs).toUInt32, c.cpu.eip] ++
      [c.cpu.regs .eax, c.cpu.regs .ecx, c.cpu.regs .edx, c.cpu.regs .ebx,
        c.cpu.esp - 4 - 4 - 4, c.cpu.regs .ebp, c.cpu.regs .esi, c.cpu.regs .edi] := by
    rw [← esp]
    rfl
  rw [words]
  simp only [Core.exec, Core.deliver, Cpu.pusha, Cpu.push, storeDown, Option.toList,
    List.append_nil, List.cons_append, List.nil_append, List.foldl_cons, List.foldl_nil]

/-! ### Nested interrupts -/

/-- Interrupted code, with the memory it left. -/
structure Pending extends Interrupted where
  mem : Mem

namespace Pending

/-- The frame is on the stack that ends at `hi`, and what was on this stack above it is still
there. -/
structure Held (p : Pending) (m : Mem) (hi : Nat) : Prop where
  frame : Words m p.base p.frame
  stack : ∀ x, p.esp.toNat ≤ x → x < hi → m x = p.mem x

/-- The lowest address in use by interrupted code. -/
def limit (hi : Nat) : List Pending → Nat
  | [] => hi
  | p :: _ => p.base

/-- The frames lie on the stack `[lo, hi)`, the innermost lowest. -/
def Nested (lo hi : Nat) : List Pending → Prop
  | [] => True
  | p :: ps => lo + 44 ≤ p.esp.toNat ∧ p.esp.toNat ≤ limit hi ps ∧ Nested lo hi ps

variable {p : Pending} {ps : List Pending} {m m' : Mem} {lo hi : Nat}

theorem limit_le (nested : Nested lo hi ps) : limit hi ps ≤ hi := by
  induction ps with
  | nil => exact Nat.le_refl hi
  | cons p ps ih =>
    have above := nested.2.1
    have rest := ih nested.2.2
    rw [limit, Interrupted.base]
    omega

/-- Nothing below the stack is in use. -/
theorem Nested.lower {x : Nat} (nested : Nested lo hi ps) (above : limit hi ps ≤ x)
    (below : x < hi) : lo ≤ x := by
  cases ps with
  | nil => exact absurd below (Nat.not_lt.mpr above)
  | cons p ps =>
    have room := nested.1
    rw [limit, Interrupted.base] at above
    omega

/-- Every frame lies at or above the limit. -/
theorem Nested.mem (nested : Nested lo hi ps) (member : p ∈ ps) :
    limit hi ps ≤ p.base ∧ p.base + 44 = p.esp.toNat ∧ p.esp.toNat ≤ hi := by
  induction ps with
  | nil => cases member
  | cons q ps ih =>
    obtain ⟨room, above, rest⟩ := nested
    rcases List.mem_cons.mp member with rfl | later
    · have top := limit_le rest
      rw [limit, Interrupted.base]
      omega
    · obtain ⟨start, length, top⟩ := ih rest later
      rw [limit, Interrupted.base]
      omega

theorem Held.congr (held : p.Held m hi) (length : p.base + 44 = p.esp.toNat)
    (top : p.esp.toNat ≤ hi) (same : ∀ x, p.base ≤ x → x < hi → m' x = m x) : p.Held m' hi where
  frame := held.frame.congr fun x lower upper => by
    have words : 4 * p.frame.length = 44 := rfl
    exact same x lower (by omega)
  stack x lower upper := (same x (by omega) upper).trans (held.stack x lower upper)

/-- What leaves the used part of the stack alone leaves all frames on it. -/
theorem Nested.held_congr (nested : Nested lo hi ps) (held : ∀ p ∈ ps, p.Held m hi)
    (same : ∀ x, limit hi ps ≤ x → x < hi → m' x = m x) : ∀ p ∈ ps, p.Held m' hi := by
  intro p member
  obtain ⟨start, length, top⟩ := nested.mem member
  exact (held p member).congr length top fun x lower upper => same x (by omega) upper

end Pending

/-- What accepting an interrupt leaves on the stack. -/
theorem deliver_held (c : Core) (selector : UInt16) (handler : UInt32) (hi : Nat)
    (room : 44 ≤ c.cpu.esp.toNat) :
    let c' := (c.deliver selector handler none).exec .pusha
    (⟨c.interrupted, c.cpu.mem⟩ : Pending).Held c'.cpu.mem hi ∧
      Within {x | c.cpu.esp.toNat - 44 ≤ x ∧ x < c.cpu.esp.toNat} c.cpu.mem c'.cpu.mem := by
  have length : 4 * c.interrupted.frame.reverse.length = 44 := rfl
  have fits : 4 * c.interrupted.frame.reverse.length ≤ c.cpu.esp.toNat := length ▸ room
  have words := storeDown_words (m := c.cpu.mem) fits
  have change := storeDown_within (m := c.cpu.mem) fits
  rw [length] at words change
  rw [List.reverse_reverse] at words
  simp only [exec_pusha_deliver]
  refine ⟨⟨words, fun x lower upper => change x ?_⟩, change⟩
  rintro ⟨-, below⟩
  exact absurd below (Nat.not_lt.mpr lower)

/-- `popa` and `iret` at the frame of interrupted code bring it back. -/
theorem run_return {hi : Nat} {p : Pending} (held : p.Held c.cpu.mem hi)
    (here : c.cpu.esp.toNat = p.base) (room : 44 ≤ p.esp.toNat) :
    c.run [.popa, .iret] =
      ⟨{ regs := p.regs, esp := p.esp, eip := p.eip, eflags := p.eflags, mem := c.cpu.mem },
        update c.segs .cs p.cs⟩ := by
  have bound := p.esp.toNat_lt
  have base : p.base = p.esp.toNat - 44 := rfl
  obtain ⟨registers, gate⟩ := words_append.mp held.frame
  have popped : c.cpu.popa = { c.cpu with regs := p.regs, esp := c.cpu.esp + 32 } :=
    popa_eq (here ▸ registers) (by omega)
  have next : (c.cpu.esp + 32).toNat = p.base + 32 := by
    rw [toNat_add_of_lt, here] <;> simp [here]
    omega
  have gateThere : Words c.cpu.mem (c.cpu.esp + 32).toNat p.gateWords := by
    rw [next]
    exact gate
  have returned : Core.exec ⟨{ c.cpu with regs := p.regs, esp := c.cpu.esp + 32 }, c.segs⟩ .iret = _ :=
    exec_iret c.segs gateThere (by simp only [next]; omega)
  have esp : c.cpu.esp + 32 + 12 = p.esp := by
    apply UInt32.toNat_inj.mp
    rw [toNat_add_of_lt, next] <;> simp [next]
    all_goals omega
  have steps : c.run [.popa, .iret] = Core.exec ⟨c.cpu.popa, c.segs⟩ .iret := rfl
  rw [steps, popped, returned, esp]

end I386
