import FriscaOS.Lib.ByteMemory
import Mathlib.Logic.Function.Basic

/-! The part of the i386 that saves and restores a context: general registers, ESP, EFLAGS and
the instructions that move words between them and the stack. -/
namespace I386

open ByteMemory Function

/-- The general registers other than ESP. -/
inductive Reg
  | eax
  | ebx
  | ecx
  | edx
  | esi
  | edi
  | ebp
  deriving DecidableEq, Repr

structure Cpu where
  regs : Reg → UInt32
  esp : UInt32
  eip : UInt32
  eflags : UInt32
  mem : Mem

inductive Instr
  | push (r : Reg)
  | pop (r : Reg)
  | pushfd
  | popfd
  -- `mov r, [esp + disp]`
  | load (r : Reg) (disp : UInt32)
  -- `mov [r], esp`
  | storeEsp (r : Reg)
  -- `mov esp, [esp + disp]`
  | loadEsp (disp : UInt32)
  | ret
  deriving DecidableEq, Repr

namespace Cpu

def push (c : Cpu) (w : UInt32) : Cpu :=
  { c with esp := c.esp - 4, mem := c.mem.write32 (c.esp - 4).toNat w }

/-- The word at the top of the stack. -/
def top (c : Cpu) : UInt32 := c.mem.read32 c.esp.toNat

def exec (c : Cpu) : Instr → Cpu
  | .push r => c.push (c.regs r)
  | .pop r => { c with regs := update c.regs r c.top, esp := c.esp + 4 }
  | .pushfd => c.push c.eflags
  | .popfd => { c with eflags := c.top, esp := c.esp + 4 }
  | .load r disp => { c with regs := update c.regs r (c.mem.read32 (c.esp + disp).toNat) }
  | .storeEsp r => { c with mem := c.mem.write32 (c.regs r).toNat c.esp }
  | .loadEsp disp => { c with esp := c.mem.read32 (c.esp + disp).toNat }
  | .ret => { c with eip := c.top, esp := c.esp + 4 }

def run (c : Cpu) (program : List Instr) : Cpu := program.foldl exec c

/-- The words a caller leaves on the stack: its arguments from right to left and the return
address. -/
def call (c : Cpu) (args : List UInt32) (returnAddress : UInt32) : Cpu :=
  (args.foldl push c).push returnAddress

variable {c : Cpu} {rs : List Reg} {ws : List UInt32}

@[simp] theorem push_regs (w : UInt32) : (c.push w).regs = c.regs := rfl

@[simp] theorem push_eflags (w : UInt32) : (c.push w).eflags = c.eflags := rfl

theorem run_append (p q : List Instr) : c.run (p ++ q) = (c.run p).run q := List.foldl_append

theorem foldl_push : ws.foldl push c =
    { c with mem := (storeDown c.mem c.esp ws).1, esp := (storeDown c.mem c.esp ws).2 } := by
  induction ws generalizing c with
  | nil => rfl
  | cons w ws ih => exact ih

/-- Popping registers loads the words above the stack pointer, the first one lowest. -/
theorem run_pops (words : Words c.mem c.esp.toNat ws) (length : rs.length = ws.length)
    (room : c.esp.toNat + 4 * ws.length < 2 ^ 32) :
    ∃ esp, c.run (rs.map .pop) =
        { c with regs := (rs.zip ws).foldl (fun f p => update f p.1 p.2) c.regs, esp := esp } ∧
      esp.toNat = c.esp.toNat + 4 * ws.length := by
  induction rs generalizing c ws with
  | nil =>
    cases ws with
    | nil => exact ⟨c.esp, rfl, rfl⟩
    | cons w ws => cases length
  | cons r rs ih =>
    cases ws with
    | nil => cases length
    | cons w ws =>
      rw [List.length_cons] at room
      have next : (c.esp + 4).toNat = c.esp.toNat + 4 := toNat_add_of_lt (by simp; omega)
      obtain ⟨top, words⟩ := words
      have popped : Words (c.exec (.pop r)).mem (c.exec (.pop r)).esp.toNat ws := by
        simpa only [exec, next] using words
      obtain ⟨esp, result, address⟩ := ih popped (by simpa using length)
        (by simp only [exec, next]; omega)
      refine ⟨esp, ?_, ?_⟩
      · rw [List.zip_cons_cons, List.foldl_cons, ← top]
        exact result
      · simp only [exec, next] at address
        rw [address, List.length_cons]
        omega

end Cpu

end I386
