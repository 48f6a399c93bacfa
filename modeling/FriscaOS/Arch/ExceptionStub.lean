import FriscaOS.Lib.I386Interrupts

/-! The exception stubs of `isr_stub.asm`: whether or not the CPU pushed an error code, `isr_handler`
gets a pointer to a `registers_t` that describes the code that failed. -/
namespace FriscaOS

open ByteMemory I386 Function

/-! ### The code -/

/-- The vectors whose stub is an `ISR_ERR`. -/
def isrErr (vector : UInt32) : Bool := vector ∈ [8, 10, 11, 12, 13, 14, 17, 21, 30]

/-- `isr%1_handler`, up to the jump. -/
def isrStub (vector : UInt32) : List SystemInstr :=
  if isrErr vector then [.cli, .push vector] else [.cli, .push 0, .push vector]

/-- `isr_common_stub`, up to the call of `isr_handler`. -/
def isrCommonEntry : List SystemInstr :=
  [.pusha, .movAxSeg .ds, .pushReg .eax, .movAx 0x10, .movSegAx .ds, .movSegAx .es, .movSegAx .fs,
    .movSegAx .gs, .pushEsp]

/-- `registers_t`. -/
structure Registers where
  ds : UInt32
  edi : UInt32
  esi : UInt32
  ebp : UInt32
  esp : UInt32
  ebx : UInt32
  edx : UInt32
  ecx : UInt32
  eax : UInt32
  intNo : UInt32
  errCode : UInt32
  eip : UInt32
  cs : UInt32
  eflags : UInt32
  useresp : UInt32
  ss : UInt32
  deriving DecidableEq, Repr

/-- The fields at a pointer to a `registers_t`. -/
def Registers.read (m : Mem) (regs : UInt32) : Registers :=
  let field (i : Nat) := m.read32 (regs.toNat + 4 * i)
  { ds := field 0, edi := field 1, esi := field 2, ebp := field 3, esp := field 4, ebx := field 5
    edx := field 6, ecx := field 7, eax := field 8, intNo := field 9, errCode := field 10
    eip := field 11, cs := field 12, eflags := field 13, useresp := field 14, ss := field 15 }

/-- An exception, up to the call of `isr_handler`. -/
def exceptionEntry (c : Core) (vector handler : UInt32) (errorCode : Option UInt32) : Core :=
  (c.deliver 0x08 handler errorCode).run (isrStub vector ++ isrCommonEntry)

/-! ### The frame -/

/-- The words of the `registers_t`, the lowest first. -/
def exceptionFrame (c : Core) (vector : UInt32) (errorCode : Option UInt32) : List UInt32 :=
  withLow (c.cpu.regs .eax) (c.segs .ds) :: (c.interrupted.registerWords (c.cpu.esp - 20) ++
    [vector, errorCode.getD 0] ++ c.interrupted.gateWords)

/-- What lies on the stack when `isr_handler` is called: its argument, and what it points to. -/
def exceptionWords (c : Core) (vector : UInt32) (errorCode : Option UInt32) : List UInt32 :=
  (c.cpu.esp - 56) :: exceptionFrame c vector errorCode

/-- One selector in all data segment registers. -/
def flatSegs (cs data : UInt16) : Seg → UInt16
  | .cs => cs
  | _ => data

variable {c : Core} {vector handler : UInt32} {errorCode : Option UInt32}

theorem update_flat (segs : Seg → UInt16) (w : UInt16) :
    update (update (update (update segs .ds w) .es w) .fs w) .gs w = flatSegs (segs .cs) w := by
  funext s
  cases s <;> simp [flatSegs]

/-- The stub makes up for the error code that the CPU does not push. -/
theorem exceptionEntry_eq (agrees : errorCode.isSome = isrErr vector) :
    exceptionEntry c vector handler errorCode =
      { cpu := { c.cpu with
          regs := update c.cpu.regs .eax (withLow (withLow (c.cpu.regs .eax) (c.segs .ds)) 0x10)
          eip := handler
          eflags := gateFlags c.cpu.eflags &&& ~~~flagIF
          mem := (storeDown c.cpu.mem c.cpu.esp (exceptionWords c vector errorCode).reverse).1
          esp := (storeDown c.cpu.mem c.cpu.esp (exceptionWords c vector errorCode).reverse).2 }
        segs := flatSegs 0x08 0x10 } := by
  have esp : c.cpu.esp - 20 = c.cpu.esp - 4 - 4 - 4 - 4 - 4 := by grind
  have args : c.cpu.esp - 56 =
      c.cpu.esp - 4 - 4 - 4 - 4 - 4 - 4 - 4 - 4 - 4 - 4 - 4 - 4 - 4 - 4 := by grind
  rw [exceptionEntry, isrStub, exceptionWords, exceptionFrame, esp, args]
  cases errorCode
  all_goals
    rw [← agrees]
    simp [isrCommonEntry, Core.run, Core.exec, Core.deliver, Cpu.pusha, Cpu.push, Cpu.withEax,
      storeDown, Interrupted.registerWords, Interrupted.gateWords, Core.interrupted,
      toUInt16_withLow, update_flat]

/-- The frame is on the stack, and nothing else has changed. -/
theorem exceptionEntry_frame (agrees : errorCode.isSome = isrErr vector)
    (room : 60 ≤ c.cpu.esp.toNat) :
    let c' := exceptionEntry c vector handler errorCode
    c'.cpu.esp.toNat = c.cpu.esp.toNat - 60 ∧
      Words c'.cpu.mem (c.cpu.esp.toNat - 60) (exceptionWords c vector errorCode) ∧
      Within {x | c.cpu.esp.toNat - 60 ≤ x ∧ x < c.cpu.esp.toNat} c.cpu.mem c'.cpu.mem := by
  have length : 4 * (exceptionWords c vector errorCode).reverse.length = 60 := rfl
  have fits : 4 * (exceptionWords c vector errorCode).reverse.length ≤ c.cpu.esp.toNat :=
    length ▸ room
  have address := storeDown_address (m := c.cpu.mem) fits
  have words := storeDown_words (m := c.cpu.mem) fits
  have change := storeDown_within (m := c.cpu.mem) fits
  rw [length] at address words change
  rw [List.reverse_reverse] at words
  simp only [exceptionEntry_eq agrees]
  exact ⟨address, words, change⟩

/-! ### What `isr_handler` gets -/

/-- The registers of the code that failed, the vector, and the error code, 0 where there is none. No
stack was switched, so that `useresp` and `ss` are whatever the code had on its own. -/
def failedRegisters (c : Core) (vector : UInt32) (errorCode : Option UInt32) : Registers :=
  { ds := withLow (c.cpu.regs .eax) (c.segs .ds)
    edi := c.cpu.regs .edi, esi := c.cpu.regs .esi, ebp := c.cpu.regs .ebp
    esp := c.cpu.esp - 20, ebx := c.cpu.regs .ebx, edx := c.cpu.regs .edx
    ecx := c.cpu.regs .ecx, eax := c.cpu.regs .eax
    intNo := vector, errCode := errorCode.getD 0
    eip := c.cpu.eip, cs := (c.segs .cs).toUInt32, eflags := c.cpu.eflags
    useresp := c.cpu.mem.read32 c.cpu.esp.toNat
    ss := c.cpu.mem.read32 (c.cpu.esp.toNat + 4) }

theorem read_exceptionEntry (agrees : errorCode.isSome = isrErr vector)
    (room : 60 ≤ c.cpu.esp.toNat) :
    let c' := exceptionEntry c vector handler errorCode
    Registers.read c'.cpu.mem c'.cpu.top = failedRegisters c vector errorCode := by
  intro c'
  obtain ⟨esp, words, change⟩ : c'.cpu.esp.toNat = _ ∧ Words c'.cpu.mem _ _ ∧ Within _ _ c'.cpu.mem :=
    exceptionEntry_frame agrees room
  have top : c'.cpu.top = c.cpu.esp - 56 := by
    rw [Cpu.top, esp]
    exact words.1
  have start : c'.cpu.top.toNat = c.cpu.esp.toNat - 60 + 4 := by
    rw [top, toNat_sub_of_le] <;> simp
    all_goals omega
  have field {i : Nat} {w : UInt32} (at_ : (exceptionWords c vector errorCode)[i + 1]? = some w) :
      c'.cpu.mem.read32 (c'.cpu.top.toNat + 4 * i) = w := by
    rw [start, ← words.get at_]
    congr 1
    omega
  have above {i : Nat} (outside : 14 ≤ i) :
      c'.cpu.mem.read32 (c'.cpu.top.toNat + 4 * i) =
        c.cpu.mem.read32 (c.cpu.esp.toNat + 4 * (i - 14)) := by
    have place : c'.cpu.top.toNat + 4 * i = c.cpu.esp.toNat + 4 * (i - 14) := by omega
    rw [place]
    apply change.read32
    rintro x lower - ⟨-, upper⟩
    omega
  rw [Registers.read, failedRegisters, Registers.mk.injEq]
  exact ⟨field rfl, field rfl, field rfl, field rfl, field rfl, field rfl, field rfl, field rfl,
    field rfl, field rfl, field rfl, field rfl, field rfl, field rfl, above (by decide),
    above (by decide)⟩

/-- A page fault at 0x5000. -/
def faultingCore : Core :=
  ⟨⟨fun _ => 7, 0x8800, 0x5000, 0x246, fun _ => 0⟩, flatSegs 0x08 0x10⟩

end FriscaOS
