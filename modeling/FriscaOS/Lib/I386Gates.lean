import FriscaOS.Lib.I386Interrupts

/-! The interrupt descriptor table of the i386 in memory: 16-bit stores, gates, and how the CPU
finds the handler of a vector. -/
namespace ByteMemory

namespace Mem

def read16 (m : Mem) (a : Nat) : UInt16 := UInt16.ofNat ((m a).toNat + 256 * (m (a + 1)).toNat)

def write16 (m : Mem) (a : Nat) (v : UInt16) : Mem :=
  (m.write8 a v.toUInt8).write8 (a + 1) (v >>> 8).toUInt8

theorem write16_other (m : Mem) {a x : Nat} (v : UInt16) (apart : x < a ∨ a + 2 ≤ x) :
    m.write16 a v x = m x := by
  rw [write16, write8_other _ _ (by omega), write8_other _ _ (by omega)]

@[simp] theorem read16_write16 (m : Mem) (a : Nat) (v : UInt16) : (m.write16 a v).read16 a = v := by
  apply UInt16.toNat_inj.mp
  have bound := v.toNat_lt
  simp [read16, write16, write8, Nat.shiftRight_eq_div_pow]
  omega

theorem read16_congr {m n : Mem} {a : Nat} (same : ∀ x, a ≤ x → x < a + 2 → m x = n x) :
    m.read16 a = n.read16 a := by
  rw [read16, read16, same a (by omega) (by omega), same (a + 1) (by omega) (by omega)]

theorem read16_write16_apart (m : Mem) {a b : Nat} (v : UInt16) (apart : b + 2 ≤ a ∨ a + 2 ≤ b) :
    (m.write16 a v).read16 b = m.read16 b :=
  read16_congr fun _ _ _ => m.write16_other v (by omega)

theorem read16_write8_apart (m : Mem) {a b : Nat} (v : UInt8) (apart : b + 2 ≤ a ∨ a + 1 ≤ b) :
    (m.write8 a v).read16 b = m.read16 b :=
  read16_congr fun _ _ _ => m.write8_other v (by omega)

end Mem

end ByteMemory

namespace I386

open ByteMemory

/-- A gate as the CPU decodes it. -/
structure Gate where
  offset : UInt32
  selector : UInt16
  flags : UInt8
  deriving DecidableEq, Repr

/-- The gate in the eight bytes at `a`. -/
def Gate.read (m : Mem) (a : Nat) : Gate where
  offset := (m.read16 a).toUInt32 ||| ((m.read16 (a + 6)).toUInt32 <<< 16)
  selector := m.read16 (a + 2)
  flags := m (a + 5)

/-- What `lidt` loads: the size of the table in bytes, minus 1, and its address. -/
structure Idtr where
  limit : UInt16
  base : UInt32
  deriving DecidableEq, Repr

inductive GateFault
  | generalProtection
  | notPresent
  deriving DecidableEq, Repr

/-- How an interrupt or exception is accepted. The limit is checked before the type of the gate, and
the type before its present bit. -/
def Core.accept (c : Core) (idtr : Idtr) (vector : UInt8) (errorCode : Option UInt32) :
    Except GateFault Core :=
  if idtr.limit.toNat < 8 * vector.toNat + 7 then .error .generalProtection
  else
    let gate := Gate.read c.cpu.mem (idtr.base.toNat + 8 * vector.toNat)
    if gate.flags &&& 0x1F ≠ 0x0E then .error .generalProtection
    else if gate.flags &&& 0x80 = 0 then .error .notPresent
    else .ok (c.deliver gate.selector gate.offset errorCode)

theorem Gate.read_congr {m n : Mem} {a : Nat} (same : ∀ x, a ≤ x → x < a + 8 → m x = n x) :
    Gate.read m a = Gate.read n a := by
  rw [Gate.read, Gate.read, same (a + 5) (by omega) (by omega),
    Mem.read16_congr fun x lower upper => same x (by omega) (by omega),
    Mem.read16_congr fun x lower upper => same x (by omega) (by omega),
    Mem.read16_congr fun x lower upper => same x (by omega) (by omega)]

/-- The two halves of an address make it up. -/
theorem halves (w : UInt32) :
    w.toUInt16.toUInt32 ||| ((w >>> 16).toUInt16.toUInt32 <<< 16) = w := by
  apply UInt32.toNat_inj.mp
  have bound := w.toNat_lt
  have low : w.toNat % 65536 < 2 ^ 16 := Nat.mod_lt _ (by decide)
  have high : w.toNat / 65536 % 65536 = w.toNat / 65536 := by omega
  simp [Nat.shiftRight_eq_div_pow]
  rw [high, Nat.or_comm, Nat.mod_eq_of_lt (by rw [Nat.shiftLeft_eq]; omega),
    ← Nat.shiftLeft_add_eq_or_of_lt low, Nat.shiftLeft_eq]
  omega

end I386
