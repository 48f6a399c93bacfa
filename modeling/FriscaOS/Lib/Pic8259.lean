import Mathlib.Data.Finset.Max

/-! The in-service set of an 8259 interrupt controller. Lines are ordered by priority, the highest
priority first, and an end of interrupt names no line. -/
namespace Pic8259

variable {ι : Type*} [LinearOrder ι] {s : Finset ι} {k : ι}

/-- The interrupt of line `k` is delivered to the CPU. -/
def deliver (s : Finset ι) (k : ι) : Finset ι := insert k s

/-- An end of interrupt retires the line of the highest priority. -/
def eoi (s : Finset ι) : Finset ι := if h : s.Nonempty then s.erase (s.min' h) else s

/-- No interrupt of line `k` is accepted before a line in service is retired. -/
def Blocked (s : Finset ι) (k : ι) : Prop := ∃ j ∈ s, j ≤ k

/-- An end of interrupt changes nothing exactly when nothing is in service. -/
theorem eoi_eq_self_iff : eoi s = s ↔ s = ∅ := by
  constructor
  · intro same
    by_contra some_
    have nonempty := Finset.nonempty_iff_ne_empty.mpr some_
    rw [eoi, dif_pos nonempty, Finset.erase_eq_self] at same
    exact same (s.min'_mem nonempty)
  · rintro rfl
    rfl

/-- An end of interrupt retires the last line that was delivered, if it had priority over the
lines in service then. -/
theorem eoi_deliver (above : ∀ j ∈ s, k < j) : eoi (deliver s k) = s := by
  have nonempty : (insert k s).Nonempty := Finset.insert_nonempty k s
  have highest : (insert k s).min' nonempty = k := by
    apply (Finset.min'_eq_iff _ nonempty k).mpr
    refine ⟨Finset.mem_insert_self k s, fun j member => ?_⟩
    rcases Finset.mem_insert.mp member with rfl | old
    · exact le_rfl
    · exact (above j old).le
  have fresh : k ∉ s := fun member => lt_irrefl k (above k member)
  rw [deliver, eoi, dif_pos nonempty, highest, Finset.erase_insert fresh]

theorem not_blocked_empty : ¬Blocked (∅ : Finset ι) k := by
  rintro ⟨j, member, -⟩
  exact Finset.notMem_empty j member

/-! ### Initialisation -/

/-- What the next byte at the data port is taken for. -/
inductive Expects
  | mask
  | icw2
  | icw3
  | icw4
  deriving DecidableEq, Repr

/-- The registers of a controller that decide which vector an interrupt gets. -/
structure Chip where
  expects : Expects
  -- ICW1: alone in the system, and to be told a mode
  single : Bool
  moded : Bool
  offset : UInt8
  cascade : UInt8
  mode : UInt8
  masked : UInt8
  deriving DecidableEq, Repr

namespace Chip

/-- A byte at the command port. ICW1 starts over wherever the controller was; other commands leave
these registers alone. -/
def command (c : Chip) (b : UInt8) : Chip :=
  if b &&& 0x10 = 0 then c
  else
    { c with
      expects := .icw2, single := b &&& 2 ≠ 0, moded := b &&& 1 ≠ 0, mode := 0, masked := 0 }

/-- A byte at the data port. -/
def data (c : Chip) (b : UInt8) : Chip :=
  let last : Expects := if c.moded then .icw4 else .mask
  match c.expects with
  | .mask => { c with masked := b }
  | .icw2 => { c with offset := b &&& 0xF8, expects := if c.single then last else .icw3 }
  | .icw3 => { c with cascade := b, expects := last }
  | .icw4 => { c with mode := b, expects := .mask }

/-- The four words and the masks of an initialisation, whatever the controller was doing before. -/
theorem initialised (c : Chip) {icw1 : UInt8} (start : icw1 &&& 0x10 ≠ 0) (cascaded : icw1 &&& 2 = 0)
    (moded : icw1 &&& 1 ≠ 0) (icw2 icw3 icw4 masks : UInt8) :
    ((((c.command icw1).data icw2).data icw3).data icw4).data masks =
      ⟨.mask, false, true, icw2 &&& 0xF8, icw3, icw4, masks⟩ := by
  simp [command, data, start, cascaded, moded]

/-- The controller lets line `k` through. -/
def open_ (c : Chip) (k : Nat) : Bool := c.expects = .mask && !c.masked.toNat.testBit k

end Chip

/-- A master and a slave. -/
structure Pair where
  master : Chip
  slave : Chip
  deriving DecidableEq, Repr

/-- The vector of a line, unless it is masked. The slave's lines come from 8 on, through the line
that both controllers name. -/
def Pair.vector (p : Pair) (line : Nat) : Option UInt8 :=
  if line < 8 then
    if p.master.open_ line && !p.master.cascade.toNat.testBit line then
      some (p.master.offset + UInt8.ofNat line)
    else none
  else
    let through := (p.slave.cascade &&& 7).toNat
    if p.slave.open_ (line - 8) && p.master.open_ through &&
        p.master.cascade.toNat.testBit through then
      some (p.slave.offset + UInt8.ofNat (line - 8))
    else none

end Pic8259
