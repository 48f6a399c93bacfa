import FriscaOS.Lib.Bitmap
import FriscaOS.Lib.ByteMemory
import FriscaOS.Lib.Transition
import FriscaOS.Memory.Pmm

/-! The counter and the bitmap of the frame allocator agree in every state, whatever addresses
were freed, and the first megabyte stays reserved while none of its own blocks is freed. -/
namespace FriscaOS

open ByteMemory Transition

inductive PmmOp
  | alloc
  | free (addr : UInt32)

def pmmStep (s : Pmm) : PmmOp → Pmm
  | .alloc => (pmmAllocBlock s).1
  | .free addr => pmmFreeBlock s addr

/-- The state after `pmm_init` and a sequence of calls. -/
def pmmAfter (memSize : UInt32) (ops : List PmmOp) : Pmm := ops.foldl pmmStep (pmmInit memSize)

/-- The block is used or reserved. -/
def Pmm.Used (s : Pmm) (i : Nat) : Prop := Bitmap.get s.bitmap i = true

instance (s : Pmm) (i : Nat) : Decidable (s.Used i) := inferInstanceAs (Decidable (_ = true))

/-- The free blocks among those that are managed. -/
def Pmm.freeBlocks (s : Pmm) : Finset Nat :=
  (Finset.range s.maxBlocks.toNat).filter fun i => ¬Bitmap.get s.bitmap i

/-- The number of blocks that `pmm_init` manages. -/
def managedBlocks (memSize : UInt32) : Nat := min (memSize.toNat / 4096) 4096

structure PmmInv (s : Pmm) : Prop where
  counted : s.usedBlocks.toNat = (Bitmap.used s.bitmap s.maxBlocks.toNat).card
  limit : s.maxBlocks.toNat ≤ 4096
  high : ∀ i, s.maxBlocks.toNat ≤ i → s.Used i

variable {s : Pmm} {bit addr memSize : UInt32} {i n : Nat} {ops : List PmmOp}

theorem testBit_eq_zero : s.testBit bit = 0 ↔ ¬s.Used bit.toNat := by
  rw [Pmm.Used, Bool.not_eq_true]
  exact Bitmap.test_eq_zero

theorem PmmInv.used_le (inv : PmmInv s) : s.usedBlocks.toNat ≤ s.maxBlocks.toNat :=
  inv.counted ▸ Bitmap.card_used_le

/-- The early exit of `pmm_alloc_block` is taken exactly when every block is used. -/
theorem PmmInv.exhausted_iff (inv : PmmInv s) :
    s.maxBlocks - s.usedBlocks = 0 ↔ ∀ i < s.maxBlocks.toNat, s.Used i := by
  have le := inv.used_le
  have difference : (s.maxBlocks - s.usedBlocks).toNat = s.maxBlocks.toNat - s.usedBlocks.toNat :=
    toNat_sub_of_le le
  simp only [Pmm.Used, ← Bitmap.card_used_eq, ← inv.counted, ← UInt32.toNat_inj, difference]
  have zero : (0 : UInt32).toNat = 0 := rfl
  omega

/-! ### One bit -/

/-- Clearing a set bit keeps the count, and the counter does not fall below zero. -/
theorem PmmInv.clear (inv : PmmInv s) (below : bit < s.maxBlocks) (used : s.Used bit.toNat) :
    0 < s.usedBlocks ∧
      PmmInv { s.clearBit bit with usedBlocks := (s.clearBit bit).usedBlocks - 1 } := by
  have bound := UInt32.lt_iff_toNat_lt.mp below
  have removed := Bitmap.card_used_clear bound used
  have one : (1 : UInt32).toNat = 1 := rfl
  have positive : 0 < s.usedBlocks.toNat := by
    rw [inv.counted]
    omega
  refine ⟨UInt32.lt_iff_toNat_lt.mpr positive, ?_, inv.limit, fun i above => ?_⟩
  · have less : (s.usedBlocks - 1).toNat = s.usedBlocks.toNat - 1 := toNat_sub_of_le positive
    have fewer : (s.usedBlocks - 1).toNat = (Bitmap.used (Bitmap.clear s.bitmap bit)
        s.maxBlocks.toNat).card := by
      rw [less, inv.counted]
      omega
    exact fewer
  · have other : i ≠ bit.toNat := fun same => by
      have low : s.maxBlocks.toNat ≤ i := above
      omega
    have kept : Bitmap.get (Bitmap.clear s.bitmap bit) i = true := by
      rw [Bitmap.get_clear, inv.high i above, decide_eq_false other]
      rfl
    exact kept

/-- Setting a clear bit keeps the count. -/
theorem PmmInv.set (inv : PmmInv s) (below : bit < s.maxBlocks) (unused : ¬s.Used bit.toNat) :
    PmmInv { s.setBit bit with usedBlocks := (s.setBit bit).usedBlocks + 1 } := by
  have bound := UInt32.lt_iff_toNat_lt.mp below
  have added := Bitmap.card_used_set bound (Bool.not_eq_true _ ▸ unused)
  have room : (Bitmap.used (Bitmap.set s.bitmap bit) s.maxBlocks.toNat).card ≤ s.maxBlocks.toNat :=
    Bitmap.card_used_le
  have limit := inv.limit
  refine ⟨?_, inv.limit, fun i above => ?_⟩
  · have one : (1 : UInt32).toNat = 1 := rfl
    have more : (s.usedBlocks + 1).toNat = s.usedBlocks.toNat + 1 :=
      toNat_add_of_lt (by rw [inv.counted]; omega)
    have counted : (s.usedBlocks + 1).toNat = (Bitmap.used (Bitmap.set s.bitmap bit)
        s.maxBlocks.toNat).card := by
      rw [more, inv.counted, added]
    exact counted
  · have kept : Bitmap.get (Bitmap.set s.bitmap bit) i = true := by
      rw [Bitmap.get_set, inv.high i above]
      rfl
    exact kept

/-! ### Allocation -/

/-- Everything that `pmm_alloc_block` can do. -/
inductive AllocOutcome (s : Pmm) : Pmm → UInt32 → Prop
  | exhausted : (∀ i < s.maxBlocks.toNat, s.Used i) → AllocOutcome s s 0
  | handed {block : UInt32} : block < s.maxBlocks → ¬s.Used block.toNat →
      (∀ i < block.toNat, s.Used i) →
      AllocOutcome s { s.setBit block with usedBlocks := (s.setBit block).usedBlocks + 1 }
        (block * pmmBlockSize)

/-- From block `i` on, with all blocks before it used, the scan stops at the lowest free block
if there is one. -/
theorem pmmScan_spec {i : UInt32} (last : i.toNat + n = s.maxBlocks.toNat)
    (before : ∀ j < i.toNat, s.Used j) : AllocOutcome s (pmmScan s n i).1 (pmmScan s n i).2 := by
  induction n generalizing i with
  | zero => exact .exhausted (last ▸ before)
  | succ n ih =>
    by_cases free : s.testBit i = 0
    · have unused := testBit_eq_zero.mp free
      have below : i < s.maxBlocks := UInt32.lt_iff_toNat_lt.mpr (by omega)
      rw [pmmScan, if_pos free]
      exact .handed below unused before
    · have used : s.Used i.toNat := by
        rw [testBit_eq_zero, not_not] at free
        exact free
      have bound := s.maxBlocks.toNat_lt
      have next : (i + 1).toNat = i.toNat + 1 := toNat_add_of_lt (by simp; omega)
      rw [pmmScan, if_neg free]
      refine ih (i := i + 1) (by omega) fun j below => ?_
      rcases Nat.lt_or_eq_of_le (Nat.le_of_lt_succ (next ▸ below)) with earlier | rfl
      · exact before j earlier
      · exact used

theorem PmmInv.alloc_outcome (inv : PmmInv s) :
    AllocOutcome s (pmmAllocBlock s).1 (pmmAllocBlock s).2 := by
  rw [pmmAllocBlock]
  by_cases full : s.maxBlocks - s.usedBlocks = 0
  · rw [if_pos full]
    exact .exhausted (inv.exhausted_iff.mp full)
  · rw [if_neg full]
    exact pmmScan_spec (i := 0) (Nat.zero_add _) fun j below => absurd below j.not_lt_zero

theorem PmmInv.alloc_cases {t : Pmm} (inv : PmmInv s) (result : pmmAllocBlock s = (t, addr)) :
    AllocOutcome s t addr := by
  have outcome := inv.alloc_outcome
  rwa [result] at outcome

/-! ### Steps -/

theorem AllocOutcome.inv {t : Pmm} {addr : UInt32} (outcome : AllocOutcome s t addr)
    (inv : PmmInv s) : PmmInv t := by
  cases outcome with
  | exhausted => exact inv
  | handed below unused => exact inv.set below unused

theorem PmmInv.free (inv : PmmInv s) (addr : UInt32) : PmmInv (pmmFreeBlock s addr) := by
  rw [pmmFreeBlock]
  by_cases used : addr / pmmBlockSize < s.maxBlocks ∧ s.testBit (addr / pmmBlockSize) ≠ 0
  · rw [if_pos used]
    obtain ⟨below, bit⟩ := used
    rw [ne_eq, testBit_eq_zero, not_not] at bit
    exact (inv.clear below bit).2
  · rw [if_neg used]
    exact inv

theorem PmmInv.step (inv : PmmInv s) (op : PmmOp) : PmmInv (pmmStep s op) := by
  cases op with
  | alloc => exact inv.alloc_outcome.inv inv
  | free addr => exact inv.free addr

/-! ### `pmm_init` -/

/-- Clearing a bit, as the loop of `pmm_init` and `pmm_free_block` do it. -/
theorem used_clearBit {count : UInt32} {j : Nat} :
    Pmm.Used { s.clearBit bit with usedBlocks := count } j ↔ s.Used j ∧ j ≠ bit.toNat := by
  have cleared : Bitmap.get (s.clearBit bit).bitmap j = _ := Bitmap.get_clear
  rw [Pmm.Used, cleared, Pmm.Used]
  simp

theorem used_setBit {count : UInt32} {j : Nat} :
    Pmm.Used { s.setBit bit with usedBlocks := count } j ↔ s.Used j ∨ j = bit.toNat := by
  have marked : Bitmap.get (s.setBit bit).bitmap j = _ := Bitmap.get_set
  rw [Pmm.Used, marked, Pmm.Used]
  simp

/-- The loop of `pmm_init` frees the blocks from `i` on, all of which were used. -/
theorem pmmInitLoop_spec {i : UInt32} (inv : PmmInv s) (last : i.toNat + n ≤ s.maxBlocks.toNat)
    (used : ∀ j, i.toNat ≤ j → s.Used j) :
    PmmInv (pmmInitLoop n i s) ∧ (pmmInitLoop n i s).maxBlocks = s.maxBlocks ∧
      ∀ j, (pmmInitLoop n i s).Used j ↔ s.Used j ∧ ¬(i.toNat ≤ j ∧ j < i.toNat + n) := by
  induction n generalizing i s with
  | zero => exact ⟨inv, rfl, fun j => ⟨fun h => ⟨h, by omega⟩, And.left⟩⟩
  | succ n ih =>
    have bound := s.maxBlocks.toNat_lt
    have next : (i + 1).toNat = i.toNat + 1 := toNat_add_of_lt (by simp; omega)
    have below : i < s.maxBlocks := UInt32.lt_iff_toNat_lt.mpr (by omega)
    obtain ⟨inv', same, rest⟩ := ih (i := i + 1) (inv.clear below (used _ (Nat.le_refl _))).2
      (by
        have limit : i.toNat + 1 + n ≤ s.maxBlocks.toNat := by omega
        rw [next]
        exact limit)
      fun j above => used_clearBit.mpr ⟨used j (by omega), by omega⟩
    refine ⟨inv', same, fun j => (rest j).trans ?_⟩
    rw [next, used_clearBit]
    constructor
    · rintro ⟨⟨old, other⟩, outside⟩
      exact ⟨old, by omega⟩
    · rintro ⟨old, outside⟩
      exact ⟨⟨old, by omega⟩, by omega⟩

/-- Clamping and dividing as `pmm_init` does. -/
theorem managed_toNat (memSize : UInt32) :
    (if memSize / pmmBlockSize > bitmapSize * 32 then bitmapSize * 32
      else memSize / pmmBlockSize : UInt32).toNat = managedBlocks memSize := by
  have quotient : (memSize / pmmBlockSize).toNat = memSize.toNat / 4096 := rfl
  have most : (bitmapSize * 32).toNat = 4096 := rfl
  rw [managedBlocks]
  split
  next above =>
    have := UInt32.lt_iff_toNat_lt.mp above
    omega
  next below =>
    have := mt UInt32.lt_iff_toNat_lt.mpr below
    omega

/-- Before its loop `pmm_init` has marked every block used. -/
theorem pmmInv_full (count : UInt32) (limit : count.toNat ≤ 4096) :
    PmmInv { bitmap := fun _ => 0xFFFFFFFF, maxBlocks := count, usedBlocks := count } ∧
      ∀ i, Pmm.Used { bitmap := fun _ => 0xFFFFFFFF, maxBlocks := count, usedBlocks := count } i := by
  have ones (i : Nat) : Bitmap.get (fun _ => 0xFFFFFFFF) i = true := by
    have place : i % 32 < 32 := Nat.mod_lt _ (by decide)
    have word : Bitmap.get (fun _ => 0xFFFFFFFF) i = (BitVec.allOnes 32).getLsbD (i % 32) := rfl
    rw [word, BitVec.getLsbD_allOnes, decide_eq_true place]
  refine ⟨⟨?_, limit, fun i _ => ones i⟩, ones⟩
  exact (Bitmap.card_used_eq.mpr fun i _ => ones i).symm

/-- After `pmm_init` the free blocks are those from 1 MB to the end of the managed memory. -/
theorem pmmInit_spec (memSize : UInt32) :
    PmmInv (pmmInit memSize) ∧ (pmmInit memSize).maxBlocks.toNat = managedBlocks memSize ∧
      ∀ i, (pmmInit memSize).Used i ↔ ¬(256 ≤ i ∧ i < managedBlocks memSize) := by
  have reserved : ((1 * 1024 * 1024) / pmmBlockSize : UInt32).toNat = 256 := rfl
  have count := managed_toNat memSize
  have limit : managedBlocks memSize ≤ 4096 := Nat.min_le_right ..
  simp only [pmmInit]
  generalize (if memSize / pmmBlockSize > bitmapSize * 32 then bitmapSize * 32
    else memSize / pmmBlockSize : UInt32) = blocks at count ⊢
  generalize ((1 * 1024 * 1024) / pmmBlockSize : UInt32) = start at reserved ⊢
  obtain ⟨full, all⟩ := pmmInv_full blocks (by omega)
  rcases Nat.lt_or_ge blocks.toNat 256 with small | large
  · have none : blocks.toNat - start.toNat = 0 := by omega
    rw [none, pmmInitLoop]
    exact ⟨full, count, fun i => ⟨fun _ => by omega, fun _ => all i⟩⟩
  · have last : start.toNat + (blocks.toNat - start.toNat) ≤ blocks.toNat := by omega
    obtain ⟨inv, same, used⟩ := pmmInitLoop_spec full last fun j _ => all j
    refine ⟨inv, (congrArg UInt32.toNat same).trans count, fun i => (used i).trans ?_⟩
    constructor
    · rintro ⟨-, outside⟩
      omega
    · intro outside
      exact ⟨all i, by omega⟩

/-! ### Runs -/

theorem pmmAfter_nil : pmmAfter memSize [] = pmmInit memSize := by
  rw [pmmAfter, List.foldl_nil]

theorem pmmAfter_append (op : PmmOp) :
    pmmAfter memSize (ops ++ [op]) = pmmStep (pmmAfter memSize ops) op :=
  List.foldl_concat ..

theorem pmmAfter_inv (memSize : UInt32) (ops : List PmmOp) : PmmInv (pmmAfter memSize ops) := by
  induction ops using List.reverseRecOn with
  | nil => exact pmmAfter_nil ▸ (pmmInit_spec memSize).1
  | append_singleton ops op ih => exact pmmAfter_append op ▸ ih.step op

theorem pmmStep_maxBlocks (inv : PmmInv s) (op : PmmOp) : (pmmStep s op).maxBlocks = s.maxBlocks := by
  cases op with
  | alloc =>
    have outcome := inv.alloc_outcome
    rw [pmmStep]
    generalize (pmmAllocBlock s).1 = t, (pmmAllocBlock s).2 = addr at outcome
    cases outcome <;> rfl
  | free addr =>
    rw [pmmStep, pmmFreeBlock]
    split <;> rfl

theorem pmmAfter_maxBlocks (memSize : UInt32) (ops : List PmmOp) :
    (pmmAfter memSize ops).maxBlocks.toNat = managedBlocks memSize := by
  induction ops using List.reverseRecOn with
  | nil => exact pmmAfter_nil ▸ (pmmInit_spec memSize).2.1
  | append_singleton ops op ih =>
    rw [pmmAfter_append, pmmStep_maxBlocks (pmmAfter_inv memSize ops), ih]

/-- The free blocks are the managed blocks that are not used. -/
theorem PmmInv.card_freeBlocks (inv : PmmInv s) :
    s.freeBlocks.card = s.maxBlocks.toNat - s.usedBlocks.toNat := by
  have split := Finset.card_filter_add_card_filter_not (s := Finset.range s.maxBlocks.toNat)
    fun i => Bitmap.get s.bitmap i = true
  rw [Finset.card_range] at split
  have free : s.freeBlocks.card + s.usedBlocks.toNat = s.maxBlocks.toNat := by
    rw [inv.counted, Nat.add_comm]
    exact split
  omega

/-- At most 16 MB are managed, so the figure does not overflow. -/
theorem PmmInv.freeMemory (inv : PmmInv s) :
    (pmmGetFreeMemory s).toNat = 4096 * s.freeBlocks.card := by
  have le := inv.used_le
  have limit := inv.limit
  have size : pmmBlockSize.toNat = 4096 := rfl
  have difference : (s.maxBlocks - s.usedBlocks).toNat = s.maxBlocks.toNat - s.usedBlocks.toNat :=
    toNat_sub_of_le le
  rw [pmmGetFreeMemory, UInt32.toNat_mul, difference, size, inv.card_freeBlocks,
    Nat.mod_eq_of_lt (by omega), Nat.mul_comm]

theorem block_address (block : UInt32) (below : block.toNat < 4096) :
    (block * pmmBlockSize).toNat = block.toNat * 4096 := by
  have size : pmmBlockSize.toNat = 4096 := rfl
  rw [UInt32.toNat_mul, size, Nat.mod_eq_of_lt (by omega)]

/-- Past the early exit a block is free, and the scan finds it before its end. -/
theorem PmmInv.alloc_found (inv : PmmInv s) (room : s.maxBlocks - s.usedBlocks ≠ 0) :
    ∃ block < s.maxBlocks.toNat, ¬s.Used block ∧ (pmmAllocBlock s).2.toNat = block * 4096 ∧
      (pmmAllocBlock s).1.usedBlocks.toNat = s.usedBlocks.toNat + 1 ∧
      ∀ i, (pmmAllocBlock s).1.Used i ↔ s.Used i ∨ i = block := by
  have outcome := inv.alloc_outcome
  generalize (pmmAllocBlock s).1 = t, (pmmAllocBlock s).2 = addr at outcome ⊢
  cases outcome with
  | exhausted all => exact absurd (inv.exhausted_iff.mpr all) room
  | @handed block below unused _ =>
    have managed := UInt32.lt_iff_toNat_lt.mp below
    have limit := inv.limit
    have le := inv.used_le
    have one : (1 : UInt32).toNat = 1 := rfl
    have counted : (s.usedBlocks + 1).toNat = s.usedBlocks.toNat + 1 :=
      toNat_add_of_lt (by omega)
    exact ⟨block.toNat, managed, unused, block_address block (by omega), counted,
      fun i => used_setBit⟩

/-- What ties the counter of the allocator to its bitmap. -/
structure PmmAccounts (s : Pmm) : Prop where
  counted : s.usedBlocks.toNat = (Bitmap.used s.bitmap s.maxBlocks.toNat).card
  -- `max_blocks - used_blocks` does not fall below zero
  used_le : s.usedBlocks.toNat ≤ s.maxBlocks.toNat
  -- nor does the counter in `pmm_free_block`
  used_pos : ∀ addr : UInt32, addr / pmmBlockSize < s.maxBlocks →
    s.testBit (addr / pmmBlockSize) ≠ 0 → 0 < s.usedBlocks.toNat
  high : ∀ i, s.maxBlocks.toNat ≤ i → s.Used i
  freeMemory : (pmmGetFreeMemory s).toNat = 4096 * s.freeBlocks.card
  -- past its first test `pmm_alloc_block` hands out a free block, so its scan does not run out
  found : s.maxBlocks - s.usedBlocks ≠ 0 → ∃ block < s.maxBlocks.toNat, ¬s.Used block ∧
    (pmmAllocBlock s).2.toNat = block * 4096 ∧
    (pmmAllocBlock s).1.usedBlocks.toNat = s.usedBlocks.toNat + 1 ∧
    ∀ i, (pmmAllocBlock s).1.Used i ↔ s.Used i ∨ i = block

/-- Whatever is freed, the counter and the bitmap agree. -/
theorem pmmAfter_accounts (memSize : UInt32) (ops : List PmmOp) :
    PmmAccounts (pmmAfter memSize ops) := by
  have inv := pmmAfter_inv memSize ops
  refine ⟨inv.counted, inv.used_le, fun addr below bit => ?_, inv.high, inv.freeMemory,
    inv.alloc_found⟩
  rw [ne_eq, testBit_eq_zero, not_not] at bit
  exact UInt32.lt_iff_toNat_lt.mp (inv.clear below bit).1

/-! ### The reserved megabyte -/

/-- The blocks of the first megabyte are not free. -/
def Pmm.LowReserved (s : Pmm) : Prop := ∀ i < 256, s.Used i

/-- The next allocation keeps the first megabyte out of use: it returns and marks no block below
1 MB, and it answers 0 only when no block is free, and then changes nothing. -/
structure AllocSound (s : Pmm) : Prop where
  returned : (pmmAllocBlock s).2 ≠ 0 → 0x100000 ≤ (pmmAllocBlock s).2.toNat
  marked : ∀ i < 256, (pmmAllocBlock s).1.Used i ↔ s.Used i
  failed : (pmmAllocBlock s).2 = 0 → s.freeBlocks = ∅ ∧
    (pmmAllocBlock s).1.bitmap = s.bitmap ∧ (pmmAllocBlock s).1.usedBlocks = s.usedBlocks

/-- The address frees a block that is neither reserved nor outside the managed memory. -/
def FreesAbove (memSize addr : UInt32) : Prop :=
  256 ≤ addr.toNat / 4096 ∨ managedBlocks memSize ≤ addr.toNat / 4096

theorem freeBlocks_eq_empty (all : ∀ i < s.maxBlocks.toNat, s.Used i) : s.freeBlocks = ∅ := by
  apply Finset.filter_false_of_mem
  intro i member
  exact not_not.mpr (all i (Finset.mem_range.mp member))

/-- While a block is free, giving back what was just handed out undoes the allocation. -/
theorem PmmInv.alloc_free {t : Pmm} (inv : PmmInv s) (room : s.freeBlocks.Nonempty)
    (result : pmmAllocBlock s = (t, addr)) : pmmFreeBlock t addr = s := by
  cases inv.alloc_cases result with
  | exhausted all => exact absurd (freeBlocks_eq_empty all) room.ne_empty
  | @handed block below unused _ =>
    have limit := inv.limit
    have small := UInt32.lt_iff_toNat_lt.mp below
    have size : pmmBlockSize.toNat = 4096 := rfl
    have number : block * pmmBlockSize / pmmBlockSize = block := by
      apply UInt32.toNat_inj.mp
      rw [UInt32.toNat_div, block_address _ (by omega), size, Nat.mul_div_cancel _ (by decide)]
    have marked : Pmm.testBit { s.setBit block with usedBlocks := (s.setBit block).usedBlocks + 1 }
        block ≠ 0 := by
      rw [ne_eq, testBit_eq_zero, not_not, used_setBit]
      exact .inr rfl
    rw [pmmFreeBlock, number, if_pos ⟨below, marked⟩]
    have bitmap : Bitmap.clear (Bitmap.set s.bitmap block) block = s.bitmap := by
      rw [Pmm.Used, Bool.not_eq_true] at unused
      exact Bitmap.clear_set unused
    have counter : s.usedBlocks + 1 - 1 = s.usedBlocks := UInt32.add_sub_cancel ..
    calc _ = { s with bitmap := Bitmap.clear (Bitmap.set s.bitmap block) block
                      usedBlocks := s.usedBlocks + 1 - 1 } := rfl
      _ = s := by rw [bitmap, counter]

/-- Allocation leaves the first megabyte alone exactly when none of it is free. -/
theorem PmmInv.allocSound_iff (inv : PmmInv s) : AllocSound s ↔ s.LowReserved := by
  have outcome := inv.alloc_outcome
  constructor
  · intro sound
    by_contra low
    obtain ⟨i, below, unused⟩ : ∃ i < 256, ¬s.Used i := by
      simpa only [Pmm.LowReserved, not_forall, exists_prop] using low
    have kept := sound.marked
    generalize (pmmAllocBlock s).1 = t, (pmmAllocBlock s).2 = addr at outcome kept
    cases outcome with
    | exhausted all =>
      exact unused (all i (Nat.lt_of_not_le fun above => unused (inv.high i above)))
    | @handed block _ free lowest =>
      -- the lowest free block is one of the first megabyte, and it is marked
      have first : block.toNat ≤ i := Nat.le_of_not_lt fun later => unused (lowest i later)
      exact free ((kept block.toNat (by omega)).mp (used_setBit.mpr (.inr rfl)))
  · intro low
    generalize result : pmmAllocBlock s = r at outcome
    obtain ⟨t, addr⟩ := r
    cases outcome with
    | exhausted all =>
      refine ⟨?_, ?_, ?_⟩ <;> rw [result]
      · exact fun nonzero => absurd rfl nonzero
      · exact fun i _ => Iff.rfl
      · exact fun _ => ⟨freeBlocks_eq_empty all, rfl, rfl⟩
    | @handed block below free lowest =>
      have above : 256 ≤ block.toNat := Nat.le_of_not_lt fun early => free (low _ early)
      have limit := inv.limit
      have address := block_address block (by
        have := UInt32.lt_iff_toNat_lt.mp below
        omega)
      refine ⟨?_, ?_, ?_⟩ <;> rw [result]
      · intro _
        exact address ▸ (by omega)
      · intro i early
        rw [used_setBit, or_iff_left]
        omega
      · intro zero
        have none : (block * pmmBlockSize).toNat = 0 := congrArg UInt32.toNat zero
        omega

theorem PmmInv.step_lowReserved (inv : PmmInv s) (low : s.LowReserved) {op : PmmOp}
    (good : ∀ addr, op = .free addr → 256 ≤ addr.toNat / 4096 ∨
      s.maxBlocks.toNat ≤ addr.toNat / 4096) : (pmmStep s op).LowReserved := by
  cases op with
  | alloc =>
    intro i early
    exact ((inv.allocSound_iff.mpr low).marked i early).mpr (low i early)
  | free addr =>
    rw [pmmStep, pmmFreeBlock]
    by_cases used : addr / pmmBlockSize < s.maxBlocks ∧ s.testBit (addr / pmmBlockSize) ≠ 0
    · rw [if_pos used]
      intro i early
      have below : addr.toNat / 4096 < s.maxBlocks.toNat := UInt32.lt_iff_toNat_lt.mp used.1
      have block : (addr / pmmBlockSize).toNat = addr.toNat / 4096 := rfl
      have above := good addr rfl
      exact used_clearBit.mpr ⟨low i early, by omega⟩
    · rw [if_neg used]
      exact low

/-- Freeing a block of the first megabyte makes it free. -/
theorem Pmm.LowReserved.free_low (low : s.LowReserved) (early : addr.toNat / 4096 < 256)
    (managed : addr.toNat / 4096 < s.maxBlocks.toNat) : ¬(pmmFreeBlock s addr).LowReserved := by
  have block : (addr / pmmBlockSize).toNat = addr.toNat / 4096 := rfl
  have below : addr / pmmBlockSize < s.maxBlocks := UInt32.lt_iff_toNat_lt.mpr managed
  have bit : s.testBit (addr / pmmBlockSize) ≠ 0 := by
    rw [ne_eq, testBit_eq_zero, not_not]
    exact low _ early
  intro reserved
  rw [pmmFreeBlock, if_pos ⟨below, bit⟩] at reserved
  exact (used_clearBit.mp (reserved _ early)).2 rfl

/-- The first megabyte is reserved in every state of a run exactly when nothing of it is freed. -/
theorem pmmAfter_lowReserved (memSize : UInt32) (ops : List PmmOp) :
    (∀ pre, pre <+: ops → (pmmAfter memSize pre).LowReserved) ↔
      ∀ addr, PmmOp.free addr ∈ ops → FreesAbove memSize addr := by
  have initial : (pmmAfter memSize []).LowReserved := by
    rw [pmmAfter_nil]
    exact fun i early => ((pmmInit_spec memSize).2.2 i).mpr (by omega)
  have step (pre : List PmmOp) (op : PmmOp) (_ : pre ++ [op] <+: ops)
      (low : (pmmAfter memSize pre).LowReserved) :
      (pmmAfter memSize (pre ++ [op])).LowReserved ↔
        ∀ addr, op = .free addr → FreesAbove memSize addr := by
    have count := pmmAfter_maxBlocks memSize pre
    rw [pmmAfter_append]
    constructor
    · rintro reserved addr rfl
      by_contra below
      rw [FreesAbove, not_or, Nat.not_le, Nat.not_le, ← count] at below
      exact low.free_low below.1 below.2 reserved
    · intro good
      refine (pmmAfter_inv memSize pre).step_lowReserved low fun addr freed => ?_
      rw [count]
      exact good addr freed
  rw [forall_prefix_iff (P := fun pre => (pmmAfter memSize pre).LowReserved) initial step]
  constructor
  · intro good addr member
    obtain ⟨pre, post, rfl⟩ := List.append_of_mem member
    exact good pre (.free addr) ⟨post, (List.append_cons pre _ post).symm⟩ addr rfl
  · rintro good pre op ⟨post, rfl⟩ addr rfl
    exact good addr (List.mem_append_left _ (List.mem_append_right _ (.head _)))

/-- Allocation leaves the first megabyte alone throughout a run exactly when every address freed
in it is above 1 MB or outside the managed memory. -/
theorem pmmAfter_allocSound (memSize : UInt32) (ops : List PmmOp) :
    (∀ pre, pre <+: ops → AllocSound (pmmAfter memSize pre)) ↔
      ∀ addr, PmmOp.free addr ∈ ops → FreesAbove memSize addr := by
  simp only [← pmmAfter_lowReserved, (pmmAfter_inv memSize _).allocSound_iff]

/-- With no memory above 1 MB an allocation fails, and its result is passed on to
`pmm_free_block`: the next allocation marks block 0 and still answers 0. -/
theorem pmm_free_null_unsound :
    ¬∀ pre, pre <+: [PmmOp.alloc, .free 0] → AllocSound (pmmAfter 0x100000 pre) := by
  intro sound
  have marked := (sound _ (List.prefix_refl _)).marked 0 (by decide)
  have free : ¬(pmmAfter 0x100000 [.alloc, .free 0]).Used 0 := by decide
  exact free (marked.mp (by decide))

end FriscaOS
