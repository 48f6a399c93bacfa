import FriscaOS.Lib.FramePool
import FriscaOS.Lib.Transition
import FriscaOS.Memory.PmmAccounting
import Mathlib.Order.Interval.Finset.Nat

/-! The frame allocator hands out and takes back frames as a pool of the frames from 1 MB on. -/
namespace FriscaOS

open FramePool Transition

/-- The allocator with the addresses that its callers own, the last one first. -/
structure Frames where
  pmm : Pmm
  owned : List UInt32

/-- A call of the allocator, with the address that it returns or takes. -/
inductive FrameCall
  | alloc (addr : UInt32)
  | free (addr : UInt32)

/-- Callers free only what they own. -/
inductive FrameStep : Frames → FrameCall → Frames → Prop
  | alloc {f pmm addr} : pmmAllocBlock f.pmm = (pmm, addr) →
      FrameStep f (.alloc addr) ⟨pmm, if addr = 0 then f.owned else addr :: f.owned⟩
  | free {f addr} : addr ∈ f.owned →
      FrameStep f (.free addr) ⟨pmmFreeBlock f.pmm addr, f.owned.erase addr⟩

/-- A call of the allocator read as one of the pool. -/
inductive Answers : FrameCall → Call Nat → Prop
  | exhausted : Answers (.alloc 0) (.alloc none)
  | handed {addr frame} : addr ≠ 0 → addr.toNat = frame * 4096 →
      Answers (.alloc addr) (.alloc (some frame))
  | freed {addr frame} : addr.toNat = frame * 4096 → Answers (.free addr) (.release frame)

/-- A step of the pool with the answer that the allocator gives. -/
def PoolStep (p : Pool Nat) (call : FrameCall) (q : Pool Nat) : Prop :=
  ∃ c, Answers call c ∧ Step p c q

/-- The frames that `pmm_init` makes available. -/
def bootFrames (memSize : UInt32) : Finset Nat := Finset.Ico 256 (managedBlocks memSize)

/-- The pool that the allocator and its owners stand for. -/
structure RepresentsPool (memSize : UInt32) (f : Frames) (p : Pool Nat) : Prop where
  free : p.free = f.pmm.freeBlocks
  owned : p.owned = (f.owned.map fun addr => addr.toNat / 4096).toFinset
  all : Partition (bootFrames memSize) p
  nodup : f.owned.Nodup
  aligned : ∀ addr ∈ f.owned, 4096 ∣ addr.toNat
  above : ∀ addr ∈ f.owned, 0x100000 ≤ addr.toNat
  below : ∀ addr ∈ f.owned, addr.toNat + 4096 ≤ managedBlocks memSize * 4096

variable {s t : Pmm} {memSize addr : UInt32} {f g : Frames} {p : Pool Nat} {call : FrameCall}
  {calls : List FrameCall} {i : Nat}

theorem mem_freeBlocks : i ∈ s.freeBlocks ↔ i < s.maxBlocks.toNat ∧ ¬s.Used i := by
  simp [Pmm.freeBlocks, Pmm.Used]

theorem mem_bootFrames : i ∈ bootFrames memSize ↔ 256 ≤ i ∧ i < managedBlocks memSize :=
  Finset.mem_Ico

namespace RepresentsPool

theorem initial (memSize : UInt32) :
    RepresentsPool memSize ⟨pmmInit memSize, []⟩ ⟨bootFrames memSize, ∅⟩ := by
  obtain ⟨-, count, used⟩ := pmmInit_spec memSize
  refine ⟨?_, rfl, ⟨Finset.disjoint_empty_right _, Finset.union_empty _⟩, List.nodup_nil, ?_, ?_, ?_⟩
  · ext i
    rw [mem_freeBlocks, mem_bootFrames, count, used]
    omega
  all_goals exact fun addr member => absurd member List.not_mem_nil

theorem mem_owned (rep : RepresentsPool memSize f p) (live : addr ∈ f.owned) :
    addr.toNat / 4096 ∈ p.owned := by
  rw [rep.owned]
  exact List.mem_toFinset.mpr (List.mem_map_of_mem live)

/-- Two owned addresses of one frame are the same. -/
theorem frame_inj (rep : RepresentsPool memSize f p) {a b : UInt32} (ha : a ∈ f.owned)
    (hb : b ∈ f.owned) (same : a.toNat / 4096 = b.toNat / 4096) : a = b := by
  have left := Nat.div_mul_cancel (rep.aligned a ha)
  have right := Nat.div_mul_cancel (rep.aligned b hb)
  exact UInt32.toNat_inj.mp (by omega)

/-- A frame that is not free is owned or outside the pool. -/
theorem used_of_owned (rep : RepresentsPool memSize f p) (live : addr ∈ f.owned) :
    addr.toNat / 4096 ∈ bootFrames memSize ∧ addr.toNat / 4096 ∉ f.pmm.freeBlocks := by
  have owned := rep.mem_owned live
  exact ⟨rep.all.owned_subset owned, fun free =>
    rep.all.notMem_owned (rep.free ▸ free) owned⟩

end RepresentsPool

/-- Handing out the lowest free block is a step of the pool. -/
theorem RepresentsPool.handed {block : UInt32} (rep : RepresentsPool memSize f p)
    (inv : PmmInv f.pmm) (below : block < f.pmm.maxBlocks) (unused : ¬f.pmm.Used block.toNat)
    (lowest : ∀ i < block.toNat, f.pmm.Used i) :
    block * pmmBlockSize ≠ 0 ∧ (block * pmmBlockSize).toNat = block.toNat * 4096 ∧
    IsLeast (p.free : Set Nat) block.toNat ∧
    RepresentsPool memSize
      ⟨{ f.pmm.setBit block with usedBlocks := (f.pmm.setBit block).usedBlocks + 1 },
        block * pmmBlockSize :: f.owned⟩
      ⟨p.free.erase block.toNat, insert block.toNat p.owned⟩ := by
  have bound := UInt32.lt_iff_toNat_lt.mp below
  have limit := inv.limit
  have address := block_address block (by omega)
  have free : block.toNat ∈ p.free := rep.free ▸ mem_freeBlocks.mpr ⟨bound, unused⟩
  have least : IsLeast (p.free : Set Nat) block.toNat := by
    refine ⟨free, fun j member => Nat.le_of_not_lt fun early => ?_⟩
    exact (mem_freeBlocks.mp (rep.free ▸ member)).2 (lowest j early)
  have inside := mem_bootFrames.mp (rep.all.free_subset free)
  have frame : (block * pmmBlockSize).toNat / 4096 = block.toNat := by omega
  have nonzero : block * pmmBlockSize ≠ 0 := fun zero => by
    have none : (block * pmmBlockSize).toNat = 0 := congrArg UInt32.toNat zero
    omega
  refine ⟨nonzero, address, least, ?_, ?_, rep.all.step (.hand least), ?_, ?_, ?_, ?_⟩
  · ext i
    have count : (f.pmm.setBit block).maxBlocks = f.pmm.maxBlocks := rfl
    simp only [Finset.mem_erase, rep.free, mem_freeBlocks, used_setBit]
    rw [count]
    tauto
  · simp only [List.map_cons, List.toFinset_cons, frame, rep.owned]
  · refine List.nodup_cons.mpr ⟨fun live => ?_, rep.nodup⟩
    exact rep.all.notMem_owned free (frame ▸ rep.mem_owned live)
  · simp only [List.forall_mem_cons]
    exact ⟨⟨block.toNat, by omega⟩, rep.aligned⟩
  · simp only [List.forall_mem_cons]
    exact ⟨by omega, rep.above⟩
  · simp only [List.forall_mem_cons]
    exact ⟨by omega, rep.below⟩

/-- Freeing an owned address is a step of the pool. -/
theorem RepresentsPool.freed (rep : RepresentsPool memSize f p)
    (count : f.pmm.maxBlocks.toNat = managedBlocks memSize) (live : addr ∈ f.owned) :
    RepresentsPool memSize ⟨pmmFreeBlock f.pmm addr, f.owned.erase addr⟩
      ⟨insert (addr.toNat / 4096) p.free, p.owned.erase (addr.toNat / 4096)⟩ := by
  have block : (addr / pmmBlockSize).toNat = addr.toNat / 4096 := rfl
  obtain ⟨managed, notFree⟩ := rep.used_of_owned live
  have bound : addr.toNat / 4096 < f.pmm.maxBlocks.toNat := by
    rw [count]
    exact (mem_bootFrames.mp managed).2
  have used : f.pmm.Used (addr.toNat / 4096) := by
    by_contra unused
    exact notFree (mem_freeBlocks.mpr ⟨bound, unused⟩)
  have bit : f.pmm.testBit (addr / pmmBlockSize) ≠ 0 := by
    rw [ne_eq, testBit_eq_zero, not_not]
    exact used
  rw [pmmFreeBlock, if_pos ⟨UInt32.lt_iff_toNat_lt.mpr bound, bit⟩]
  refine ⟨?_, ?_, rep.all.step (.release (rep.mem_owned live)), rep.nodup.erase _, ?_, ?_, ?_⟩
  · ext i
    have same : (f.pmm.clearBit (addr / pmmBlockSize)).maxBlocks = f.pmm.maxBlocks := rfl
    simp only [Finset.mem_insert, rep.free, mem_freeBlocks, used_clearBit]
    rw [same, block]
    constructor
    · rintro (rfl | ⟨below, unused⟩)
      · exact ⟨bound, fun both => both.2 rfl⟩
      · exact ⟨below, fun both => unused both.1⟩
    · rintro ⟨below, cleared⟩
      by_cases here : i = addr.toNat / 4096
      · exact .inl here
      · exact .inr ⟨below, fun old => cleared ⟨old, here⟩⟩
  · ext i
    simp only [Finset.mem_erase, rep.owned, List.mem_toFinset, List.mem_map,
      rep.nodup.mem_erase_iff]
    constructor
    · rintro ⟨other, a, member, rfl⟩
      exact ⟨a, ⟨fun same => other (same ▸ rfl), member⟩, rfl⟩
    · rintro ⟨a, ⟨other, member⟩, rfl⟩
      exact ⟨fun same => other (rep.frame_inj member live same), a, member, rfl⟩
  · exact fun a member => rep.aligned a (List.mem_of_mem_erase member)
  · exact fun a member => rep.above a (List.mem_of_mem_erase member)
  · exact fun a member => rep.below a (List.mem_of_mem_erase member)

/-- What a run keeps of the allocator itself. -/
structure FrameInv (memSize : UInt32) (f : Frames) (p : Pool Nat) : Prop where
  pmm : PmmInv f.pmm
  count : f.pmm.maxBlocks.toNat = managedBlocks memSize
  rep : RepresentsPool memSize f p

theorem FrameInv.step (inv : FrameInv memSize f p) (taken : FrameStep f call g) :
    ∃ q, PoolStep p call q ∧ FrameInv memSize g q := by
  cases taken with
  | @alloc pmm addr result =>
    have outcome := inv.pmm.alloc_cases result
    have after := outcome.inv inv.pmm
    cases outcome with
    | exhausted all =>
      rw [if_pos rfl]
      have none : p.free = ∅ := inv.rep.free.trans (freeBlocks_eq_empty all)
      exact ⟨p, ⟨_, .exhausted, .exhausted none⟩, inv⟩
    | handed below unused lowest =>
      obtain ⟨nonzero, address, least, rep⟩ := inv.rep.handed inv.pmm below unused lowest
      rw [if_neg nonzero]
      exact ⟨_, ⟨_, .handed nonzero address, .hand least⟩, after, inv.count, rep⟩
  | @free addr live =>
    have frame : addr.toNat = addr.toNat / 4096 * 4096 :=
      (Nat.div_mul_cancel (inv.rep.aligned addr live)).symm
    have same : (pmmFreeBlock f.pmm addr).maxBlocks = f.pmm.maxBlocks :=
      pmmStep_maxBlocks inv.pmm (.free addr)
    exact ⟨_, ⟨_, .freed frame, .release (inv.rep.mem_owned live)⟩, inv.pmm.free addr,
      (congrArg UInt32.toNat same).trans inv.count, inv.rep.freed inv.count live⟩

/-- The lowest free frame is handed out. -/
theorem FrameInv.alloc {owned : List UInt32} (inv : FrameInv memSize ⟨s, owned⟩ p)
    (room : s.freeBlocks.Nonempty) : ∃ t a q, pmmAllocBlock s = (t, .ofNat (a * 4096)) ∧
      IsLeast (s.freeBlocks : Set Nat) a ∧ FrameInv memSize ⟨t, .ofNat (a * 4096) :: owned⟩ q ∧
      t.freeBlocks = s.freeBlocks.erase a := by
  rcases result : pmmAllocBlock s with ⟨t, addr⟩
  obtain ⟨q, ⟨call, answer, taken⟩, after⟩ := inv.step (.alloc result)
  have free : p.free = s.freeBlocks := inv.rep.free
  cases taken with
  | exhausted none =>
    rw [← free, none] at room
    exact absurd room Finset.not_nonempty_empty
  | @hand a least =>
    cases answer with
    | handed nonzero place =>
      obtain rfl : addr = .ofNat (a * 4096) := by rw [← place, UInt32.ofNat_toNat]
      rw [if_neg nonzero] at after
      rw [free] at least
      have rest : p.free.erase a = t.freeBlocks := after.rep.free
      exact ⟨t, a, _, rfl, least, after, by rw [← rest, free]⟩
  | release => cases answer

theorem FrameInv.exhausted (inv : FrameInv memSize f p) (none : f.pmm.freeBlocks = ∅) :
    pmmAllocBlock f.pmm = (f.pmm, 0) := by
  have used (i : Nat) (below : i < f.pmm.maxBlocks.toNat) : f.pmm.Used i := by
    by_contra unused
    exact absurd (none ▸ mem_freeBlocks.mpr ⟨below, unused⟩) (Finset.notMem_empty i)
  exact if_pos (inv.pmm.exhausted_iff.mpr used)

/-- What `pmm_init` establishes, and the frames that it leaves free. -/
theorem FrameInv.initial (memSize : UInt32) :
    FrameInv memSize ⟨pmmInit memSize, []⟩ ⟨bootFrames memSize, ∅⟩ ∧
      (pmmInit memSize).freeBlocks = Finset.Ico 256 (managedBlocks memSize) := by
  obtain ⟨inv, count, -⟩ := pmmInit_spec memSize
  have rep := RepresentsPool.initial memSize
  generalize pmmInit memSize = s at inv count rep ⊢
  exact ⟨⟨inv, count, rep⟩, rep.free.symm⟩

theorem FrameInv.of_run (run : Run FrameStep ⟨pmmInit memSize, []⟩ calls f) :
    ∃ p, FrameInv memSize f p := by
  refine run.invariant (fun f => ∃ p, FrameInv memSize f p) ?_ ⟨_, (FrameInv.initial memSize).1⟩
  rintro f call g ⟨p, inv⟩ taken
  obtain ⟨q, -, inv'⟩ := inv.step taken
  exact ⟨q, inv'⟩

/-- Every run of the allocator is one of the pool, with the same answers. -/
theorem pmm_refines_pool (run : Run FrameStep ⟨pmmInit memSize, []⟩ calls f) :
    ∃ p, Run PoolStep ⟨bootFrames memSize, ∅⟩ calls p ∧ RepresentsPool memSize f p := by
  have simulates (f call g p) (inv : FrameInv memSize f p) (taken : FrameStep f call g) :
      ∃ q, PoolStep p call q ∧ FrameInv memSize g q := inv.step taken
  obtain ⟨p, matched, final⟩ := run.simulate (FrameInv memSize) simulates (FrameInv.initial memSize).1
  exact ⟨p, matched, final.rep⟩

/-- Two frames above 1 MB: the lowest is handed out, freed and handed out again. -/
theorem pmm_refines_pool_two_frames :
    ∃ f p, Run FrameStep ⟨pmmInit 0x102000, []⟩
        [.alloc 0x100000, .free 0x100000, .alloc 0x100000] f ∧
      Run PoolStep ⟨bootFrames 0x102000, ∅⟩ [.alloc 0x100000, .free 0x100000, .alloc 0x100000] p ∧
      RepresentsPool 0x102000 f p := by
  have calls (s : Pmm) (first : (pmmAllocBlock s).2 = 0x100000)
      (again : (pmmAllocBlock (pmmFreeBlock (pmmAllocBlock s).1 0x100000)).2 = 0x100000) :
      ∃ f, Run FrameStep ⟨s, []⟩ [.alloc 0x100000, .free 0x100000, .alloc 0x100000] f :=
    ⟨_, .cons (.alloc (Prod.snd_eq_iff.mp first)) (.cons (.free (List.mem_cons_self ..))
      (.single (.alloc (Prod.snd_eq_iff.mp again))))⟩
  obtain ⟨f, run⟩ := calls (pmmInit 0x102000) (by decide +kernel) (by decide +kernel)
  obtain ⟨p, matched, rep⟩ := pmm_refines_pool run
  exact ⟨f, p, run, matched, rep⟩

end FriscaOS
