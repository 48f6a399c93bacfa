import FriscaOS.Memory.Layers

/-! `heap_init` on an allocator with any history. The heap covers 16 KB from the first block on,
whatever the other three calls return. -/
namespace FriscaOS

open ByteMemory FramePool Transition

/-- The blocks that `heap_init` obtains. -/
def heapBlocks (s : Pmm) : List UInt32 := (pmmAllocBlocks 4 s).2.filter (· ≠ 0)

/-- The 16384 bytes from `heap_start` on. -/
def Heap.regionBytes (h : Heap) : Set Nat :=
  {x | h.heapStart.toNat ≤ x ∧ x < h.heapStart.toNat + 16384}

/-- No pointer is handed out. -/
def Heap.Unusable (h : Heap) : Prop :=
  h.heapStart = NULL ∧ ∀ size, ∃ h', kmalloc h size = some (h', NULL)

/-- The heap that `heap_init` leaves, with memory `m` before, lies in blocks of its own. -/
structure OwnsItsMemory (f : Frames) (m : Mem) : Prop where
  region : (∀ x ∈ (heapInit f.pmm m).2.regionBytes, ∃ q ∈ heapBlocks f.pmm, x ∈ pageBytes q) ∨
    (heapInit f.pmm m).2.Unusable
  -- no header at address 0, and none in a block of someone else
  low : ∀ x < 12, (heapInit f.pmm m).2.mem x = m x
  others : ∀ q ∈ f.owned, ∀ x ∈ pageBytes q, (heapInit f.pmm m).2.mem x = m x

/-- The lowest free frame begins a run of four. -/
def FourInARow (s : Pmm) : Prop :=
  ∃ a, IsLeast (s.freeBlocks : Set Nat) a ∧ ∀ i < 4, a + i ∈ s.freeBlocks

variable {s : Pmm} {memSize addr : UInt32} {m : Mem} {f : Frames} {p : Pool Nat}
  {calls : List FrameCall} {a : Nat}

theorem heapInitAt_within (m : Mem) (addr : UInt32) :
    Within {x | addr.toNat ≤ x ∧ x < addr.toNat + 12} m (heapInitAt m addr).mem := by
  refine (Within.write32 _ fun x lower upper => ?_).trans
    ((Within.write32 _ fun x lower upper => ?_).trans (.write32 _ fun x lower upper => ?_))
  all_goals
    rw [Set.mem_ofPred_eq]
    omega

theorem toNat_frame (small : a < 4096) : (UInt32.ofNat (a * 4096)).toNat = a * 4096 :=
  UInt32.toNat_ofNat_of_lt' (by simp only [UInt32.size]; omega)

/-- Free frames are managed ones, from 1 MB on. -/
theorem FrameInv.free_bounds (inv : FrameInv memSize f p) (free : a ∈ f.pmm.freeBlocks) :
    256 ≤ a ∧ a < 4096 := by
  have limit : managedBlocks memSize ≤ 4096 := Nat.min_le_right ..
  obtain ⟨above, below⟩ := mem_bootFrames.mp (inv.rep.all.free_subset (inv.rep.free ▸ free))
  exact ⟨above, by omega⟩

/-- A frame that is free belongs to nobody. -/
theorem FrameInv.free_apart (inv : FrameInv memSize f p) (free : a ∈ f.pmm.freeBlocks)
    {q : UInt32} (owned : q ∈ f.owned) {x : Nat} (inside : x ∈ pageBytes q) : x / 4096 ≠ a := by
  rintro rfl
  obtain ⟨lower, upper⟩ := inside
  have aligned := Nat.mod_eq_zero_of_dvd (inv.rep.aligned q owned)
  have same : x / 4096 = q.toNat / 4096 := by omega
  exact (inv.rep.used_of_owned owned).2 (same ▸ free)

/-- In a run of four frames the heap owns its memory. -/
theorem FrameInv.ownsItsMemory (inv : FrameInv memSize f p) (four : FourInARow f.pmm) (m : Mem) :
    OwnsItsMemory f m := by
  obtain ⟨a, least, free⟩ := four
  have bounds := inv.free_bounds least.1
  have last := inv.free_bounds (free 3 (by decide))
  obtain ⟨t, q, obtained, -, -⟩ := inv.alloc_contiguous (n := 4) least.2 free
  have heap : heapInit f.pmm m = (t, heapInitAt m (.ofNat (a * 4096))) := heapInit_eq obtained
  have change := heapInitAt_within m (.ofNat (a * 4096))
  rw [toNat_frame bounds.2] at change
  refine ⟨.inl fun x inside => ?_, fun x low => ?_, fun q owned x inside => ?_⟩
  · rw [heap, Heap.regionBytes, heapInitAt] at inside
    dsimp only at inside
    rw [toNat_frame bounds.2] at inside
    obtain ⟨lower, upper⟩ := inside
    have place := toNat_frame (a := x / 4096) (by omega)
    refine ⟨.ofNat (x / 4096 * 4096), ?_, ?_⟩
    · rw [heapBlocks, obtained, List.mem_filter, frameAddrs, List.mem_map]
      refine ⟨⟨x / 4096, List.mem_range'_1.mpr ⟨by omega, by omega⟩, rfl⟩, decide_eq_true ?_⟩
      rw [ne_eq, ← UInt32.toNat_inj, place, UInt32.toNat_zero]
      omega
    · rw [pageBytes, Set.mem_ofPred_eq, place]
      omega
  · rw [heap]
    refine change x ?_
    rintro ⟨lower, -⟩
    omega
  · rw [heap]
    refine change x ?_
    rintro ⟨lower, upper⟩
    exact inv.free_apart least.1 owned inside (by omega)

/-- A heap that owns its memory in any case lies in a run of four frames. -/
theorem FrameInv.fourInARow (inv : FrameInv memSize f p) (owns : ∀ m, OwnsItsMemory f m) :
    FourInARow f.pmm := by
  rcases f.pmm.freeBlocks.eq_empty_or_nonempty with none_ | some_
  · -- the first call fails, and the header is stored at 0
    have first := inv.exhausted none_
    have stored := (owns fun _ => 0).low 4 (by decide)
    have heap : (heapInit f.pmm fun _ => 0).2 = heapInitAt (fun _ => 0) 0 :=
      congrArg (fun call : Pmm × UInt32 => heapInitAt (fun _ => 0) call.2) first
    rw [heap] at stored
    exact absurd stored (by decide)
  · obtain ⟨t, a, q, first, least, -, -⟩ := inv.alloc some_
    have bounds := inv.free_bounds least.1
    have start : (heapInit f.pmm fun _ => 0).2.heapStart = .ofNat (a * 4096) :=
      congrArg Prod.snd first
    refine ⟨a, least, fun i below => ?_⟩
    rcases (owns fun _ => 0).region with covered | unusable
    · have inside : (a + i) * 4096 ∈ (heapInit f.pmm fun _ => 0).2.regionBytes := by
        rw [Heap.regionBytes, Set.mem_ofPred_eq, start, toNat_frame bounds.2]
        omega
      obtain ⟨q, member, lower, upper⟩ := covered _ inside
      obtain ⟨obtained, nonzero⟩ := List.mem_filter.mp member
      obtain ⟨b, free, rfl⟩ := inv.obtained_free obtained (of_decide_eq_true nonzero)
      rw [toNat_frame (inv.free_bounds free).2] at lower upper
      obtain rfl : b = a + i := by omega
      exact free
    · have zero := congrArg UInt32.toNat (start.symm.trans unusable.1)
      rw [toNat_frame bounds.2, toNat_NULL] at zero
      omega

/-- The heap owns its memory exactly if the lowest free frame begins a run of four free frames. -/
theorem heapInit_owned_iff (run : Run FrameStep ⟨pmmInit memSize, []⟩ calls f) :
    (∀ m, OwnsItsMemory f m) ↔ FourInARow f.pmm := by
  obtain ⟨p, inv⟩ := FrameInv.of_run run
  exact ⟨inv.fourInARow, inv.ownsItsMemory⟩

/-- After boot nothing is in the way. -/
theorem heapInit_owned_boot :
    Run FrameStep ⟨pmmInit 0x104000, []⟩ [] ⟨pmmInit 0x104000, []⟩ ∧
      ∀ m, OwnsItsMemory ⟨pmmInit 0x104000, []⟩ m := by
  have free := (FrameInv.initial 0x104000).2
  have count : managedBlocks 0x104000 = 260 := by decide
  have run : Run FrameStep ⟨pmmInit 0x104000, []⟩ [] _ := .nil _
  have four : FourInARow (pmmInit 0x104000) := by
    rw [FourInARow, free, count]
    exact ⟨256, ⟨by decide, fun i member => (Finset.mem_Ico.mp member).1⟩, by decide⟩
  exact ⟨run, (heapInit_owned_iff run).mpr four⟩

/-- Two blocks are taken and the first one is given back: the heap covers the second. -/
theorem not_heapInit_owned : ∃ f, Run FrameStep ⟨pmmInit 0x106000, []⟩
    [.alloc 0x100000, .alloc 0x101000, .free 0x100000] f ∧ f.owned = [0x101000] ∧
      ¬∀ m, OwnsItsMemory f m := by
  have calls (s : Pmm) (first : (pmmAllocBlock s).2 = 0x100000)
      (second : (pmmAllocBlock (pmmAllocBlock s).1).2 = 0x101000)
      (four : (pmmAllocBlocks 4 (pmmFreeBlock (pmmAllocBlock (pmmAllocBlock s).1).1 0x100000)).2 =
        [0x100000, 0x102000, 0x103000, 0x104000]) :
      ∃ f, Run FrameStep ⟨s, []⟩ [.alloc 0x100000, .alloc 0x101000, .free 0x100000] f ∧
        f.owned = [0x101000] ∧
        (pmmAllocBlocks 4 f.pmm).2 = [0x100000, 0x102000, 0x103000, 0x104000] :=
    ⟨_, .cons (.alloc (Prod.snd_eq_iff.mp first)) (.cons (.alloc (Prod.snd_eq_iff.mp second))
      (.single (.free (.tail _ (.head _))))), rfl, four⟩
  obtain ⟨f, run, owned, four⟩ :=
    calls (pmmInit 0x106000) (by decide +kernel) (by decide +kernel) (by decide +kernel)
  refine ⟨f, run, owned, fun owns => ?_⟩
  have obtained := Prod.snd_eq_iff.mp four
  have start : (heapInit f.pmm fun _ => 0).2.heapStart = 0x100000 := by
    rw [heapInit_eq obtained]
    rfl
  rcases (owns fun _ => 0).region with covered | unusable
  · obtain ⟨q, member, lower, upper⟩ := covered 0x101000 (by
      rw [Heap.regionBytes, Set.mem_ofPred_eq, start]
      decide)
    rw [heapBlocks, four, List.mem_filter] at member
    have apart : ∀ q ∈ ([0x100000, 0x102000, 0x103000, 0x104000] : List UInt32),
        ¬(q.toNat ≤ 0x101000 ∧ 0x101000 < q.toNat + 4096) :=
      List.all_iff_forall_prop.mp (by decide)
    exact apart q member.1 ⟨lower, upper⟩
  · rw [unusable.1] at start
    exact absurd start (by decide)

end FriscaOS
