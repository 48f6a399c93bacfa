import FriscaOS.Lib.Transition
import FriscaOS.Memory.HeapRefinement

/-! The heap as a system: `kmalloc` and `kfree` calls of any clients, interleaved with stores of
clients to what they own, and the invariant that holds in every reachable state. -/
namespace FriscaOS

open ByteMemory FreeList Transition

/-- A region `heap_init` can be given: 16384 bytes, 4096-aligned, not at the null address, and
such that the address one past its end exists. -/
structure HeapRegion where
  base : UInt32
  aligned : base.toNat % 4096 = 0
  nonnull : base ≠ NULL
  fits : base.toNat + 16384 < 2 ^ 32

/-- The heap together with the pointers handed out and not yet freed. -/
structure HeapRun where
  heap : Heap
  live : List UInt32

inductive HeapOp
  | kmalloc (size : UInt32)
  | kfree (ptr : UInt32)
  -- stores by the owners of some live blocks, as the memory they leave
  | client (owners : List UInt32) (mem : Mem)

/-- The payload of the block at `ptr`, as long as its header says. -/
def payloadBytes (m : Mem) (ptr : UInt32) : Set Nat :=
  {x | ptr.toNat ≤ x ∧ x < ptr.toNat + (payloadSize m ptr).toNat}

/-- What the owners of some blocks may store to: the payloads of these blocks, and memory
outside the heap region. -/
def clientBytes (R : HeapRegion) (m : Mem) (owners : List UInt32) : Set Nat :=
  {x | x < R.base.toNat ∨ R.base.toNat + 16384 ≤ x ∨ ∃ q ∈ owners, x ∈ payloadBytes m q}

inductive HeapStep (R : HeapRegion) : HeapRun → HeapOp → HeapRun → Prop
  | kmalloc {s size h p} : kmalloc s.heap size = some (h, p) →
      HeapStep R s (.kmalloc size) ⟨h, if p = NULL then s.live else p :: s.live⟩
  | kfree {s ptr h} : ptr = NULL ∨ ptr ∈ s.live → kfree s.heap ptr = some h →
      HeapStep R s (.kfree ptr) ⟨h, s.live.erase ptr⟩
  | client {s owners mem} : (∀ q ∈ owners, q ∈ s.live) →
      Within (clientBytes R s.heap.mem owners) s.heap.mem mem →
      HeapStep R s (.client owners mem) ⟨⟨mem, s.heap.heapStart⟩, s.live⟩

/-- The state `heap_init` leaves. -/
def HeapRun.init (R : HeapRegion) (m : Mem) : HeapRun := ⟨heapInitAt m R.base, []⟩

/-- Reachable from `heap_init` on the region, whatever the memory held before. -/
def HeapReachable (R : HeapRegion) (s : HeapRun) : Prop :=
  ∃ m ops, Run (HeapStep R) (HeapRun.init R m) ops s

/-- The heap invariant: memory holds a coalesced tiling of the region whose allocated blocks
are the live pointers. -/
structure HeapInv (R : HeapRegion) (s : HeapRun) (bs : List Block) : Prop where
  start : s.heap.heapStart = R.base
  rep : Represents s.heap.mem s.heap.heapStart bs
  tiles : Tiles 12 R.base.toNat (R.base.toNat + 16384) bs
  separated : Separated bs
  aligned : ∀ b ∈ bs, 4 ∣ b.size
  nodup : s.live.Nodup
  owned : ∀ p, p ∈ s.live ↔ ∃ b ∈ live bs, p.toNat = b.addr + 12

/-- The list `heap_init` builds. -/
def initialBlocks (R : HeapRegion) : List Block := [⟨R.base.toNat, 16372, true⟩]

theorem heapInv_init (R : HeapRegion) (m : Mem) :
    HeapInv R (HeapRun.init R m) (initialBlocks R) where
  start := rfl
  rep := by
    refine ⟨R.nonnull, rfl, ?_, ?_, ?_⟩
    all_goals
      simp (disch := omega) [HeapRun.init, heapInitAt, nodeSize, nodeIsFree, nodeNext,
        setNodeSize, setNodeIsFree, setNodeNext, Mem.read32_write32_apart, Represents]
    decide
  tiles := ⟨rfl, by simp only [Tiles, Block.stop, Nat.add_assoc]⟩
  separated := .singleton _
  aligned := by simp [initialBlocks]
  nodup := .nil
  owned := by simp [HeapRun.init, initialBlocks, live]

/-- The region after boot, where `pmm_init` puts the first free block: from 1 MB on. -/
def bootRegion : HeapRegion := ⟨0x100000, by decide, by decide, by decide⟩

/-- The heap after boot, in memory that held zeros. -/
def bootHeap : HeapRun := HeapRun.init bootRegion fun _ => 0

theorem bootHeap_inv : HeapInv bootRegion bootHeap (initialBlocks bootRegion) :=
  heapInv_init bootRegion _

theorem bootHeap_reachable : HeapReachable bootRegion bootHeap := ⟨_, [], .nil _⟩

variable {R : HeapRegion} {s t : HeapRun} {bs cs : List Block} {b c : Block} {p q size : UInt32}

/-! ### Reading the invariant -/

/-- The aligned region ends well below the top of the address space. -/
theorem HeapRegion.top (R : HeapRegion) : R.base.toNat + 16384 + 16 < 2 ^ 32 := by
  have aligned := R.aligned
  have fits := R.fits
  omega

theorem Represents.fields {m : Mem} (rep : Represents m p bs) (member : b ∈ bs)
    (here : q.toNat = b.addr) :
    (nodeSize m q).toNat = b.size ∧ nodeIsFree m q = if b.free then 1 else 0 := by
  induction bs generalizing p with
  | nil => simp at member
  | cons c cs ih =>
    obtain ⟨_, addr, size, free, rest⟩ := rep
    rcases List.mem_cons.mp member with rfl | later
    · have same : p = q := UInt32.toNat_inj.mp (addr.trans here.symm)
      exact same ▸ ⟨size, free⟩
    · exact ih rest later

theorem HeapInv.bounds (inv : HeapInv R s bs) (member : b ∈ bs) :
    0 < b.addr ∧ R.base.toNat ≤ b.addr ∧ b.addr + 12 + b.size ≤ R.base.toNat + 16384 := by
  have bounds := inv.tiles.mem member
  have positive := toNat_pos R.nonnull
  omega

/-- The recorded size of a pointer is that of its block. -/
theorem HeapInv.payloadSize_eq (inv : HeapInv R s bs) (there : b ∈ bs)
    (payload : p.toNat = b.addr + 12) : (payloadSize s.heap.mem p).toNat = b.size := by
  apply And.left
  apply inv.rep.fields there
  rw [toNat_sub_of_le] <;> simp [payload]

/-- The block behind a live pointer. -/
theorem HeapInv.block (inv : HeapInv R s bs) (member : p ∈ s.live) :
    ∃ b ∈ bs, b.free = false ∧ p.toNat = b.addr + 12 ∧
      (payloadSize s.heap.mem p).toNat = b.size := by
  obtain ⟨b, taken, payload⟩ := (inv.owned p).mp member
  obtain ⟨there, busy⟩ := mem_live.mp taken
  exact ⟨b, there, busy, payload, inv.payloadSize_eq there payload⟩

/-- The live pointer of an allocated block. -/
theorem HeapInv.pointer (inv : HeapInv R s bs) (taken : b ∈ live bs) :
    ∃ p ∈ s.live, p.toNat = b.addr + 12 ∧ (payloadSize s.heap.mem p).toNat = b.size := by
  obtain ⟨there, _⟩ := mem_live.mp taken
  have bounds := inv.bounds there
  have fits := R.fits
  have payload : (UInt32.ofNat (b.addr + 12)).toNat = b.addr + 12 :=
    UInt32.toNat_ofNat_of_lt' (by simp only [UInt32.size]; omega)
  exact ⟨_, (inv.owned _).mpr ⟨b, taken, payload⟩, payload, inv.payloadSize_eq there payload⟩

theorem HeapInv.payload_nonnull (inv : HeapInv R s bs) (member : p ∈ s.live) : p ≠ NULL := by
  obtain ⟨b, _, _, payload, _⟩ := inv.block member
  rintro rfl
  rw [toNat_NULL] at payload
  omega

/-- The payload of a live block meets no header. -/
theorem HeapInv.payload_header (inv : HeapInv R s bs) (member : p ∈ s.live) {x : Nat}
    (inside : x ∈ payloadBytes s.heap.mem p) : x ∉ headerBytes bs := by
  obtain ⟨b, there, _, payload, size⟩ := inv.block member
  obtain ⟨lower, upper⟩ := inside
  rintro ⟨c, other, start, stop⟩
  rcases inv.tiles.apart there other with rfl | before | after
  all_goals omega

/-- The payload of a live block meets no free block. -/
theorem HeapInv.payload_free (inv : HeapInv R s bs) (member : p ∈ s.live) {x : Nat}
    (inside : x ∈ payloadBytes s.heap.mem p) : x ∉ freeBytes bs := by
  obtain ⟨b, there, busy, payload, size⟩ := inv.block member
  obtain ⟨lower, upper⟩ := inside
  rintro ⟨c, other, free, start, stop⟩
  rcases inv.tiles.apart there other with rfl | before | after
  · rw [free] at busy
    cases busy
  all_goals
    rw [Block.stop] at stop
    omega

theorem HeapInv.payload_region (inv : HeapInv R s bs) (member : p ∈ s.live) :
    R.base.toNat ≤ p.toNat ∧
      p.toNat + (payloadSize s.heap.mem p).toNat ≤ R.base.toNat + 16384 := by
  obtain ⟨b, there, _, payload, size⟩ := inv.block member
  have bounds := inv.bounds there
  omega

/-- Payloads of different live blocks lie one before the other. -/
theorem HeapInv.payloads_apart (inv : HeapInv R s bs) (hp : p ∈ s.live) (hq : q ∈ s.live)
    (other : p ≠ q) : p.toNat + (payloadSize s.heap.mem p).toNat ≤ q.toNat ∨
      q.toNat + (payloadSize s.heap.mem q).toNat ≤ p.toNat := by
  obtain ⟨b, there, _, payload, size⟩ := inv.block hp
  obtain ⟨c, there', _, payload', size'⟩ := inv.block hq
  rcases inv.tiles.apart there there' with rfl | before | after
  · exact absurd (UInt32.toNat_inj.mp (payload.trans payload'.symm)) other
  all_goals omega

/-- Every header lies in the region. -/
theorem HeapInv.header_region (inv : HeapInv R s bs) {x : Nat} (header : x ∈ headerBytes bs) :
    R.base.toNat ≤ x ∧ x < R.base.toNat + 16384 := by
  obtain ⟨b, member, lower, upper⟩ := header
  have bounds := inv.bounds member
  omega

/-! ### What each operation does -/

/-- A successful `kmalloc` hands out the first fit, keeps the invariant with the new pointer
live, and changes bytes of free blocks only. -/
theorem HeapInv.kmalloc_some (inv : HeapInv R s bs) (nonzero : size ≠ 0)
    (found : allocate 12 16 (roundUp size).toNat bs = some (c, cs)) :
    ∃ h p, kmalloc s.heap size = some (h, p) ∧ p.toNat = c.addr + 12 ∧ p ≠ NULL ∧
      HeapInv R ⟨h, p :: s.live⟩ cs ∧ Within (freeBytes bs) s.heap.mem h.mem := by
  obtain ⟨m, p, result, payload, rep, change⟩ :=
    FriscaOS.kmalloc_some inv.rep inv.tiles R.top nonzero found
  obtain ⟨pre, b, post, first, rfl, rfl⟩ := allocate_some.mp found
  have member : b ∈ bs := by simp [first.split]
  have nonnull : p ≠ NULL := by
    rintro rfl
    rw [toNat_NULL] at payload
    omega
  -- the block was free before, so its pointer was not handed out
  have fresh : p ∉ s.live := by
    intro old
    obtain ⟨d, there, busy, payload', _⟩ := inv.block old
    have same : d.addr = b.addr := by
      have start : p.toNat = b.addr + 12 := payload
      omega
    rw [inv.tiles.eq_of_addr (by decide) there member same, first.free] at busy
    cases busy
  have request : 4 ∣ (roundUp size).toNat := by
    rw [toNat_roundUp]
    exact Nat.dvd_mul_left 4 _
  refine ⟨_, p, result, payload, nonnull, ⟨inv.start, rep, first.tiles inv.tiles,
    first.separated inv.separated, first.dvd_size (by decide) request inv.aligned,
    List.nodup_cons.mpr ⟨fresh, inv.nodup⟩, fun q => ?_⟩, change⟩
  -- exactly one block has become allocated: the one handed out
  rw [first.live_after, List.mem_cons, inv.owned q, first.live_before]
  simp only [List.mem_append, List.mem_cons]
  constructor
  · rintro (rfl | ⟨d, left | right, start⟩)
    · exact ⟨_, .inr (.inl rfl), payload⟩
    · exact ⟨d, .inl left, start⟩
    · exact ⟨d, .inr (.inr right), start⟩
  · rintro ⟨d, left | rfl | right, start⟩
    · exact .inr ⟨d, .inl left, start⟩
    · exact .inl (UInt32.toNat_inj.mp (start.trans payload.symm))
    · exact .inr ⟨d, .inr right, start⟩

/-- Everything that `kmalloc` can do. -/
inductive KmallocOutcome (R : HeapRegion) (s : HeapRun) (bs : List Block) (size : UInt32) :
    Heap → UInt32 → Prop
  | failed : (size ≠ 0 → allocate 12 16 (roundUp size).toNat bs = none) →
      KmallocOutcome R s bs size s.heap NULL
  | granted {h p c cs} : size ≠ 0 → allocate 12 16 (roundUp size).toNat bs = some (c, cs) →
      p.toNat = c.addr + 12 → p ≠ NULL → HeapInv R ⟨h, p :: s.live⟩ cs →
      Within (freeBytes bs) s.heap.mem h.mem → KmallocOutcome R s bs size h p

theorem HeapInv.kmalloc_spec (inv : HeapInv R s bs) (size : UInt32) :
    ∃ h p, kmalloc s.heap size = some (h, p) ∧ KmallocOutcome R s bs size h p := by
  by_cases zero : size = 0
  · exact ⟨s.heap, NULL, by simp [kmalloc, zero], .failed (absurd zero)⟩
  · cases search : allocate 12 16 (roundUp size).toNat bs with
    | none =>
      have failed := kmalloc_none inv.rep inv.tiles R.top zero search
      exact ⟨s.heap, NULL, failed, .failed fun _ => search⟩
    | some found =>
      obtain ⟨h, p, result, payload, nonnull, inv', change⟩ := inv.kmalloc_some zero search
      exact ⟨h, p, result, .granted zero search payload nonnull inv' change⟩

theorem HeapInv.kmalloc_cases {h : Heap} (inv : HeapInv R s bs)
    (result : kmalloc s.heap size = some (h, p)) : KmallocOutcome R s bs size h p := by
  obtain ⟨h', p', result', outcome⟩ := inv.kmalloc_spec size
  rw [result', Option.some.injEq, Prod.mk.injEq] at result
  obtain ⟨rfl, rfl⟩ := result
  exact outcome

/-- `kfree` of a live pointer returns, releases its block, and changes headers only. -/
theorem HeapInv.kfree_some (inv : HeapInv R s bs) (member : p ∈ s.live) :
    ∃ h, kfree s.heap p = some h ∧
      HeapInv R ⟨h, s.live.erase p⟩ (release 12 (p.toNat - 12) bs) ∧
      Within (headerBytes bs) s.heap.mem h.mem := by
  obtain ⟨b, there, busy, payload, _⟩ := inv.block member
  have start : p.toNat - 12 = b.addr := by omega
  obtain ⟨m, result, rep, change⟩ := kfree_represents inv.rep inv.tiles R.fits there payload
  rw [start]
  refine ⟨_, result, ⟨inv.start, rep, tiles_release inv.tiles, separated_release _,
    dvd_size_release (by decide) inv.aligned, inv.nodup.erase p, fun q => ?_⟩, change⟩
  -- exactly the block behind the pointer is no longer allocated
  rw [inv.nodup.mem_erase_iff, inv.owned q, live_release]
  constructor
  · rintro ⟨other, d, taken, startQ⟩
    refine ⟨d, List.mem_filter.mpr ⟨taken, ?_⟩, startQ⟩
    simp only [decide_not, Bool.not_eq_true', decide_eq_false_iff_not]
    exact fun same => other (UInt32.toNat_inj.mp (by omega))
  · rintro ⟨d, taken, startQ⟩
    obtain ⟨old, other⟩ := List.mem_filter.mp taken
    simp only [decide_not, Bool.not_eq_true', decide_eq_false_iff_not] at other
    refine ⟨?_, d, old, startQ⟩
    rintro rfl
    exact other (by omega)

/-- Stores of clients to what they own leave every header alone. -/
theorem HeapInv.client (inv : HeapInv R s bs) {owners : List UInt32} {m : Mem}
    (allowed : ∀ q ∈ owners, q ∈ s.live)
    (change : Within (clientBytes R s.heap.mem owners) s.heap.mem m) :
    HeapInv R ⟨⟨m, s.heap.heapStart⟩, s.live⟩ bs := by
  refine ⟨inv.start, inv.rep.congr fun x header => change x ?_, inv.tiles, inv.separated,
    inv.aligned, inv.nodup, inv.owned⟩
  -- headers lie in the region, and no payload meets one
  have region := inv.header_region header
  rintro (below | above | ⟨q, owner, inside⟩)
  · omega
  · omega
  · exact inv.payload_header (allowed q owner) inside header

/-! ### Steps -/

/-- A live block that is still allocated afterwards keeps its recorded size. -/
theorem HeapInv.payloadSize_kept (inv : HeapInv R s bs) (inv' : HeapInv R t cs)
    (member : p ∈ s.live) (kept : ∀ b ∈ live bs, p.toNat = b.addr + 12 → b ∈ live cs) :
    payloadSize t.heap.mem p = payloadSize s.heap.mem p := by
  obtain ⟨b, there, busy, payload, size⟩ := inv.block member
  have still := kept b (mem_live.mpr ⟨there, busy⟩) payload
  have size' := inv'.payloadSize_eq (mem_live.mp still).1 payload
  exact UInt32.toNat_inj.mp (size'.trans size.symm)

/-- The block at the pointer is as it was. -/
structure Untouched (s t : HeapRun) (p : UInt32) : Prop where
  live : p ∈ t.live
  size : payloadSize t.heap.mem p = payloadSize s.heap.mem p
  bytes : ∀ x ∈ payloadBytes s.heap.mem p, t.heap.mem x = s.heap.mem x

theorem Untouched.refl (member : p ∈ s.live) : Untouched s s p := ⟨member, rfl, fun _ _ => rfl⟩

theorem Untouched.trans {u : HeapRun} (first : Untouched s t p) (second : Untouched t u p) :
    Untouched s u p where
  live := second.live
  size := second.size.trans first.size
  bytes x inside := by
    have still : x ∈ payloadBytes t.heap.mem p := by
      rw [payloadBytes, first.size]
      exact inside
    exact (second.bytes x still).trans (first.bytes x inside)

/-- Whatever `kmalloc` returned, the invariant holds with that pointer live, and every live
block is as it was. -/
theorem HeapInv.kmalloc_step {h : Heap} (inv : HeapInv R s bs)
    (result : kmalloc s.heap size = some (h, p)) :
    let t : HeapRun := ⟨h, if p = NULL then s.live else p :: s.live⟩
    ∃ cs, HeapInv R t cs ∧ ∀ q ∈ s.live, Untouched s t q := by
  intro t
  cases inv.kmalloc_cases result with
  | failed =>
    simp only [t, ↓reduceIte]
    exact ⟨bs, inv, fun q => .refl⟩
  | granted nonzero search _ nonnull inv' change =>
    obtain ⟨pre, b, post, first, _, list⟩ := allocate_some.mp search
    simp only [t, if_neg nonnull]
    refine ⟨_, inv', fun q member => ⟨List.mem_cons_of_mem _ member, ?_, ?_⟩⟩
    · -- an allocation only adds to the allocated blocks
      apply inv.payloadSize_kept inv' member
      intro c taken _
      rw [first.live_before, List.mem_append] at taken
      rw [list, first.live_after, List.mem_append, List.mem_cons]
      exact taken.imp_right .inr
    · exact fun x inside => change x (inv.payload_free member inside)

/-- Whatever legal pointer `kfree` was called with, the invariant holds without it, and every
other live block is as it was. -/
theorem HeapInv.kfree_step {h : Heap} (inv : HeapInv R s bs) (legal : p = NULL ∨ p ∈ s.live)
    (result : kfree s.heap p = some h) :
    let t : HeapRun := ⟨h, s.live.erase p⟩
    ∃ cs, HeapInv R t cs ∧ ∀ q ∈ s.live, q ≠ p → Untouched s t q := by
  intro t
  rcases legal with rfl | member
  · simp only [kfree, ↓reduceIte, Option.some.injEq] at result
    subst result
    -- the null pointer is never live, so there is nothing to erase
    have absent : NULL ∉ s.live := fun member => inv.payload_nonnull member rfl
    simp only [t, List.erase_of_not_mem absent]
    exact ⟨bs, inv, fun q member _ => .refl member⟩
  · obtain ⟨h', result', inv', change⟩ := inv.kfree_some member
    rw [result', Option.some.injEq] at result
    subst result
    refine ⟨_, inv', fun q memberQ other => ⟨(List.mem_erase_of_ne other).mpr memberQ, ?_, ?_⟩⟩
    · -- only the block that is freed leaves the allocated blocks
      apply inv.payloadSize_kept inv' memberQ
      intro b taken payload
      rw [live_release, List.mem_filter]
      refine ⟨taken, ?_⟩
      simp only [decide_not, Bool.not_eq_true', decide_eq_false_iff_not]
      obtain ⟨c, _, _, payload', _⟩ := inv.block member
      exact fun same => other (UInt32.toNat_inj.mp (by omega))
    · exact fun x inside => change x (inv.payload_header memberQ inside)

/-- Stores of clients leave the blocks of the others as they were. -/
theorem HeapInv.client_step (inv : HeapInv R s bs) {owners : List UInt32} {m : Mem}
    (allowed : ∀ q ∈ owners, q ∈ s.live)
    (change : Within (clientBytes R s.heap.mem owners) s.heap.mem m) :
    let t : HeapRun := ⟨⟨m, s.heap.heapStart⟩, s.live⟩
    ∃ cs, HeapInv R t cs ∧ ∀ q ∈ s.live, q ∉ owners → Untouched s t q := by
  intro t
  have inv' := inv.client allowed change
  refine ⟨bs, inv', fun q member other => ⟨member, ?_, fun x inside => change x ?_⟩⟩
  · exact inv.payloadSize_kept inv' member fun b taken _ => taken
  · have region := inv.payload_region member
    obtain ⟨lower, upper⟩ := inside
    rintro (below | above | ⟨r, owner, start, stop⟩)
    · omega
    · omega
    · have different : q ≠ r := fun same => other (same ▸ owner)
      have apart := inv.payloads_apart member (allowed r owner) different
      omega

/-- The invariant is preserved by every step. -/
theorem HeapInv.step {op : HeapOp} (inv : HeapInv R s bs) (taken : HeapStep R s op t) :
    ∃ cs, HeapInv R t cs := by
  cases taken with
  | kmalloc result =>
    obtain ⟨cs, inv', _⟩ := inv.kmalloc_step result
    exact ⟨cs, inv'⟩
  | kfree legal result =>
    obtain ⟨cs, inv', _⟩ := inv.kfree_step legal result
    exact ⟨cs, inv'⟩
  | client allowed change =>
    obtain ⟨cs, inv', _⟩ := inv.client_step allowed change
    exact ⟨cs, inv'⟩

/-- The invariant holds in every reachable state. -/
theorem HeapReachable.inv (reach : HeapReachable R s) : ∃ bs, HeapInv R s bs := by
  obtain ⟨m, ops, run⟩ := reach
  exact run.invariant (fun s => ∃ bs, HeapInv R s bs) (fun _ _ _ ⟨_, inv⟩ => inv.step)
    ⟨_, heapInv_init R m⟩

end FriscaOS
