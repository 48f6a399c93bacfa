import Mathlib.Data.List.Chain
import Mathlib.Tactic.Common

/-! Block lists of a first-fit allocator: an arena cut end to end into blocks, each a header
followed by its payload, with splitting on allocation and coalescing on release. The header
length is a parameter. -/
namespace FreeList

/-- A block: its header starts at `addr`, and `size` payload units follow it. -/
structure Block where
  addr : Nat
  size : Nat
  free : Bool
  deriving DecidableEq, Repr

variable (hdr : Nat)

/-- The address one past the payload. -/
def Block.stop (b : Block) : Nat := b.addr + hdr + b.size

/-- The blocks lie end to end and fill `[lo, hi)`. -/
def Tiles : Nat → Nat → List Block → Prop
  | lo, hi, [] => lo = hi
  | lo, hi, b :: bs => b.addr = lo ∧ Tiles (b.stop hdr) hi bs

/-- No two neighbouring blocks are both free. -/
def Separated (bs : List Block) : Prop :=
  bs.IsChain fun a b => ¬(a.free = true ∧ b.free = true)

/-- The allocated blocks, in list order. -/
def live (bs : List Block) : List Block := bs.filter fun b => !b.free

@[simp] theorem mem_live {bs : List Block} {b : Block} :
    b ∈ live bs ↔ b ∈ bs ∧ b.free = false := by simp [live]

/-! ### Tilings -/

variable {hdr} {lo hi : Nat} {as bs : List Block} {a b : Block}

theorem tiles_append :
    Tiles hdr lo hi (as ++ bs) ↔ ∃ mid, Tiles hdr lo mid as ∧ Tiles hdr mid hi bs := by
  induction as generalizing lo with
  | nil => simp [Tiles]
  | cons a as ih => simp [Tiles, ih, and_assoc]

theorem Tiles.le (tiles : Tiles hdr lo hi bs) : lo ≤ hi := by
  induction bs generalizing lo with
  | nil => exact Nat.le_of_eq tiles
  | cons b bs ih =>
    have start : b.addr = lo := tiles.1
    have tail : b.addr + hdr + b.size ≤ hi := ih tiles.2
    omega

/-- Every block lies in the arena. -/
theorem Tiles.mem (tiles : Tiles hdr lo hi bs) (member : b ∈ bs) :
    lo ≤ b.addr ∧ b.addr + hdr + b.size ≤ hi := by
  induction bs generalizing lo with
  | nil => simp at member
  | cons c cs ih =>
    obtain ⟨start, tail⟩ := tiles
    rcases List.mem_cons.mp member with rfl | later
    · exact ⟨by omega, tail.le⟩
    · have first : c.addr + hdr + c.size ≤ b.addr := (ih tail later).1
      exact ⟨by omega, (ih tail later).2⟩

/-- The first block ends before the others start. -/
theorem Tiles.after (tiles : Tiles hdr lo hi (a :: bs)) (member : b ∈ bs) :
    a.addr + hdr + a.size ≤ b.addr :=
  (tiles.2.mem member).1

/-- Earlier blocks end before later ones start. -/
theorem Tiles.pairwise (tiles : Tiles hdr lo hi bs) :
    bs.Pairwise fun a b => a.addr + hdr + a.size ≤ b.addr := by
  induction bs generalizing lo with
  | nil => exact .nil
  | cons b bs ih => exact .cons (fun c => tiles.after) (ih tiles.2)

/-- Each block starts where the one before it ends. -/
theorem Tiles.linked (tiles : Tiles hdr lo hi bs) :
    bs.IsChain fun a b => b.addr = a.addr + hdr + a.size := by
  induction bs generalizing lo with
  | nil => exact .nil
  | cons b bs ih =>
    refine List.isChain_cons.mpr ⟨fun c head => ?_, ih tiles.2⟩
    cases bs with
    | nil => simp at head
    | cons d ds =>
      obtain rfl : d = c := by simpa using head
      exact tiles.2.1

/-- Two blocks of a tiling are the same block or do not overlap. -/
theorem Tiles.apart (tiles : Tiles hdr lo hi bs) (ha : a ∈ bs) (hb : b ∈ bs) :
    a = b ∨ a.addr + hdr + a.size ≤ b.addr ∨ b.addr + hdr + b.size ≤ a.addr := by
  induction bs generalizing lo with
  | nil => simp at ha
  | cons c cs ih =>
    rcases List.mem_cons.mp ha with rfl | laterA
    · rcases List.mem_cons.mp hb with rfl | laterB
      · exact .inl rfl
      · exact .inr (.inl (tiles.after laterB))
    · rcases List.mem_cons.mp hb with rfl | laterB
      · exact .inr (.inr (tiles.after laterA))
      · exact ih tiles.2 laterA laterB

/-- Headers are never empty, so a start address names one block. -/
theorem Tiles.eq_of_addr (tiles : Tiles hdr lo hi bs) (pos : 0 < hdr) (ha : a ∈ bs)
    (hb : b ∈ bs) (same : a.addr = b.addr) : a = b := by
  rcases tiles.apart ha hb with equal | below | above
  · exact equal
  all_goals omega

theorem Tiles.length_le (tiles : Tiles hdr lo hi bs) : lo + hdr * bs.length ≤ hi := by
  induction bs generalizing lo with
  | nil => simpa using tiles.le
  | cons b bs ih =>
    have start : b.addr = lo := tiles.1
    have tail : b.addr + hdr + b.size + hdr * bs.length ≤ hi := ih tiles.2
    rw [List.length_cons, Nat.mul_succ]
    omega

/-- Every address of the arena lies in a block. -/
theorem Tiles.cover (tiles : Tiles hdr lo hi bs) {x : Nat} (lower : lo ≤ x) (upper : x < hi) :
    ∃ b ∈ bs, b.addr ≤ x ∧ x < b.stop hdr := by
  induction bs generalizing lo with
  | nil =>
    have : lo = hi := tiles
    omega
  | cons b bs ih =>
    by_cases inside : x < b.stop hdr
    · exact ⟨b, by simp, by have := tiles.1; omega, inside⟩
    · obtain ⟨c, member, bounds⟩ := ih tiles.2 (by omega)
      exact ⟨c, by simp [member], bounds⟩

/-! ### First fit -/

variable (hdr)

/-- The block handed out of `b` for a request of `r`: the whole of `b`, unless what is left
over can hold a header and `gap` more units. -/
def granted (gap r : Nat) (b : Block) : Block :=
  ⟨b.addr, if r + hdr + gap ≤ b.size then r else b.size, false⟩

/-- What is left over of `b` as a free block, if it is worth one. -/
def leftover (gap r : Nat) (b : Block) : List Block :=
  if r + hdr + gap ≤ b.size then [⟨b.addr + hdr + r, b.size - r - hdr, true⟩] else []

/-- First fit: carve the request out of the first free block that can hold it. -/
def allocate (gap r : Nat) : List Block → Option (Block × List Block)
  | [] => none
  | b :: bs =>
    if b.free = true ∧ r ≤ b.size then
      some (granted hdr gap r b, granted hdr gap r b :: (leftover hdr gap r b ++ bs))
    else (allocate gap r bs).map fun (c, cs) => (c, b :: cs)

/-- `b` is the first free block of the list that can hold `r`. -/
structure FirstFit (r : Nat) (bs pre : List Block) (b : Block) (post : List Block) : Prop where
  split : bs = pre ++ b :: post
  before : ∀ c ∈ pre, c.free = true → c.size < r
  free : b.free = true
  fits : r ≤ b.size

variable {hdr} {gap r : Nat} {pre post cs : List Block} {c : Block}

theorem allocate_none :
    allocate hdr gap r bs = none ↔ ∀ b ∈ bs, b.free = true → b.size < r := by
  induction bs with
  | nil => simp [allocate]
  | cons b bs ih =>
    by_cases fit : b.free = true ∧ r ≤ b.size
    · simp only [allocate, if_pos fit, reduceCtorEq, false_iff, not_forall]
      exact ⟨b, by simp, fit.1, by omega⟩
    · simp only [allocate, if_neg fit, Option.map_eq_none_iff, ih, List.forall_mem_cons]
      exact ⟨fun rest => ⟨fun free => by by_contra big; exact fit ⟨free, by omega⟩, rest⟩,
        fun all => all.2⟩

/-- What a successful allocation does to the list. -/
theorem allocate_some : allocate hdr gap r bs = some (c, cs) ↔
    ∃ pre b post, FirstFit r bs pre b post ∧ c = granted hdr gap r b ∧
      cs = pre ++ granted hdr gap r b :: (leftover hdr gap r b ++ post) := by
  constructor
  · intro found
    induction bs generalizing cs with
    | nil => simp [allocate] at found
    | cons b bs ih =>
      by_cases fit : b.free = true ∧ r ≤ b.size
      · simp only [allocate, if_pos fit, Option.some.injEq, Prod.mk.injEq] at found
        obtain ⟨rfl, rfl⟩ := found
        exact ⟨[], b, bs, ⟨rfl, by simp, fit.1, fit.2⟩, rfl, rfl⟩
      · simp only [allocate, if_neg fit, Option.map_eq_some_iff, Prod.exists, Prod.mk.injEq] at found
        obtain ⟨d, ds, later, rfl, rfl⟩ := found
        obtain ⟨pre, e, post, first, rfl, rfl⟩ := ih later
        refine ⟨b :: pre, e, post, ⟨by rw [first.split]; rfl, ?_, first.free, first.fits⟩, rfl, rfl⟩
        intro x member free
        rcases List.mem_cons.mp member with rfl | earlier
        · by_contra big
          exact fit ⟨free, by omega⟩
        · exact first.before x earlier free
  · rintro ⟨pre, b, post, ⟨rfl, before, free, fits⟩, rfl, rfl⟩
    induction pre with
    | nil => simp [allocate, free, fits]
    | cons p pre ih =>
      have small : ¬(p.free = true ∧ r ≤ p.size) := fun ⟨pfree, big⟩ => by
        have := before p (by simp) pfree
        omega
      simp only [List.cons_append, allocate, if_neg small,
        ih fun x member => before x (List.mem_cons_of_mem _ member), Option.map_some]

theorem FirstFit.tiles (first : FirstFit r bs pre b post) (tiles : Tiles hdr lo hi bs) :
    Tiles hdr lo hi (pre ++ granted hdr gap r b :: (leftover hdr gap r b ++ post)) := by
  rw [first.split, tiles_append] at tiles
  obtain ⟨mid, left, start, right⟩ := tiles
  refine tiles_append.mpr ⟨mid, left, start, ?_⟩
  have fits := first.fits
  by_cases worth : r + hdr + gap ≤ b.size
  · have size : b.addr + hdr + r + hdr + (b.size - r - hdr) = b.addr + hdr + b.size := by omega
    simpa [granted, leftover, worth, Tiles, Block.stop, size] using right
  · simpa [granted, leftover, worth, Block.stop] using right

/-- Splitting never makes two free neighbours: the leftover's neighbours are the block just
handed out and the neighbour of a block that was free already. -/
theorem FirstFit.separated (first : FirstFit r bs pre b post) (sep : Separated bs) :
    Separated (pre ++ granted hdr gap r b :: (leftover hdr gap r b ++ post)) := by
  unfold Separated at *
  rw [first.split, List.isChain_append, List.isChain_cons] at sep
  obtain ⟨left, ⟨next, right⟩, _⟩ := sep
  rw [List.isChain_append, List.isChain_cons]
  refine ⟨left, ⟨by simp [granted], ?_⟩, ?_⟩
  · by_cases worth : r + hdr + gap ≤ b.size
    · simp only [leftover, if_pos worth, List.singleton_append, List.isChain_cons]
      exact ⟨fun y head => by simpa [first.free] using next y head, right⟩
    · simpa [leftover, worth] using right
  · intro x _ y head
    simp only [List.head?_cons, Option.mem_def, Option.some.injEq] at head
    subst y
    simp [granted]

theorem FirstFit.live_before (first : FirstFit r bs pre b post) :
    live bs = live pre ++ live post := by
  simp [first.split, live, first.free]

theorem FirstFit.live_after (_ : FirstFit r bs pre b post) :
    live (pre ++ granted hdr gap r b :: (leftover hdr gap r b ++ post)) =
      live pre ++ granted hdr gap r b :: live post := by
  by_cases worth : r + hdr + gap ≤ b.size <;> simp [live, granted, leftover, worth]

theorem granted_size (hdr gap : Nat) (fits : r ≤ b.size) :
    r ≤ (granted hdr gap r b).size ∧ (granted hdr gap r b).size < r + (hdr + gap) ∨
      (granted hdr gap r b).size = r := by
  by_cases worth : r + hdr + gap ≤ b.size
  · exact .inr (by simp [granted, worth])
  · exact .inl (by simp only [granted, if_neg worth]; omega)

/-! ### Coalescing -/

variable (hdr)

/-- `a` takes over the header and the payload of the block after it. -/
def absorb (a b : Block) : Block := { a with size := a.size + (hdr + b.size) }

/-- Coalesce a list whose first block is `a`. -/
def coalesceFrom (a : Block) : List Block → List Block
  | [] => [a]
  | b :: bs =>
    if a.free = true ∧ b.free = true then coalesceFrom (absorb hdr a b) bs
    else a :: coalesceFrom b bs

def coalesce : List Block → List Block
  | [] => []
  | a :: bs => coalesceFrom hdr a bs

/-- Set the block at `addr` free. -/
def mark (addr : Nat) (bs : List Block) : List Block :=
  bs.map fun b => if b.addr = addr then { b with free := true } else b

/-- Release the block at `addr`: set it free and coalesce. -/
def release (addr : Nat) (bs : List Block) : List Block := coalesce hdr (mark addr bs)

variable {hdr} {addr : Nat}

theorem Tiles.absorb (tiles : Tiles hdr lo hi (a :: b :: bs)) :
    Tiles hdr lo hi (absorb hdr a b :: bs) := by
  obtain ⟨start, next, rest⟩ := tiles
  have same : (FreeList.absorb hdr a b).stop hdr = b.stop hdr := by
    simp only [FreeList.absorb, Block.stop] at *
    omega
  exact ⟨start, same ▸ rest⟩

theorem tiles_coalesceFrom (tiles : Tiles hdr lo hi (a :: bs)) :
    Tiles hdr lo hi (coalesceFrom hdr a bs) := by
  induction bs generalizing a lo with
  | nil => exact tiles
  | cons b bs ih =>
    by_cases both : a.free = true ∧ b.free = true
    · simp only [coalesceFrom, if_pos both]
      exact ih tiles.absorb
    · simp only [coalesceFrom, if_neg both]
      exact ⟨tiles.1, ih tiles.2⟩

theorem live_coalesceFrom (a : Block) (bs : List Block) :
    live (coalesceFrom hdr a bs) = live (a :: bs) := by
  induction bs generalizing a with
  | nil => rfl
  | cons b bs ih =>
    by_cases both : a.free = true ∧ b.free = true
    · have tail := ih (absorb hdr a b)
      simp only [coalesceFrom, if_pos both, tail]
      simp [live, absorb, both]
    · simp only [coalesceFrom, if_neg both]
      have tail := ih b
      simp only [live, List.filter_cons] at tail ⊢
      rw [tail]

/-- The first block of a coalesced list starts where `a` did and is free when `a` was. -/
theorem head_coalesceFrom (hdr : Nat) (a : Block) (bs : List Block) :
    ∃ c, (coalesceFrom hdr a bs).head? = some c ∧ c.free = a.free := by
  induction bs generalizing a with
  | nil => exact ⟨a, rfl, rfl⟩
  | cons b bs ih =>
    by_cases both : a.free = true ∧ b.free = true
    · simp only [coalesceFrom, if_pos both]
      exact ih (absorb hdr a b)
    · exact ⟨a, by simp [coalesceFrom, both], rfl⟩

theorem separated_coalesceFrom (a : Block) (bs : List Block) :
    Separated (coalesceFrom hdr a bs) := by
  induction bs generalizing a with
  | nil => exact .singleton a
  | cons b bs ih =>
    by_cases both : a.free = true ∧ b.free = true
    · simp only [coalesceFrom, if_pos both]
      exact ih _
    · simp only [coalesceFrom, if_neg both]
      obtain ⟨c, head, flag⟩ := head_coalesceFrom hdr b bs
      refine List.isChain_cons.mpr ⟨fun y member => ?_, ih b⟩
      rw [head, Option.mem_def, Option.some.injEq] at member
      subst y
      rwa [flag]

theorem tiles_coalesce (tiles : Tiles hdr lo hi bs) : Tiles hdr lo hi (coalesce hdr bs) := by
  cases bs with
  | nil => exact tiles
  | cons a bs => exact tiles_coalesceFrom tiles

theorem live_coalesce (bs : List Block) : live (coalesce hdr bs) = live bs := by
  cases bs with
  | nil => rfl
  | cons a bs => exact live_coalesceFrom a bs

theorem separated_coalesce (bs : List Block) : Separated (coalesce hdr bs) := by
  cases bs with
  | nil => exact .nil
  | cons a bs => exact separated_coalesceFrom a bs

theorem tiles_mark (tiles : Tiles hdr lo hi bs) : Tiles hdr lo hi (mark addr bs) := by
  induction bs generalizing lo with
  | nil => exact tiles
  | cons b bs ih =>
    have tail := ih tiles.2
    have start := tiles.1
    by_cases here : b.addr = addr
    · simp only [mark, List.map_cons, if_pos here, Tiles]
      exact ⟨start, tail⟩
    · simp only [mark, List.map_cons, if_neg here, Tiles]
      exact ⟨start, tail⟩

theorem live_mark (bs : List Block) :
    live (mark addr bs) = (live bs).filter fun b => b.addr ≠ addr := by
  induction bs with
  | nil => rfl
  | cons b bs ih =>
    simp only [live, mark, List.map_cons, List.filter_cons] at ih ⊢
    by_cases here : b.addr = addr <;> cases free : b.free <;> simp [here, free, ih]

theorem tiles_release (tiles : Tiles hdr lo hi bs) : Tiles hdr lo hi (release hdr addr bs) :=
  tiles_coalesce (tiles_mark tiles)

theorem separated_release (bs : List Block) : Separated (release hdr addr bs) :=
  separated_coalesce _

theorem live_release (bs : List Block) :
    live (release hdr addr bs) = (live bs).filter fun b => b.addr ≠ addr := by
  rw [release, live_coalesce, live_mark]

/-! ### Alignment -/

variable {k : Nat}

/-- Start addresses are aligned where the arena, the header and all payloads are. -/
theorem Tiles.dvd_addr (tiles : Tiles hdr lo hi bs) (start : k ∣ lo) (header : k ∣ hdr)
    (sizes : ∀ b ∈ bs, k ∣ b.size) : ∀ b ∈ bs, k ∣ b.addr := by
  induction bs generalizing lo with
  | nil => simp
  | cons b bs ih =>
    have here : k ∣ b.addr := tiles.1 ▸ start
    have next : k ∣ b.stop hdr :=
      Nat.dvd_add (Nat.dvd_add here header) (sizes b (by simp))
    intro c member
    rcases List.mem_cons.mp member with rfl | later
    · exact here
    · exact ih tiles.2 next (fun d there => sizes d (by simp [there])) c later

theorem FirstFit.dvd_size (first : FirstFit r bs pre b post) (header : k ∣ hdr) (request : k ∣ r)
    (sizes : ∀ b ∈ bs, k ∣ b.size) :
    ∀ c ∈ pre ++ granted hdr gap r b :: (leftover hdr gap r b ++ post), k ∣ c.size := by
  have whole := sizes b (by simp [first.split])
  have old (c : Block) (member : c ∈ pre ∨ c ∈ post) : k ∣ c.size :=
    sizes c (by rw [first.split]; rcases member with left | right <;> simp [*])
  intro c member
  by_cases worth : r + hdr + gap ≤ b.size
  · simp only [granted, leftover, if_pos worth, List.mem_append, List.mem_cons,
      List.not_mem_nil, or_false] at member
    rcases member with left | rfl | rfl | right
    · exact old c (.inl left)
    · exact request
    · exact Nat.dvd_sub (Nat.dvd_sub whole request) header
    · exact old c (.inr right)
  · simp only [granted, leftover, if_neg worth, List.mem_append, List.mem_cons,
      List.not_mem_nil, false_or] at member
    rcases member with left | rfl | right
    · exact old c (.inl left)
    · exact whole
    · exact old c (.inr right)

theorem dvd_size_coalesceFrom (header : k ∣ hdr) (sizes : ∀ b ∈ a :: bs, k ∣ b.size) :
    ∀ b ∈ coalesceFrom hdr a bs, k ∣ b.size := by
  induction bs generalizing a with
  | nil => exact sizes
  | cons b bs ih =>
    rw [List.forall_mem_cons, List.forall_mem_cons] at sizes
    obtain ⟨first, second, rest⟩ := sizes
    by_cases both : a.free = true ∧ b.free = true
    · simp only [coalesceFrom, if_pos both]
      have merged := Nat.dvd_add first (Nat.dvd_add header second)
      exact ih (List.forall_mem_cons.mpr ⟨merged, rest⟩)
    · simp only [coalesceFrom, if_neg both]
      exact List.forall_mem_cons.mpr ⟨first, ih (List.forall_mem_cons.mpr ⟨second, rest⟩)⟩

theorem dvd_size_release (header : k ∣ hdr) (sizes : ∀ b ∈ bs, k ∣ b.size) :
    ∀ b ∈ release hdr addr bs, k ∣ b.size := by
  have marked : ∀ b ∈ mark addr bs, k ∣ b.size := by
    intro b member
    obtain ⟨c, there, rfl⟩ := List.mem_map.mp member
    split <;> exact sizes c there
  unfold release
  cases list : mark addr bs with
  | nil => simp [coalesce]
  | cons a rest => exact dvd_size_coalesceFrom header (list ▸ marked)

end FreeList
