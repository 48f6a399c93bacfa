import FriscaOS.Lib.ByteMemory
import Mathlib.Data.List.Chain

/-! The timer of `timer.c`: the tick counter, and how long `sleep` waits on it. Divisions by zero
are exceptions of the CPU and yield `none`. -/
namespace FriscaOS

/-! ### The driver -/

def pitCommandPort : UInt16 := 0x43

def pitChannel0Port : UInt16 := 0x40

def pitBaseFrequency : UInt32 := 1193182

/-- The static variables, with what was sent to the ports so far. -/
structure Timer where
  ticks : UInt32
  targetFreq : UInt32
  needReschedule : Int
  sent : List (UInt16 × UInt8)

namespace Timer

/-- At boot. -/
def boot : Timer := ⟨0, 100, 0, []⟩

def outb (t : Timer) (port : UInt16) (value : UInt8) : Timer :=
  { t with sent := t.sent ++ [(port, value)] }

end Timer

def timerInit (frequency : UInt32) (t : Timer) : Option Timer :=
  if frequency = 0 then none
  else
    let t := { t with targetFreq := frequency }
    let divisor := pitBaseFrequency / frequency
    let t := t.outb pitCommandPort 0x36
    let t := t.outb pitChannel0Port (divisor &&& 0xFF).toUInt8
    some (t.outb pitChannel0Port ((divisor >>> 8) &&& 0xFF).toUInt8)

/-- One tick. The last store is the EOI. -/
def timerHandler (t : Timer) : Timer :=
  let t := { t with ticks := t.ticks + 1, needReschedule := 1 }
  t.outb 0x20 0x20

def timerNeedsReschedule (t : Timer) : Int := t.needReschedule

def timerClearReschedule (t : Timer) : Timer := { t with needReschedule := 0 }

/-- `ticks_to_wait` of `sleep(ms)`. -/
def ticksToWait (ms : UInt32) (t : Timer) : Option UInt32 :=
  if t.targetFreq = 0 ∨ 1000 / t.targetFreq = 0 then none
  else
    let ticksToWait := ms / (1000 / t.targetFreq)
    -- at least the finest delay that there is
    some (if ticksToWait = 0 then 1 else ticksToWait)

/-- The loop of `sleep` on the values of `ticks` that its condition reads: how many of them let it
go on, if it ends at all. -/
def sleepLoop (startTicks ticksToWait : UInt32) : List UInt32 → Option Nat
  | [] => none
  | ticks :: readings =>
    if ticks - startTicks < ticksToWait then
      (sleepLoop startTicks ticksToWait readings).map (· + 1)
    else some 0

/-- What is in the counter after `e` ticks. -/
def Timer.ticksAfter (t : Timer) (e : Nat) : UInt32 := (timerHandler^[e] t).ticks

/-- With the timer at `f` Hz, the periods that `sleep(ms)` waits for are not shorter than `ms`
milliseconds. -/
def SleepsLongEnough (f ms : UInt32) (t : Timer) : Prop :=
  ∃ t' n, timerInit f t = some t' ∧ ticksToWait ms t' = some n ∧
    ms.toNat * f.toNat ≤ n.toNat * 1000

/-- What `timer_init` sends to the PIT: the command, and a divisor of 16 bits, its low byte first. -/
structure Programmed (f : UInt32) (t t' : Timer) (low high : UInt8) : Prop where
  sent : t'.sent = t.sent ++
    [(pitCommandPort, 0x36), (pitChannel0Port, low), (pitChannel0Port, high)]
  range : 1 ≤ (pitBaseFrequency / f).toNat ∧ (pitBaseFrequency / f).toNat ≤ 65535
  divisor : low.toNat + 256 * high.toNat = (pitBaseFrequency / f).toNat

/-- The PIT can be programmed to `f` Hz, and no `sleep` after any number of ticks divides by zero. -/
def ArithmeticDefined (f : UInt32) (t : Timer) : Prop :=
  ∃ t' low high, timerInit f t = some t' ∧ Programmed f t t' low high ∧
    ∀ e ms, ∃ n, ticksToWait ms (timerHandler^[e] t') = some n

variable {t : Timer} {f ms w : UInt32} {e : Nat} {es : List Nat}

/-! ### The loop -/

theorem toNat_ticksAfter (t : Timer) (e : Nat) :
    (t.ticksAfter e).toNat = (t.ticks.toNat + e) % 2 ^ 32 := by
  induction e generalizing t with
  | zero => exact (Nat.mod_eq_of_lt t.ticks.toNat_lt).symm
  | succ e ih =>
    have one : (1 : UInt32).toNat = 1 := rfl
    have first : (timerHandler t).ticks.toNat = (t.ticks.toNat + 1) % 2 ^ 32 := UInt32.toNat_add ..
    rw [Timer.ticksAfter, Function.iterate_succ_apply, ← Timer.ticksAfter, ih, first]
    omega

/-- The difference that the loop computes is the number of ticks since it began. -/
theorem elapsed_lt_iff (small : e < 2 ^ 32) :
    t.ticksAfter e - t.ticks < w ↔ e < w.toNat := by
  have start := t.ticks.toNat_lt
  rw [UInt32.lt_iff_toNat_lt, UInt32.toNat_sub, toNat_ticksAfter]
  omega

/-- How far the number of ticks may go from one reading to the next. -/
def Observable (w : UInt32) (a b : Nat) : Prop := a ≤ b ∧ b - a < 2 ^ 32 - w.toNat

theorem sleepLoop_eq (chain : es.IsChain (Observable w)) (first : ∀ e ∈ es.head?, e < 2 ^ 32) :
    sleepLoop t.ticks w (es.map t.ticksAfter) = es.findIdx? (w.toNat ≤ ·) := by
  induction es with
  | nil => rfl
  | cons e es ih =>
    have small : e < 2 ^ 32 := first e rfl
    obtain ⟨step, rest⟩ := List.isChain_cons.mp chain
    rw [List.map_cons, sleepLoop, List.findIdx?_cons]
    by_cases waits : e < w.toNat
    · -- a reading that lets the loop go on bounds the next one
      have next : ∀ e' ∈ es.head?, e' < 2 ^ 32 := by
        intro e' there
        have bound := w.toNat_lt
        have ⟨_, near⟩ := step e' there
        omega
      rw [if_pos ((elapsed_lt_iff small).mpr waits), if_neg (by simpa using waits), ih rest next]
    · rw [if_neg (mt (elapsed_lt_iff small).mp waits), if_pos (by simpa using waits)]

/-- The loop goes on while fewer than `w` ticks have passed, and ends at the first reading after
that, also across the wrap of the counter. -/
theorem sleep_wraparound_safe (t : Timer) (w : UInt32) (es : List Nat) (start : es.head? = some 0)
    (chain : es.IsChain (Observable w)) :
    sleepLoop t.ticks w (es.map t.ticksAfter) = es.findIdx? (w.toNat ≤ ·) := by
  refine sleepLoop_eq chain fun e there => ?_
  rw [start, Option.mem_some_iff] at there
  omega

/-- Three ticks, of which the counter wraps at the second, and a reading that comes late. -/
theorem sleep_wraps : sleepLoop 0xFFFFFFFE 3
    ([0, 2, 2, 7].map (Timer.ticksAfter ⟨0xFFFFFFFE, 100, 0, []⟩)) = some 3 :=
  sleep_wraparound_safe ⟨0xFFFFFFFE, 100, 0, []⟩ 3 [0, 2, 2, 7] rfl (by simp [Observable])

/-! ### The number of ticks -/

theorem timerInit_some (nonzero : f ≠ 0) (t : Timer) :
    ∃ t', timerInit f t = some t' ∧ t'.targetFreq = f := ⟨_, if_neg nonzero, rfl⟩

/-- From 1 to 1000 Hz nothing is divided by zero. -/
theorem ticksToWait_eq (low : 0 < f.toNat) (high : f.toNat ≤ 1000) (freq : t.targetFreq = f)
    (ms : UInt32) : ∃ n, ticksToWait ms t = some n ∧
      n.toNat = max 1 (ms.toNat / (1000 / f.toNat)) := by
  have zero : (0 : UInt32).toNat = 0 := rfl
  have msPerTick : (1000 / f).toNat = 1000 / f.toNat := UInt32.toNat_div ..
  have quotient : (ms / (1000 / f)).toNat = ms.toNat / (1000 / f.toNat) := by
    rw [UInt32.toNat_div, msPerTick]
  have positive : 0 < 1000 / f.toNat := Nat.div_pos high low
  have divides : ¬(f = 0 ∨ 1000 / f = 0) := by
    rw [← UInt32.toNat_inj, ← UInt32.toNat_inj, msPerTick]
    omega
  rw [ticksToWait, freq]
  refine ⟨_, if_neg divides, ?_⟩
  rw [← quotient]
  split
  · next short =>
    rw [short]
    rfl
  · next long =>
    have some_ : (ms / (1000 / f)).toNat ≠ 0 := fun none_ => long (UInt32.toNat_inj.mp none_)
    omega

/-- The wait is long enough exactly if the delay is shorter than a tick, or what the division by the
milliseconds of a tick leaves of it is made up for by what the division of the second leaves. -/
theorem sleepsLongEnough_iff (low : 19 ≤ f) (high : f ≤ 1000) (ms : UInt32) (t : Timer) :
    SleepsLongEnough f ms t ↔ ms.toNat < 1000 / f.toNat ∨
      1000 * (ms.toNat % (1000 / f.toNat)) ≤ ms.toNat * (1000 % f.toNat) := by
  have high' : f.toNat ≤ 1000 := UInt32.le_iff_toNat_le.mp high
  have low' : 19 ≤ f.toNat := UInt32.le_iff_toNat_le.mp low
  have nonzero : f ≠ 0 := fun zero => absurd (zero ▸ low') (by decide)
  obtain ⟨t', init, freq⟩ := timerInit_some nonzero t
  obtain ⟨n, ticks, count⟩ := ticksToWait_eq (by omega) high' freq ms
  have waits : SleepsLongEnough f ms t ↔ ms.toNat * f.toNat ≤ n.toNat * 1000 := by
    refine ⟨fun ⟨u, k, init', ticks', long⟩ => ?_, fun long => ⟨t', n, init, ticks, long⟩⟩
    cases init.symm.trans init'
    cases ticks.symm.trans ticks'
    exact long
  rw [waits, count]
  generalize ms.toNat = m
  generalize f.toNat = k at low' high'
  have positive : 0 < 1000 / k := Nat.div_pos high' (by omega)
  have second : 1000 / k * k + 1000 % k = 1000 := Nat.div_add_mod' 1000 k
  generalize 1000 / k = d at positive second
  generalize 1000 % k = r at second
  rcases Nat.lt_or_ge m d with short | long
  · -- shorter than a tick
    refine iff_of_true ?_ (.inl short)
    have bound : m * k ≤ d * k := Nat.mul_le_mul_right k (Nat.le_of_lt short)
    rw [Nat.div_eq_of_lt short]
    omega
  · have some_ : 1 ≤ m / d := Nat.div_pos long positive
    have parts : m / d * d + m % d = m := Nat.div_add_mod' m d
    have left : m * k * d + m * r = m * 1000 := by
      rw [← second, Nat.mul_add, Nat.mul_assoc, Nat.mul_comm k d]
    have right : m / d * 1000 * d + 1000 * (m % d) = m * 1000 := by
      rw [Nat.mul_right_comm, Nat.mul_comm 1000, ← Nat.add_mul, parts]
    -- both sides times the milliseconds of a tick
    rw [Nat.max_eq_right some_, ← Nat.mul_le_mul_right_iff positive]
    omega

/-- A second at 100 Hz. -/
theorem sleepsLongEnough_second : SleepsLongEnough 100 1000 .boot :=
  (sleepsLongEnough_iff (by decide) (by decide) 1000 .boot).mpr (by decide)

/-- 15 ms at 100 Hz: `sleep` waits for one period of 10 ms. -/
theorem not_sleepsLongEnough : ¬SleepsLongEnough 100 15 .boot := by
  rintro ⟨t', n, init, ticks, long⟩
  cases init
  cases ticks
  exact absurd long (by decide)

/-! ### The frequencies -/

/-- The two bytes of a divisor. -/
theorem toNat_bytes {divisor : UInt32} (fits : divisor.toNat < 65536) :
    (divisor &&& 0xFF).toUInt8.toNat + 256 * ((divisor >>> 8) &&& 0xFF).toUInt8.toNat =
      divisor.toNat := by
  have mask (n : Nat) : n &&& 255 = n % 256 := Nat.and_two_pow_sub_one_eq_mod n 8
  have low : (divisor &&& 0xFF).toUInt8.toNat = divisor.toNat % 256 := by
    have byte : (0xFF : UInt32).toNat = 255 := rfl
    rw [UInt32.toNat_toUInt8, UInt32.toNat_and, byte, mask]
    omega
  have high : ((divisor >>> 8) &&& 0xFF).toUInt8.toNat = divisor.toNat / 256 := by
    have byte : (0xFF : UInt32).toNat = 255 := rfl
    have shifted : (divisor >>> 8).toNat = divisor.toNat / 256 := by
      simp [UInt32.toNat_shiftRight, Nat.shiftRight_eq_div_pow]
    rw [UInt32.toNat_toUInt8, UInt32.toNat_and, byte, mask, shifted]
    omega
  rw [low, high]
  omega

/-- From 19 Hz up to the base frequency the divisor has 16 bits and is sent as it is. -/
theorem timerInit_programmed (low : 19 ≤ f) (high : f ≤ pitBaseFrequency) (t : Timer) :
    ∃ t' lowByte highByte, timerInit f t = some t' ∧ t'.targetFreq = f ∧
      Programmed f t t' lowByte highByte := by
  have base : pitBaseFrequency.toNat = 1193182 := rfl
  have low' : 19 ≤ f.toNat := UInt32.le_iff_toNat_le.mp low
  have high' : f.toNat ≤ 1193182 := UInt32.le_iff_toNat_le.mp high
  have nonzero : f ≠ 0 := fun zero => absurd (zero ▸ low') (by decide)
  have least : 1 ≤ 1193182 / f.toNat := Nat.div_pos high' (by omega)
  have most : 1193182 / f.toNat ≤ 1193182 / 19 := Nat.div_le_div_left low' (by decide)
  have divisor : (pitBaseFrequency / f).toNat = 1193182 / f.toNat := UInt32.toNat_div ..
  refine ⟨_, _, _, if_neg nonzero, rfl, ?_, ?_, toNat_bytes (by omega)⟩
  · simp [Timer.outb]
  · omega

theorem targetFreq_iterate (e : Nat) (t : Timer) :
    (timerHandler^[e] t).targetFreq = t.targetFreq := by
  induction e generalizing t with
  | zero => rfl
  | succ e ih => exact ih (timerHandler t)

/-- `sleep` divides by zero where a tick is shorter than a millisecond, whatever the delay. -/
theorem ticksToWait_none (high : 1000 < f.toNat) (freq : t.targetFreq = f) (ms : UInt32) :
    ticksToWait ms t = none := by
  have msPerTick : (1000 / f).toNat = 0 := by
    have second : (1000 : UInt32).toNat = 1000 := rfl
    rw [UInt32.toNat_div, second, Nat.div_eq_of_lt high]
  rw [ticksToWait, freq]
  exact if_pos (.inr (UInt32.toNat_inj.mp msPerTick))

/-- Of the frequencies that the PIT can be programmed to, those above 1000 Hz leave no whole
millisecond to divide by. -/
theorem arithmeticDefined_iff (low : 19 ≤ f) (high : f ≤ 1193182) (t : Timer) :
    ArithmeticDefined f t ↔ f ≤ 1000 := by
  have low' : 19 ≤ f.toNat := UInt32.le_iff_toNat_le.mp low
  have limit : f ≤ 1000 ↔ f.toNat ≤ 1000 := UInt32.le_iff_toNat_le
  obtain ⟨t', lowByte, highByte, init, freq, programmed⟩ := timerInit_programmed low high t
  have freqs (e : Nat) : (timerHandler^[e] t').targetFreq = f :=
    (targetFreq_iterate e t').trans freq
  rw [limit]
  constructor
  · rintro ⟨u, _, _, init', -, sleeps⟩
    obtain rfl : t' = u := Option.some.inj (init.symm.trans init')
    by_contra above
    obtain ⟨n, ticks⟩ := sleeps 0 1
    rw [ticksToWait_none (Nat.lt_of_not_le above) (freqs 0)] at ticks
    cases ticks
  · intro below
    refine ⟨t', lowByte, highByte, init, programmed, fun e ms => ?_⟩
    obtain ⟨n, ticks, -⟩ := ticksToWait_eq (by omega) below (freqs e) ms
    exact ⟨n, ticks⟩

/-- 100 Hz, the frequency of the kernel. -/
theorem arithmeticDefined_boot : ArithmeticDefined 100 .boot :=
  (arithmeticDefined_iff (by decide) (by decide) .boot).mpr (by decide)

/-- At 1001 Hz a delay of 1 ms divides by zero. -/
theorem not_arithmeticDefined : ¬ArithmeticDefined 1001 .boot := by
  rintro ⟨t', low, high, init, -, sleeps⟩
  obtain ⟨n, ticks⟩ := sleeps 0 1
  cases init
  cases ticks

end FriscaOS
