import Mathlib.Data.BitVec
import Mathlib.Order.Basic
import LinuxKernelProg.Lib.Loop
import LinuxKernelProg.Lib.Ticker

/-!
# The busy loops

`busyloop_hr_delay` of `sync/part7/delays.c` reads the clock until the nanoseconds since its first
reading are not less than `ms * 1000000`. This product is one of two numbers of 32 bits, and so is
what is stored of it: from 4295 ms on it is too small.

`busyloop_ms_delay` compares the difference of two readings of `jiffies` with a number of ticks, and
is right also where `jiffies` comes around between them (`leaves_ms_iff`).
-/

namespace LinuxKernelProg.Sync.Delays

open LinuxKernelProg.Lib

/-- The successive values of `ktime_get`, in nanoseconds. -/
structure Clock where
  reading : Nat → Nat
  mono : ∀ i, reading i ≤ reading (i + 1)
  lt : ∀ i, reading i < 2 ^ 63

def Clock.ktime_get (clock : Clock) (i : Nat) : BitVec 64 := BitVec.ofNat 64 (clock.reading i)

/-- `unsigned long delay_ns = ms * 1000000`, of an `unsigned int` and an `int`. -/
def delay_ns (ms : BitVec 32) : BitVec 64 := (ms * 1000000).setWidth 64

/-- The condition of the loop after the reading `i`: the difference is converted to the type of
`delay_ns`. -/
def waits (ms : BitVec 32) (clock : Clock) (i : Nat) : Bool :=
  let start_time := clock.ktime_get 0
  let current_time := clock.ktime_get i
  (current_time - start_time).ult (delay_ns ms)

/-- The reading at which the loop ends, if the fuel is enough. The loop reads the clock before its
first test. -/
def busyloop_hr_delay (ms : BitVec 32) (clock : Clock) (fuel : Nat) : Option Nat :=
  loop (countWhile (waits ms clock)) fuel 1

/-- The loop is left at the reading `i`. -/
def Leaves (ms : BitVec 32) (clock : Clock) (i : Nat) : Prop :=
  ∃ fuel, busyloop_hr_delay ms clock fuel = some i

/-! ## Delays -/

def Clock.elapsed (clock : Clock) (i : Nat) : Nat := clock.reading i - clock.reading 0

def nanoseconds (ms : BitVec 32) : Nat := ms.toNat * 1000000

/-- It is left at the first reading that is late enough, and at no other one. -/
def Exact (ms : BitVec 32) (clock : Clock) : Prop :=
  ∀ i, Leaves ms clock i ↔
    1 ≤ i ∧ nanoseconds ms ≤ clock.elapsed i ∧ ∀ j, 1 ≤ j → j < i → clock.elapsed j < nanoseconds ms

variable {ms : BitVec 32} {clock : Clock} {i : Nat}

theorem Clock.reading_mono (clock : Clock) : Monotone clock.reading :=
  monotone_nat_of_le_succ clock.mono

theorem toNat_delay_ns (ms : BitVec 32) : (delay_ns ms).toNat = nanoseconds ms % 2 ^ 32 := by
  unfold delay_ns nanoseconds
  rw [BitVec.toNat_setWidth_of_le (by decide), BitVec.toNat_mul]
  rfl

/-- The clock does not go back, so the difference is the time since the first reading. -/
theorem Clock.toNat_sub (clock : Clock) (i : Nat) :
    (clock.ktime_get i - clock.ktime_get 0).toNat = clock.elapsed i := by
  have hle : clock.reading 0 ≤ clock.reading i := clock.reading_mono (Nat.zero_le i)
  have hlt := clock.lt i
  unfold ktime_get elapsed
  rw [BitVec.toNat_sub_of_le]
  · rw [BitVec.toNat_ofNat, BitVec.toNat_ofNat, Nat.mod_eq_of_lt (by omega),
      Nat.mod_eq_of_lt (by omega)]
  · rw [BitVec.le_def, BitVec.toNat_ofNat, BitVec.toNat_ofNat, Nat.mod_eq_of_lt (by omega),
      Nat.mod_eq_of_lt (by omega)]
    exact hle

theorem waits_iff : waits ms clock i = true ↔ clock.elapsed i < nanoseconds ms % 2 ^ 32 := by
  rw [waits, BitVec.ult_iff_lt, BitVec.lt_def, clock.toNat_sub, toNat_delay_ns]

/-- The loop is left at the first reading that is late enough for what is stored of the product. -/
theorem leaves_iff : Leaves ms clock i ↔
    1 ≤ i ∧ nanoseconds ms % 2 ^ 32 ≤ clock.elapsed i ∧
      ∀ j, 1 ≤ j → j < i → clock.elapsed j < nanoseconds ms % 2 ^ 32 :=
  exits_countWhile_lt_iff fun _ _ => waits_iff

/-- No reading of the loop is between what is stored of the product and the product. -/
def NoneBetween (ms : BitVec 32) (clock : Clock) : Prop :=
  ∀ i, 1 ≤ i → nanoseconds ms % 2 ^ 32 ≤ clock.elapsed i → nanoseconds ms ≤ clock.elapsed i

theorem exact_iff (ms : BitVec 32) (clock : Clock) : Exact ms clock ↔ NoneBetween ms clock := by
  constructor
  · intro h i hi hlate
    -- the loop is left at the first reading that is late enough, which is not later than this one
    have hex : ∃ k, 1 ≤ k ∧ nanoseconds ms % 2 ^ 32 ≤ clock.elapsed k := ⟨i, hi, hlate⟩
    obtain ⟨k, ⟨hk, hstored⟩, hfirst⟩ :=
      (⟨Nat.find hex, Nat.find_spec hex, fun j => Nat.find_min hex⟩ :
      ∃ k, (1 ≤ k ∧ nanoseconds ms % 2 ^ 32 ≤ clock.elapsed k) ∧
        ∀ j, j < k → ¬ (1 ≤ j ∧ nanoseconds ms % 2 ^ 32 ≤ clock.elapsed j))
    have hleaves : Leaves ms clock k :=
      leaves_iff.2 ⟨hk, hstored, fun j hj hjk => Nat.lt_of_not_le fun hle => hfirst j hjk ⟨hj, hle⟩⟩
    have hki : k ≤ i := Nat.le_of_not_lt fun hik => hfirst i hik ⟨hi, hlate⟩
    exact Nat.le_trans ((h k).1 hleaves).2.1 (Nat.sub_le_sub_right (clock.reading_mono hki) _)
  · intro h i
    have hle : nanoseconds ms % 2 ^ 32 ≤ nanoseconds ms := Nat.mod_le _ _
    rw [leaves_iff]
    constructor
    · rintro ⟨hi, hlate, hfirst⟩
      exact ⟨hi, h i hi hlate, fun j hj hji => Nat.lt_of_lt_of_le (hfirst j hj hji) hle⟩
    · rintro ⟨hi, hlate, hfirst⟩
      refine ⟨hi, Nat.le_trans hle hlate, fun j hj hji => Nat.lt_of_not_le fun hstored => ?_⟩
      exact Nat.not_le_of_lt (hfirst j hj hji) (h j hj hstored)

/-- A clock that stands still after its first reading. -/
def Clock.still (t : Nat) (h : t < 2 ^ 63) : Clock where
  reading i := if i = 0 then 0 else t
  mono i := by
    split <;> simp
  lt i := by
    split
    · decide
    · exact h

theorem Clock.elapsed_still (t : Nat) (h : t < 2 ^ 63) : (Clock.still t h).elapsed 1 = t :=
  Nat.sub_zero t

/-- Up to here the product fits. -/
theorem fits_iff (ms : BitVec 32) : nanoseconds ms % 2 ^ 32 = nanoseconds ms ↔ ms.toNat ≤ 4294 := by
  unfold nanoseconds
  omega

/-- **The delay** is right for every clock up to 4294 ms, and for longer ones only if the clock
jumps over the gap. -/
theorem exact_delay_iff (ms : BitVec 32) :
    ((∀ clock, Exact ms clock) ↔ ms.toNat ≤ 4294) ∧
      ∀ clock, Exact ms clock ↔ NoneBetween ms clock := by
  refine ⟨?_, exact_iff ms⟩
  simp only [exact_iff, ← fits_iff]
  constructor
  · intro h
    have hlt : nanoseconds ms % 2 ^ 32 < 2 ^ 63 :=
      Nat.lt_trans (Nat.mod_lt _ (by decide)) (by decide)
    have hstill := h (.still _ hlt) 1 (Nat.le_refl 1)
    rw [Clock.elapsed_still] at hstill
    exact Nat.le_antisymm (Nat.mod_le _ _) (hstill (Nat.le_refl _))
  · intro h clock i _ hlate
    rwa [h] at hlate

/-- After 4295 ms have been asked for, 32704 nanoseconds are enough. -/
theorem long_delay_not_exact : ¬ Exact 4295 (.still 32704 (by decide)) := by
  intro h
  have hleaves : Leaves 4295 (.still 32704 (by decide)) 1 := ⟨1, by decide⟩
  exact absurd ((h 1).1 hleaves).2.1 (by decide)

/-! ## The loop on `jiffies` -/

section Jiffies

variable (msecs_to_jiffies : BitVec 32 → BitVec 64) (ms : BitVec 32) (jiffies : Ticker 64)

/-- The condition of the loop at the reading `i` of `jiffies`, which is read once before the
loop. -/
def waits_ms (i : Nat) : Bool :=
  let start_jiffies := jiffies.read 0
  let delay_jiffies := msecs_to_jiffies ms
  (jiffies.read i - start_jiffies).ult delay_jiffies

/-- The reading at which the loop ends, if the fuel is enough. -/
def busyloop_ms_delay (fuel : Nat) : Option Nat :=
  loop (countWhile (waits_ms msecs_to_jiffies ms jiffies)) fuel 1

def LeavesMs (i : Nat) : Prop := ∃ fuel, busyloop_ms_delay msecs_to_jiffies ms jiffies fuel = some i

/-- The reading `i` is the first one of the loop at which the delay is over. -/
def FirstOver (i : Nat) : Prop :=
  1 ≤ i ∧ (msecs_to_jiffies ms).toNat ≤ jiffies.elapsed i ∧
    ∀ j, 1 ≤ j → j < i → jiffies.elapsed j < (msecs_to_jiffies ms).toNat

variable {msecs_to_jiffies ms jiffies}

theorem waits_ms_iff (h : jiffies.elapsed i < 2 ^ 64) :
    waits_ms msecs_to_jiffies ms jiffies i = true ↔
      jiffies.elapsed i < (msecs_to_jiffies ms).toNat :=
  jiffies.sub_ult_iff h _

/-- Up to a reading at which `jiffies` has not come around, the loop compares the real ticks. -/
theorem leaves_ms_iff (h : jiffies.elapsed i < 2 ^ 64) :
    LeavesMs msecs_to_jiffies ms jiffies i ↔ FirstOver msecs_to_jiffies ms jiffies i := by
  refine exits_countWhile_lt_iff fun j hji => ?_
  have hj : jiffies.elapsed j ≤ jiffies.elapsed i := jiffies.elapsed_mono hji
  exact waits_ms_iff (Nat.lt_of_le_of_lt hj h)

/-- **The delay** by `jiffies` ends at the first of the readings `1, …, n` at which it is over, and
at no other one, from every value that `jiffies` starts with. -/
theorem exact_ms_delay (n : Nat) (h : jiffies.elapsed n < 2 ^ 64) :
    ∀ i ≤ n, LeavesMs msecs_to_jiffies ms jiffies i ↔ FirstOver msecs_to_jiffies ms jiffies i := by
  intro i hi
  have hlt : jiffies.elapsed i < 2 ^ 64 := Nat.lt_of_le_of_lt (jiffies.elapsed_mono hi) h
  exact leaves_ms_iff hlt

/-- One second, of 1000 ticks: `jiffies` is zero three ticks after the first reading. -/
theorem exact_ms_delay_around : LeavesMs (BitVec.setWidth 64) 1000 ⟨-3, fun _ => 400⟩ 3 := by
  refine (exact_ms_delay 3 (by decide) 3 (Nat.le_refl 3)).2 ⟨by decide, by decide, ?_⟩
  intro j hj hji
  obtain rfl | rfl : j = 1 ∨ j = 2 := by omega
  · decide
  · decide

/-- As long as the loop goes on it has seen less than the delay, so one gap cannot go around. -/
theorem elapsed_lt_of_ticks (h : ∀ i, jiffies.ticks i + (msecs_to_jiffies ms).toNat < 2 ^ 64)
    (hwaits : ∀ j, 1 ≤ j → j < i → waits_ms msecs_to_jiffies ms jiffies j = true) :
    jiffies.elapsed i < 2 ^ 64 := by
  induction i with
  | zero => exact Nat.two_pow_pos 64
  | succ i ih =>
    have hi : jiffies.elapsed i < 2 ^ 64 := ih fun j hj hji => hwaits j hj (Nat.lt_succ_of_lt hji)
    have hle : jiffies.elapsed i ≤ (msecs_to_jiffies ms).toNat := by
      rcases Nat.eq_zero_or_pos i with rfl | hpos
      · exact Nat.zero_le _
      · exact Nat.le_of_lt ((waits_ms_iff hi).1 (hwaits i hpos (Nat.lt_succ_self i)))
    have hgap := h i
    rw [Ticker.elapsed]
    omega

/-- A loop that is never held up for too long ends in time, however often `jiffies` comes around. -/
theorem leaves_ms_iff_of_ticks
    (h : ∀ i, jiffies.ticks i + (msecs_to_jiffies ms).toNat < 2 ^ 64) (i : Nat) :
    LeavesMs msecs_to_jiffies ms jiffies i ↔ FirstOver msecs_to_jiffies ms jiffies i := by
  constructor
  · intro hleaves
    have hlt := elapsed_lt_of_ticks h (exits_countWhile_iff.1 hleaves).2.2
    exact (leaves_ms_iff hlt).1 hleaves
  · intro hover
    have hlt : jiffies.elapsed i < 2 ^ 64 := by
      refine elapsed_lt_of_ticks h fun j hj hji => ?_
      have hj : jiffies.elapsed j < (msecs_to_jiffies ms).toNat := hover.2.2 j hj hji
      exact (waits_ms_iff (Nat.lt_trans hj (msecs_to_jiffies ms).isLt)).2 hj
    exact (leaves_ms_iff hlt).2 hover

end Jiffies

end LinuxKernelProg.Sync.Delays
