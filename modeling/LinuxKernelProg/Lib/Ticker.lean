import Mathlib.Data.BitVec
import Mathlib.Order.Monotone.Basic

/-!
# Wrapping counters

A counter of `w` bits starts anywhere and is read again and again. The difference of a reading and
the first one is how far it has advanced, modulo `2 ^ w`; so a delay is over by this difference
exactly when it is over, as long as the counter has not come around (`sub_ult_iff`).
-/

namespace LinuxKernelProg.Lib

/-- The first reading of a counter, and the ticks from every reading to the next. -/
structure Ticker (w : Nat) where
  start : BitVec w
  ticks : Nat → Nat

namespace Ticker

variable {w : Nat} (c : Ticker w)

def read : Nat → BitVec w
  | 0 => c.start
  | i + 1 => read i + BitVec.ofNat w (c.ticks i)

/-- The ticks from the first reading on. -/
def elapsed : Nat → Nat
  | 0 => 0
  | i + 1 => elapsed i + c.ticks i

theorem elapsed_mono : Monotone c.elapsed := monotone_nat_of_le_succ fun _ => Nat.le_add_right _ _

theorem read_eq (i : Nat) : c.read i = c.start + BitVec.ofNat w (c.elapsed i) := by
  induction i with
  | zero => exact (BitVec.add_zero c.start).symm
  | succ i ih => rw [read, elapsed, ih, BitVec.ofNat_add, BitVec.add_assoc]

theorem toNat_read_sub (i : Nat) : (c.read i - c.read 0).toNat = c.elapsed i % 2 ^ w := by
  have hsub : c.read i - c.read 0 = BitVec.ofNat w (c.elapsed i) := by
    rw [c.read_eq i, read, BitVec.add_comm, BitVec.add_sub_cancel]
  rw [hsub, BitVec.toNat_ofNat]

/-- The unsigned comparison of the difference is the one of the ticks, wherever the counter
starts. -/
theorem sub_ult_iff {i : Nat} (h : c.elapsed i < 2 ^ w) (d : BitVec w) :
    (c.read i - c.read 0).ult d = true ↔ c.elapsed i < d.toNat := by
  rw [BitVec.ult_iff_toNat_lt, c.toNat_read_sub, Nat.mod_eq_of_lt h]

end Ticker

end LinuxKernelProg.Lib
