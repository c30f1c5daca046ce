import Mathlib.Data.Nat.Bitwise

/-!
# Address masks

A page mask keeps the bits of a word from a shift on. What a mask and its complement keep, and what
is left when the two are put together, is division with remainder by the page size.
-/

namespace LinuxKernelProg.Lib

variable {n : Nat}

/-- The bits from `k` on: `~((1 << k) - 1)`. -/
def maskFrom (n k : Nat) : BitVec n := BitVec.allOnes n <<< k

theorem getLsbD_maskFrom (k i : Nat) :
    (maskFrom n k).getLsbD i = (decide (i < n) && decide (k ≤ i)) := by
  simp only [maskFrom, BitVec.getLsbD_shiftLeft, BitVec.getLsbD_allOnes]
  by_cases hk : i < k
  · simp [hk, Nat.not_le.2 hk]
  · have : k ≤ i := Nat.le_of_not_lt hk
    by_cases hn : i < n
    · have : i - k < n := by omega
      simp [*]
    · simp [hn]

/-- Below the page size. -/
theorem toNat_and_not_maskFrom (v : BitVec n) (k : Nat) :
    (v &&& ~~~maskFrom n k).toNat = v.toNat % 2 ^ k := by
  apply Nat.eq_of_testBit_eq
  intro i
  rw [Nat.testBit_mod_two_pow, BitVec.testBit_toNat, BitVec.testBit_toNat, BitVec.getLsbD_and,
    BitVec.getLsbD_not, getLsbD_maskFrom]
  by_cases hn : i < n
  · by_cases hk : i < k
    · simp [hn, hk, Nat.not_le.2 hk]
    · simp [hn, hk, Nat.le_of_not_lt hk]
  · simp [hn, BitVec.getLsbD_of_ge v i (Nat.le_of_not_lt hn)]

/-- From the page size on. -/
theorem toNat_and_maskFrom (w : BitVec n) (k : Nat) :
    (w &&& maskFrom n k).toNat = w.toNat / 2 ^ k * 2 ^ k := by
  apply Nat.eq_of_testBit_eq
  intro i
  rw [Nat.testBit_mul_two_pow, Nat.testBit_div_two_pow, BitVec.testBit_toNat, BitVec.testBit_toNat,
    BitVec.getLsbD_and, getLsbD_maskFrom]
  by_cases hk : k ≤ i
  · rw [Nat.sub_add_cancel hk]
    by_cases hn : i < n
    · simp [hk, hn]
    · simp [hn, BitVec.getLsbD_of_ge w i (Nat.le_of_not_lt hn)]
  · simp [hk]

/-- From the page size on, and below `2 ^ m`. -/
theorem toNat_and_maskFrom_and_not (w : BitVec n) (k m : Nat) :
    (w &&& (maskFrom n k &&& ~~~maskFrom n m)).toNat = w.toNat % 2 ^ m / 2 ^ k * 2 ^ k := by
  apply Nat.eq_of_testBit_eq
  intro i
  rw [Nat.testBit_mul_two_pow, Nat.testBit_div_two_pow, Nat.testBit_mod_two_pow,
    BitVec.testBit_toNat, BitVec.testBit_toNat, BitVec.getLsbD_and, BitVec.getLsbD_and,
    BitVec.getLsbD_not, getLsbD_maskFrom, getLsbD_maskFrom]
  by_cases hk : k ≤ i
  · rw [Nat.sub_add_cancel hk]
    by_cases hn : i < n
    · by_cases hm : i < m
      · simp [hk, hn, hm, Nat.not_le.2 hm]
      · simp [hn, hm, Nat.le_of_not_lt hm]
    · simp [hn, BitVec.getLsbD_of_ge w i (Nat.le_of_not_lt hn)]
  · simp [hk]

/-- A page address and an offset in the page. -/
theorem toNat_or_and_not_maskFrom {a : BitVec n} {q k : Nat} (h : a.toNat = q * 2 ^ k)
    (v : BitVec n) : (a ||| v &&& ~~~maskFrom n k).toNat = q * 2 ^ k + v.toNat % 2 ^ k := by
  rw [BitVec.toNat_or, h, toNat_and_not_maskFrom, Nat.mul_comm,
    Nat.two_pow_add_eq_or_of_lt (Nat.mod_lt _ (Nat.two_pow_pos k))]

end LinuxKernelProg.Lib
