import Mathlib.Algebra.BigOperators.Group.Finset.Piecewise
import Mathlib.Data.Fintype.Basic

/-!
# Maps from the indices below a bound

Every index below the bound has a value; an access outside does nothing.
-/

namespace LinuxKernelProg.Lib

abbrev ArrayMap (υ : Type) (n : Nat) := Fin n → υ

namespace ArrayMap

variable {υ : Type} {n : Nat}

/-- Change the value at the index, if it is below the bound. -/
def modify (a : ArrayMap υ n) (i : Nat) (f : υ → υ) : ArrayMap υ n :=
  if h : i < n then Function.update a ⟨i, h⟩ (f (a ⟨i, h⟩)) else a

theorem modify_apply (a : ArrayMap υ n) (i : Nat) (f : υ → υ) (j : Fin n) :
    a.modify i f j = if j.val = i then f (a j) else a j := by
  unfold modify
  split
  · rename_i h
    by_cases hj : j = ⟨i, h⟩
    · subst hj
      simp
    · have hv : j.val ≠ i := fun he => hj (Fin.ext he)
      simp [hj, hv]
  · have hv : j.val ≠ i := by omega
    simp [hv]

/-- A change that adds `c` to the measure of one value adds `c` to the sum. -/
theorem sum_modify {M : Type} [AddCommMonoid M] (a : ArrayMap υ n) {i : Nat} (hi : i < n)
    {f : υ → υ} {g : υ → M} {c : M} (hc : g (f (a ⟨i, hi⟩)) = g (a ⟨i, hi⟩) + c) :
    ∑ j, g (a.modify i f j) = ∑ j, g (a j) + c := by
  have hj : ∀ j : Fin n, g (a.modify i f j) = g (a j) + if j = ⟨i, hi⟩ then c else 0 := by
    intro j
    rw [modify_apply]
    by_cases he : j = ⟨i, hi⟩
    · subst he
      rw [if_pos rfl, if_pos rfl, hc]
    · have hv : j.val ≠ i := fun hv => he (Fin.ext hv)
      rw [if_neg hv, if_neg he, add_zero]
  rw [Finset.sum_congr rfl fun j _ => hj j, Finset.sum_add_distrib, Finset.sum_ite_eq',
    if_pos (Finset.mem_univ _)]

end ArrayMap

end LinuxKernelProg.Lib
