import Mathlib.Algebra.BigOperators.Group.List.Lemmas
import Mathlib.Data.List.Nodup

/-!
# A counter in shards

Each party counts in a shard of its own, and the count is the total of the shards. One that is
counted up by `d` counts the total up by `d`, whoever does it.
-/

namespace LinuxKernelProg.Lib.Shards

variable {ι M : Type} [AddCommMonoid M]

/-- The total of the shards of `l`. -/
def total (l : List ι) (f : ι → M) : M := (l.map f).sum

@[simp] theorem total_cons (i : ι) (l : List ι) (f : ι → M) :
    total (i :: l) f = f i + total l f := by
  rw [total, List.map_cons, List.sum_cons, total]

theorem total_eq_zero {l : List ι} {f : ι → M} (h : ∀ i ∈ l, f i = 0) : total l f = 0 := by
  induction l with
  | nil => rfl
  | cons i l ih => rw [total_cons, h i List.mem_cons_self, zero_add,
      ih fun j hj => h j (List.mem_cons_of_mem i hj)]

variable [DecidableEq ι]

theorem total_update_of_notMem {l : List ι} {i : ι} (h : i ∉ l) (f : ι → M) (v : M) :
    total l (Function.update f i v) = total l f := by
  refine congrArg List.sum (List.map_congr_left fun j hj => ?_)
  exact Function.update_of_ne (fun (hji : j = i) => h (hji ▸ hj)) v f

/-- **A shard counts for the total.** -/
theorem total_update_add {l : List ι} {i : ι} (hl : l.Nodup) (hi : i ∈ l) (f : ι → M) (d : M) :
    total l (Function.update f i (f i + d)) = total l f + d := by
  induction l with
  | nil => cases hi
  | cons j l ih =>
    obtain ⟨hj, hl⟩ := List.nodup_cons.1 hl
    rw [total_cons, total_cons]
    by_cases hij : i = j
    · rw [← hij, Function.update_self, total_update_of_notMem (hij ▸ hj), add_right_comm]
    · rw [Function.update_of_ne (Ne.symm hij), ih hl (List.mem_of_ne_of_mem hij hi), add_assoc]

end LinuxKernelProg.Lib.Shards
