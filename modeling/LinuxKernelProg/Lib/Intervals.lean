import Mathlib.Data.Set.Card
import Mathlib.Order.Interval.Finset.Nat

/-!
# Intervals in order

A list of things that each take the numbers from `lo` to `hi`, the end not included. If they are in
order then they do not overlap, so what they take together is counted by the sum of their lengths,
which is no more than there is between the ends.
-/

namespace LinuxKernelProg.Lib.Intervals

variable {ι : Type} {lo hi : ι → Nat} {l : List ι} {v : ι} {a b : Nat}

structure InOrder (lo hi : ι → Nat) (l : List ι) : Prop where
  le : ∀ v ∈ l, lo v ≤ hi v
  ordered : l.Pairwise fun v w => hi v ≤ lo w

/-- The numbers that are taken. -/
def covered (lo hi : ι → Nat) (l : List ι) : Set Nat := {a | ∃ v ∈ l, lo v ≤ a ∧ a < hi v}

def length (lo hi : ι → Nat) (l : List ι) : Nat := (l.map fun v => hi v - lo v).sum

theorem length_cons : length lo hi (v :: l) = (hi v - lo v) + length lo hi l := by
  rw [length, List.map_cons, List.sum_cons, length]

theorem length_snoc : length lo hi (l ++ [v]) = length lo hi l + (hi v - lo v) := by
  rw [length, List.map_append, List.sum_append, List.map_cons, List.map_nil,
    List.sum_singleton, length]

theorem covered_cons : covered lo hi (v :: l) = Set.Ico (lo v) (hi v) ∪ covered lo hi l := by
  ext a
  simp [covered]

theorem covered_nil : covered lo hi ([] : List ι) = ∅ := by
  refine Set.eq_empty_of_forall_notMem ?_
  rintro a ⟨v, hv, -⟩
  cases hv

theorem finite_covered (lo hi : ι → Nat) (l : List ι) : (covered lo hi l).Finite := by
  induction l with
  | nil => exact covered_nil ▸ Set.finite_empty
  | cons v l ih => exact covered_cons ▸ (Set.finite_Ico (lo v) (hi v)).union ih

namespace InOrder

theorem tail (h : InOrder lo hi (v :: l)) : InOrder lo hi l :=
  ⟨fun w hw => h.le w (List.mem_cons_of_mem v hw), (List.pairwise_cons.1 h.ordered).2⟩

/-- The lengths fit between the ends. -/
theorem add_length_le (h : InOrder lo hi l) (hab : a ≤ b) (ha : ∀ v ∈ l, a ≤ lo v)
    (hb : ∀ v ∈ l, hi v ≤ b) :
    a + length lo hi l ≤ b := by
  induction l generalizing a with
  | nil => exact hab
  | cons v l ih =>
    have hle := h.le v List.mem_cons_self
    have hav := ha v List.mem_cons_self
    have hrest := ih h.tail (hb v List.mem_cons_self) (List.pairwise_cons.1 h.ordered).1
      fun w hw => hb w (List.mem_cons_of_mem v hw)
    rw [length_cons]
    omega

/-- **What is covered** is counted by the lengths. -/
theorem ncard_covered (h : InOrder lo hi l) : (covered lo hi l).ncard = length lo hi l := by
  induction l with
  | nil =>
    rw [covered_nil, Set.ncard_empty]
    rfl
  | cons v l ih =>
    have hdisjoint : Disjoint (Set.Ico (lo v) (hi v)) (covered lo hi l) := by
      rw [Set.disjoint_left]
      rintro a ⟨-, hlt⟩ ⟨w, hw, hle, -⟩
      have := (List.pairwise_cons.1 h.ordered).1 w hw
      omega
    rw [covered_cons, Set.ncard_union_eq hdisjoint (Set.finite_Ico _ _) (finite_covered lo hi l),
      ih h.tail, length_cons, ← Finset.coe_Ico, Set.ncard_coe_finset, Nat.card_Ico]

end InOrder

end LinuxKernelProg.Lib.Intervals
