import Mathlib.Algebra.Group.Action.Defs
import Mathlib.Algebra.Order.BigOperators.Group.List
import Mathlib.Algebra.Order.Group.Nat
import Mathlib.Order.Bounds.Basic
import LinuxKernelProg.EBpf.FuncLatency.Calls

/-!
# The function latency profiler: minimum and maximum

The slot of the minimum starts with 0, and 0 there means that no call was seen yet. A call of
duration 0 is therefore forgotten by the next one that takes longer. The maximum also starts with 0,
which is below every duration, and is always right.
-/

namespace LinuxKernelProg.EBpf.FuncLatency

open LinuxKernelProg.Lib

/-! ## Sequences of durations -/

section Durations

variable {d : BitVec 64} {ds : List (BitVec 64)}

theorem recorded_min_mem (hne : ds ≠ []) : (recorded ds).stats 2 ∈ ds := by
  induction ds with
  | nil => exact absurd rfl hne
  | cons d ds ih =>
    rw [recorded_cons, Maps.record_min]
    split
    · exact List.mem_cons_self
    · rename_i hv
      refine List.mem_cons_of_mem d (ih fun hnil => ?_)
      subst hnil
      exact hv (.inl rfl)

theorem recorded_min_le (hzero : 0 ∉ ds) (hd : d ∈ ds) : (recorded ds).stats 2 ≤ d := by
  induction ds with
  | nil => cases hd
  | cons d' ds ih =>
    have hzero : 0 ∉ ds := fun h => hzero (List.mem_cons_of_mem d' h)
    rw [recorded_cons, Maps.record_min]
    rcases List.mem_cons.1 hd with rfl | hd
    · split
      · exact BitVec.le_refl d
      · rename_i hv
        exact BitVec.not_lt.1 fun h => hv (.inr h)
    · have hle := ih hzero hd
      split
      · rename_i hv
        -- a value of 0 would be a duration, as one was recorded
        have hv0 : (recorded ds).stats 2 ≠ 0 := fun h =>
          hzero (h ▸ recorded_min_mem (List.ne_nil_of_mem hd))
        exact BitVec.le_trans (BitVec.le_of_lt (hv.resolve_left hv0)) hle
      · exact hle

theorem recorded_min_zero : (recorded (d :: ds)).stats 2 = 0 ↔ d = 0 := by
  rw [recorded_cons, Maps.record_min]
  constructor
  · intro h
    split at h
    · exact h
    · rename_i hv
      exact absurd (.inl h) hv
  · rintro rfl
    split
    · rfl
    · rename_i hv
      exact absurd ((BitVec.pos_iff_ne_zero _).2 fun h => hv (.inl h)) fun h => hv (.inr h)

theorem recorded_max_mem (hne : ds ≠ []) : (recorded ds).stats 3 ∈ ds := by
  induction ds with
  | nil => exact absurd rfl hne
  | cons d ds ih =>
    rw [recorded_cons, Maps.record_max]
    split
    · exact List.mem_cons_self
    · rename_i hv
      by_cases hnil : ds = []
      · subst hnil
        have hd : d = 0 := by
          by_contra h
          exact hv ((BitVec.pos_iff_ne_zero d).2 h)
        exact List.mem_cons.2 (.inl hd.symm)
      · exact List.mem_cons_of_mem d (ih hnil)

theorem le_recorded_max (hd : d ∈ ds) : d ≤ (recorded ds).stats 3 := by
  induction ds with
  | nil => cases hd
  | cons d' ds ih =>
    rw [recorded_cons, Maps.record_max]
    rcases List.mem_cons.1 hd with rfl | hd
    · split
      · exact BitVec.le_refl d
      · rename_i hv
        exact BitVec.not_lt.1 hv
    · split
      · rename_i hv
        exact BitVec.le_trans (ih hd) (BitVec.le_of_lt hv)
      · exact ih hd

/-- The sum of the durations, not cut to 64 bits. -/
def nsTotal (ds : List (BitVec 64)) : Nat := (ds.map BitVec.toNat).sum

theorem nsTotal_mod (ds : List (BitVec 64)) : ds.sum.toNat = nsTotal ds % 2 ^ 64 := by
  induction ds with
  | nil => rfl
  | cons d ds ih =>
    rw [List.sum_cons, BitVec.toNat_add, ih, Nat.add_mod_mod, nsTotal, nsTotal, List.map_cons,
      List.sum_cons]

theorem length_mul_le_nsTotal {n : Nat} (h : ∀ d ∈ ds, n ≤ d.toNat) :
    ds.length * n ≤ nsTotal ds := by
  have := List.card_nsmul_le_sum (ds.map BitVec.toNat) n (by simpa using h)
  rwa [List.length_map, smul_eq_mul] at this

theorem nsTotal_le_length_mul {n : Nat} (h : ∀ d ∈ ds, d.toNat ≤ n) :
    nsTotal ds ≤ ds.length * n := by
  have := List.sum_le_card_nsmul (ds.map BitVec.toNat) n (by simpa using h)
  rwa [List.length_map, smul_eq_mul] at this

/-- From 2 ^ 64 calls on, the sum divided by their number, cut to 64 bits, is at most one of the
durations. -/
def CountFits (ds : List (BitVec 64)) : Prop :=
  2 ^ 64 ≤ ds.length → nsTotal ds < 2 ^ 64 →
    ∃ d ∈ ds, nsTotal ds / (ds.length % 2 ^ 64) ≤ d.toNat

/-- A duration of 0 is only right while it is the latest one. -/
def ZeroLatest (ds : List (BitVec 64)) : Prop := 0 ∈ ds → ds.head? = some 0 ∧ CountFits ds

instance (ds : List (BitVec 64)) : Decidable (CountFits ds) :=
  inferInstanceAs (Decidable (2 ^ 64 ≤ ds.length → nsTotal ds < 2 ^ 64 →
    ∃ d ∈ ds, nsTotal ds / (ds.length % 2 ^ 64) ≤ d.toNat))

instance (ds : List (BitVec 64)) : Decidable (ZeroLatest ds) :=
  inferInstanceAs (Decidable (0 ∈ ds → ds.head? = some 0 ∧ CountFits ds))

/-- What `stats` says of the durations. -/
structure Extremes (stats : ArrayMap (BitVec 64) 4) (ds : List (BitVec 64)) : Prop where
  min : IsLeast {d | d ∈ ds} (stats 2)
  max : IsGreatest {d | d ∈ ds} (stats 3)
  mean : nsTotal ds < 2 ^ 64 → stats 2 ≤ stats 1 / stats 0 ∧ stats 1 / stats 0 ≤ stats 3

theorem recorded_mean (ht : nsTotal ds < 2 ^ 64) :
    ((recorded ds).stats 1 / (recorded ds).stats 0).toNat = nsTotal ds / (ds.length % 2 ^ 64) := by
  rw [BitVec.toNat_udiv, recorded_total, recorded_count, nsTotal_mod, BitVec.toNat_ofNat,
    Nat.mod_eq_of_lt ht]

theorem recorded_isGreatest (hne : ds ≠ []) : IsGreatest {d | d ∈ ds} ((recorded ds).stats 3) :=
  ⟨recorded_max_mem hne, fun _ hd => le_recorded_max hd⟩

theorem recorded_isLeast_iff (hne : ds ≠ []) :
    IsLeast {d | d ∈ ds} ((recorded ds).stats 2) ↔ (0 ∈ ds → ds.head? = some 0) := by
  obtain ⟨d, ds, rfl⟩ := List.exists_cons_of_ne_nil hne
  rw [List.head?_cons, Option.some.injEq, ← @recorded_min_zero d ds]
  constructor
  · intro hleast hzero
    have hle := hleast.2 hzero
    exact BitVec.le_zero_iff.1 hle
  · intro hzero
    refine ⟨recorded_min_mem hne, fun x hx => ?_⟩
    by_cases h0 : 0 ∈ d :: ds
    · rw [hzero h0]
      exact Nat.zero_le x.toNat
    · exact recorded_min_le h0 hx

/-- The mean is between the two, if the number of calls has not wrapped. -/
theorem recorded_mean_between (hlen : ds.length < 2 ^ 64) (hne : ds ≠ [])
    (hmin : IsLeast {d | d ∈ ds} ((recorded ds).stats 2)) (ht : nsTotal ds < 2 ^ 64) :
    (recorded ds).stats 2 ≤ (recorded ds).stats 1 / (recorded ds).stats 0 ∧
      (recorded ds).stats 1 / (recorded ds).stats 0 ≤ (recorded ds).stats 3 := by
  have hpos : 0 < ds.length := List.length_pos_of_ne_nil hne
  rw [BitVec.le_def, BitVec.le_def, recorded_mean ht, Nat.mod_eq_of_lt hlen]
  constructor
  · rw [Nat.le_div_iff_mul_le hpos, Nat.mul_comm]
    exact length_mul_le_nsTotal fun d hd => BitVec.le_def.1 (hmin.2 hd)
  · apply Nat.div_le_of_le_mul
    exact nsTotal_le_length_mul fun d hd => BitVec.le_def.1 (le_recorded_max hd)

theorem extremes_recorded_iff (hne : ds ≠ []) :
    Extremes (recorded ds).stats ds ↔ ZeroLatest ds := by
  constructor
  · intro h hzero
    refine ⟨(recorded_isLeast_iff hne).1 h.min hzero, fun _ ht => ?_⟩
    refine ⟨(recorded ds).stats 3, recorded_max_mem hne, ?_⟩
    rw [← recorded_mean ht, ← BitVec.le_def]
    exact (h.mean ht).2
  · intro h
    have hmin := (recorded_isLeast_iff hne).2 fun hzero => (h hzero).1
    refine ⟨hmin, recorded_isGreatest hne, fun ht => ?_⟩
    by_cases hlen : ds.length < 2 ^ 64
    · exact recorded_mean_between hlen hne hmin ht
    · -- so many calls and so small a sum: one of them took no time
      have hzero : 0 ∈ ds := by
        by_contra hzero
        have hone : ∀ d ∈ ds, 1 ≤ d.toNat := fun d hd => Nat.pos_of_ne_zero fun h0 => by
          have h0 : d = 0 := BitVec.eq_of_toNat_eq h0
          exact hzero (h0 ▸ hd)
        have := length_mul_le_nsTotal hone
        omega
      have hmin0 : (recorded ds).stats 2 = 0 := BitVec.le_zero_iff.1 (hmin.2 hzero)
      obtain ⟨d, hd, hle⟩ := (h hzero).2 (Nat.not_lt.1 hlen) ht
      constructor
      · rw [hmin0]
        exact Nat.zero_le _
      · rw [BitVec.le_def, recorded_mean ht]
        exact Nat.le_trans hle (BitVec.le_def.1 (le_recorded_max hd))

end Durations

/-! ## Traces -/

/-- The durations of the completed calls, the latest one first. -/
def durations (h : List Event) : List (BitVec 64) := (completed h).map Call.duration

variable {h : List Event}

theorem measured_eq_completed (hout : Each Outside h) : measured h = completed h := by
  induction h with
  | nil => rfl
  | cons e past ih =>
    have ih := ih hout.2
    cases e with
    | entry t ts => exact ih
    | exit t ts =>
      have hstack := stack_eq_slot hout.2 t
      simp only [measured, completed, calls] at ih ⊢
      rw [hstack, Option.head?_toList, ih]

/-- **Minimum, maximum and mean.** After one or more completed calls without recursion they are
right exactly when a duration of 0 is the latest one. -/
theorem extremes_iff (hout : Each Outside h) (hroom : Each Room h) (hne : completed h ≠ []) :
    Extremes (after h).stats (durations h) ↔ ZeroLatest (durations h) := by
  have hstats : (after h).stats = (recorded (durations h)).stats := by
    rw [after_eq hroom, measured_eq_completed hout, durations]
  rw [hstats]
  apply extremes_recorded_iff
  rw [durations, ne_eq, List.map_eq_nil_iff]
  exact hne

theorem extremes_of_three_calls :
    let h : List Event := [.exit 1 50, .entry 1 50, .exit 2 40, .exit 1 35,
      .entry 2 30, .entry 1 10]
    Each Outside h ∧ Each Room h ∧ completed h ≠ [] ∧ ZeroLatest (durations h) ∧
      Extremes (after h).stats (durations h) :=
  ⟨by decide, by decide, by decide, by decide,
    (extremes_iff (by decide) (by decide) (by decide)).2 (by decide)⟩

/-- A call that takes no time and then one of 10 ns: the minimum is 10. -/
theorem zero_forgotten : ¬ ∀ h, Each Outside h → Each Room h → completed h ≠ [] →
    Extremes (after h).stats (durations h) := by
  intro h
  have hmin := (h [.exit 1 30, .entry 1 20, .exit 1 5, .entry 1 5] (by decide) (by decide)
    (by decide)).min
  have hzero : 0 ∈ durations [.exit 1 30, .entry 1 20, .exit 1 5, .entry 1 5] := by decide
  exact absurd (hmin.2 hzero) (by decide)

end LinuxKernelProg.EBpf.FuncLatency
