import Mathlib.Data.List.Defs

/-!
# Histories

A history is the list of the events so far, the latest one first, so its tails are the points it
went through. `Always` says what holds at every point, `Each` what every event meets in its past.
`always_iff_each` is the rule for both: where one step keeps `P` exactly when its event meets `C`,
`P` holds at every point exactly when every event meets `C`.
-/

namespace LinuxKernelProg.Lib

variable {α : Type}

/-- `P` holds at every point of the history. -/
def Always (P : List α → Prop) : List α → Prop
  | [] => P []
  | e :: past => P (e :: past) ∧ Always P past

/-- Every event of the history meets `C` in its past. -/
def Each (C : List α → α → Prop) : List α → Prop
  | [] => True
  | e :: past => C past e ∧ Each C past

instance Each.decidable (C : List α → α → Prop) [∀ past e, Decidable (C past e)] :
    ∀ h, Decidable (Each C h)
  | [] => inferInstanceAs (Decidable True)
  | e :: past =>
    have := Each.decidable C past
    inferInstanceAs (Decidable (C past e ∧ Each C past))

variable {P Q : List α → Prop} {A C D : List α → α → Prop} {h : List α}

theorem Always.now (hP : Always P h) : P h := by
  cases h with
  | nil => exact hP
  | cons e past => exact hP.1

theorem Always.imp (hPQ : ∀ {h}, P h → Q h) (hP : Always P h) : Always Q h := by
  induction h with
  | nil => exact hPQ hP
  | cons e past ih => exact ⟨hPQ hP.1, ih hP.2⟩

/-- An event may meet its condition because of what the events before it have met. -/
theorem Each.imp (hCD : ∀ {past e}, Each D past → Each C past → C past e → D past e)
    (hC : Each C h) : Each D h := by
  induction h with
  | nil => trivial
  | cons e past ih =>
    have hD := ih hC.2
    exact ⟨hCD hD hC.2 hC.1, hD⟩

theorem Each.of_forall (hC : ∀ past e, C past e) : Each C h := by
  induction h with
  | nil => trivial
  | cons e past ih => exact ⟨hC past e, ih⟩

/-- A condition on the event alone. -/
theorem each_iff_forall {p : α → Prop} : Each (fun _ e => p e) h ↔ ∀ e ∈ h, p e := by
  induction h with
  | nil => simp [Each]
  | cons e past ih => rw [Each, ih, List.forall_mem_cons]

theorem Each.and (hC : Each C h) (hD : Each D h) : Each (fun past e => C past e ∧ D past e) h := by
  induction h with
  | nil => trivial
  | cons e past ih => exact ⟨⟨hC.1, hD.1⟩, ih hC.2 hD.2⟩

theorem Each.congr (hCD : ∀ {past e}, Each A past → (C past e ↔ D past e)) (hA : Each A h) :
    Each C h ↔ Each D h := by
  induction h with
  | nil => rfl
  | cons e past ih => exact and_congr (hCD hA.2) (ih hA.2)

/-- Where `A` is assumed of the events, and an event keeps `P` exactly when it meets `C`. -/
theorem always_iff_each (hnil : P [])
    (hcons : ∀ {past e}, Each A (e :: past) → P past → (P (e :: past) ↔ C past e)) (hA : Each A h) :
    Always P h ↔ Each C h := by
  induction h with
  | nil => exact iff_of_true hnil trivial
  | cons e past ih =>
    have ih := ih hA.2
    constructor
    · rintro ⟨hP, hpast⟩
      exact ⟨(hcons hA hpast.now).1 hP, ih.1 hpast⟩
    · rintro ⟨hC, hpast⟩
      have hpast := ih.2 hpast
      exact ⟨(hcons hA hpast.now).2 hC, hpast⟩

end LinuxKernelProg.Lib
