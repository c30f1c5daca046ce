import Mathlib.Logic.Relation
import Mathlib.Order.Lattice

/-!
# While loops

The condition and the body of a loop are one function: `none` where the condition fails, otherwise
the state after the body. `loop` runs it with fuel, and `Exits` says that enough fuel ends the loop.
-/

namespace LinuxKernelProg.Lib

variable {σ : Type} (body : σ → Option σ)

/-- The state in which the loop ends, if the fuel is enough for that. -/
def loop : Nat → σ → Option σ
  | 0, _ => none
  | fuel + 1, s =>
    match body s with
    | none => some s
    | some s' => loop fuel s'

/-- The loop ends, in the state `t`. -/
def Exits (s t : σ) : Prop := ∃ fuel, loop body fuel s = some t

/-- The loop comes through the state `t`. -/
def Visits (s t : σ) : Prop := Relation.ReflTransGen (fun a b => body a = some b) s t

variable {body} {s s' t t' : σ}

theorem exits_of_none (h : body s = none) : Exits body s s := ⟨1, by simp only [loop, h]⟩

theorem Exits.step (h : body s = some s') (ht : Exits body s' t) : Exits body s t := by
  obtain ⟨fuel, ht⟩ := ht
  exact ⟨fuel + 1, by simp only [loop, h, ht]⟩

theorem loop_unique {n : Nat} (ht : loop body n s = some t) :
    ∀ {n'}, loop body n' s = some t' → t = t' := by
  induction n generalizing s with
  | zero => cases ht
  | succ n ih =>
    intro n' ht'
    cases n' with
    | zero => cases ht'
    | succ n' =>
      rw [loop] at ht ht'
      cases h : body s with
      | none =>
        rw [h] at ht ht'
        cases ht
        cases ht'
        rfl
      | some s' =>
        rw [h] at ht ht'
        exact ih ht ht'

/-- A loop ends in one state at most. -/
theorem Exits.unique (ht : Exits body s t) (ht' : Exits body s t') : t = t' := by
  obtain ⟨n, ht⟩ := ht
  obtain ⟨n', ht'⟩ := ht'
  exact loop_unique ht ht'

/-- Where the body has an end, the loop comes through no other one. -/
theorem Visits.eq_of_none (h : Visits body s t') (hn : body t' = none) (ht : Exits body s t) :
    t' = t := by
  have : Exits body s t' := by
    induction h using Relation.ReflTransGen.head_induction_on with
    | refl => exact exits_of_none hn
    | head hab _ ih =>
      obtain ⟨n, hl⟩ := ht
      cases n with
      | zero => cases hl
      | succ n =>
        rw [loop, hab] at hl
        exact (ih ⟨n, hl⟩).step hab
  exact this.unique ht

/-- The body of a loop that counts its rounds. -/
def countWhile (p : Nat → Bool) (i : Nat) : Option Nat := if p i then some (i + 1) else none

/-- It ends at the first number for which the condition fails. -/
theorem exits_countWhile_iff {p : Nat → Bool} {k i : Nat} :
    Exits (countWhile p) k i ↔ k ≤ i ∧ p i = false ∧ ∀ j, k ≤ j → j < i → p j = true := by
  constructor
  · rintro ⟨fuel, h⟩
    induction fuel generalizing k with
    | zero => cases h
    | succ fuel ih =>
      rw [loop, countWhile] at h
      cases hp : p k with
      | false =>
        rw [hp] at h
        cases h
        exact ⟨Nat.le_refl i, hp, fun j hij hji => absurd hji (Nat.not_lt.2 hij)⟩
      | true =>
        rw [hp] at h
        obtain ⟨hle, hi, hall⟩ := ih h
        refine ⟨Nat.le_of_succ_le hle, hi, fun j hkj hji => ?_⟩
        rcases Nat.eq_or_lt_of_le hkj with rfl | hlt
        · exact hp
        · exact hall j hlt hji
  · rintro ⟨hle, hi, hall⟩
    obtain ⟨d, rfl⟩ := Nat.exists_eq_add_of_le hle
    clear hle
    induction d generalizing k with
    | zero =>
      refine exits_of_none ?_
      rw [Nat.add_zero] at hi
      rw [countWhile, hi, if_neg Bool.false_ne_true]
    | succ d ih =>
      have hp := hall k (Nat.le_refl k) (by omega)
      refine Exits.step (by rw [countWhile, hp, if_pos rfl]) ?_
      rw [← Nat.add_assoc, Nat.add_right_comm] at hi hall ⊢
      exact ih hi fun j hkj hji => hall j (by omega) hji

/-- A loop that waits for `f` to be at least `d` ends at the first number at which it is. -/
theorem exits_countWhile_lt_iff {α : Type} [LinearOrder α] {f : Nat → α} {d : α} {p : Nat → Bool}
    {k i : Nat} (hp : ∀ j ≤ i, p j = true ↔ f j < d) :
    Exits (countWhile p) k i ↔ k ≤ i ∧ d ≤ f i ∧ ∀ j, k ≤ j → j < i → f j < d := by
  rw [exits_countWhile_iff, ← Bool.not_eq_true, hp i (Nat.le_refl i), not_lt]
  refine and_congr_right fun _ => and_congr_right fun _ => ?_
  exact forall_congr' fun j => imp_congr_right fun _ =>
    forall_congr' fun hji => hp j (Nat.le_of_lt hji)

end LinuxKernelProg.Lib
