import Mathlib.Data.List.Perm.Basic
import LinuxKernelProg.Lib.Run

/-!
# What is acquired and released

`settle` goes over the acquisitions and releases that some code makes and says what is held then; it
fails where something is released that is not held. A `KModule` is code that is loaded and unloaded:
it is neutral as long as nothing is held while it is not loaded, and the exit will find all that it
releases while it is.
-/

namespace LinuxKernelProg.Lib

/-- A pointer that a call returns; `none` is `NULL`. -/
abbrev Ptr := Option Nat

inductive Use (ρ : Type) where
  | acquire (r : ρ)
  | release (r : ρ)
  deriving DecidableEq

section

variable {ρ : Type} [DecidableEq ρ]

/-- What is held after the calls; `none` if something is released that is not held. -/
def settle : List ρ → List (Use ρ) → Option (List ρ)
  | held, [] => some held
  | held, .acquire r :: us => settle (r :: held) us
  | held, .release r :: us => if held.contains r then settle (held.erase r) us else none

variable {held : List ρ} {r : ρ} {rs : List ρ} {us vs : List (Use ρ)}

theorem settle_append :
    settle held (us ++ vs) = (settle held us).bind fun held => settle held vs := by
  induction us generalizing held with
  | nil => rfl
  | cons u us ih =>
    cases u with
    | acquire r => exact ih
    | release r =>
      simp only [List.cons_append, settle]
      split
      · exact ih
      · rfl

theorem settle_acquire (rs : List ρ) :
    settle held (rs.map .acquire) = some (rs.reverse ++ held) := by
  induction rs generalizing held with
  | nil => rfl
  | cons r rs ih => rw [List.map_cons, settle, ih, List.reverse_cons, List.append_assoc,
      List.singleton_append]

/-- **Everything is released once**, and nothing else, exactly when what is released is what was
held. -/
theorem settle_release_eq_nil : settle held (rs.map .release) = some [] ↔ rs.Perm held := by
  induction rs generalizing held with
  | nil => exact ⟨fun h => Option.some.inj h ▸ List.Perm.refl _,
      fun h => congrArg some h.nil_eq.symm⟩
  | cons r rs ih =>
    rw [List.map_cons, settle]
    by_cases hr : r ∈ held
    · rw [if_pos (List.contains_iff_mem.2 hr), ih, List.cons_perm_iff_perm_erase]
      exact ⟨fun h => ⟨hr, h⟩, And.right⟩
    · rw [if_neg fun h => hr (List.contains_iff_mem.1 h)]
      exact ⟨fun h => (by cases h), fun h => absurd (h.subset List.mem_cons_self) hr⟩

/-- Code that acquires `rs` and then releases `rs'` is through with both exactly when they are the
same. -/
theorem settle_acquire_release {rs' : List ρ} :
    settle [] (rs.map .acquire ++ rs'.map .release) = some [] ↔ rs'.Perm rs := by
  rw [settle_append, settle_acquire, Option.bind_some, settle_release_eq_nil, List.append_nil]
  exact ⟨fun h => h.trans (List.reverse_perm rs), fun h => h.trans (List.reverse_perm rs).symm⟩

/-- What is released again at once makes no difference. -/
theorem settle_pair :
    settle held (us ++ .acquire r :: .release r :: vs) = settle held (us ++ vs) := by
  rw [settle_append, settle_append]
  refine Option.bind_congr fun held' _ => ?_
  rw [settle, settle, List.contains_cons, beq_self_eq_true, Bool.true_or, if_pos rfl,
    List.erase_cons_head]

end

/-- How an init function comes to an end. -/
inductive Init (σ : Type) where
  /-- It does not return. -/
  | faults
  /-- It returns, with its static variables as they are then. -/
  | returns (ret : Int) (s : σ)

/-- An init function that fails leaves nothing behind, and one that succeeds what the exit will
release. -/
def Leaves {ρ σ : Type} [DecidableEq ρ] (exit : σ → List (Use ρ)) : List (Use ρ) × Init σ → Prop
  | (_, .faults) => False
  | (us, .returns ret st) =>
    if ret = 0 then ∃ held, settle [] us = some held ∧ (settle held (exit st)).isSome
    else settle [] us = some []

/-- A module, by what its functions acquire and release. -/
structure KModule where
  Res : Type
  [dec : DecidableEq Res]
  /-- What the calls that the init function makes come to. -/
  Outcomes : Type
  Statics : Type
  init : Outcomes → List (Use Res) × Init Statics
  exit : Statics → List (Use Res)

namespace KModule

variable (m : KModule)

instance : DecidableEq m.Res := m.dec

structure State where
  loaded : Option m.Statics
  /-- `none` if something was released that was not held. -/
  held : Option (List m.Res)
  faulted : Bool

inductive Attempt where
  | load (o : m.Outcomes)
  | unload

def start : m.State := ⟨none, some [], false⟩

/-- A module that is loaded is not loaded again, and one that is not loaded is not unloaded. -/
def step (s : m.State) (a : m.Attempt) : Option m.State :=
  if s.faulted then none
  else
    match a, s.loaded with
    | .load o, none =>
      let held := s.held.bind fun held => settle held (m.init o).1
      match (m.init o).2 with
      | .faults => some { s with held, faulted := true }
      | .returns ret st => some { s with held, loaded := if ret = 0 then some st else none }
    | .unload, some st =>
      some { s with loaded := none, held := s.held.bind fun held => settle held (m.exit st) }
    | _, _ => some s

/-- Nothing is held while the module is not loaded, and what the exit will release is held while it
is. -/
structure Neutral (s : m.State) : Prop where
  returned : s.faulted = false
  unloaded : s.loaded = none → s.held = some []
  loaded : ∀ st, s.loaded = some st → ∃ held, s.held = some held ∧ (settle held (m.exit st)).isSome

/-- The init function leaves nothing behind, or what the exit will release. -/
def Loads (o : m.Outcomes) : Prop := Leaves m.exit (m.init o)

/-- A load that fails leaves nothing behind, and one that succeeds nothing behind the unload. -/
def Clean (o : m.Outcomes) : Prop :=
  match m.init o with
  | (_, .faults) => False
  | (us, .returns ret st) => settle [] (if ret = 0 then us ++ m.exit st else us) = some []

/-- What is held is from a load that was `good`. -/
def Since (good : m.Outcomes → Prop) (s : m.State) : Prop :=
  ∀ st, s.loaded = some st → ∃ o us, m.init o = (us, .returns 0 st) ∧ s.held = settle [] us ∧ good o

/-- The module is loaded with a `good` outcome, and it is unloaded if the unload is `good`. -/
def Meets (good : m.Outcomes → Prop) (unloads : Prop) (s : m.State) : m.Attempt → Prop
  | .load o => s.loaded = none → good o
  | .unload => s.loaded ≠ none → unloads

variable {m} {good : m.Outcomes → Prop} {unloads : Prop} {s t : m.State} {o : m.Outcomes}

theorem clean_of_returns {us : List (Use m.Res)} {ret : Int} {st : m.Statics}
    (h : m.init o = (us, .returns ret st)) :
    m.Clean o ↔ settle [] (if ret = 0 then us ++ m.exit st else us) = some [] := by
  unfold Clean
  rw [h]

theorem neutral_load (hload : ∀ o, m.Loads o ↔ good o) (hs : m.Neutral s) (hnone : s.loaded = none)
    (h : m.step s (.load o) = some t) :
    (m.Neutral t ↔ good o) ∧ (m.Neutral t → m.Since good t) := by
  unfold step at h
  rw [hs.returned, hnone, hs.unloaded hnone] at h
  have hiff := hload o
  unfold Loads Leaves at hiff
  rcases hinit : m.init o with ⟨us, _ | ⟨ret, st⟩⟩ <;> simp only [hinit] at h hiff <;> cases h
  · exact ⟨⟨fun ht => (by cases ht.returned), fun hg => (hiff.2 hg).elim⟩,
      fun _ _ h => (by cases h)⟩
  · by_cases hret : ret = 0
    · simp only [hret, ↓reduceIte] at hiff hinit ⊢
      rw [← hiff]
      refine ⟨⟨fun ht => ht.loaded st rfl, fun hg => ⟨rfl, fun h => (by cases h), fun st' h => ?_⟩⟩,
        fun ht st' h => ?_⟩
      · cases h
        exact hg
      · cases h
        exact ⟨o, us, hinit, rfl, hiff.1 (ht.loaded st rfl)⟩
    · simp only [hret, ↓reduceIte] at hiff ⊢
      rw [← hiff]
      exact ⟨⟨fun ht => ht.unloaded rfl, fun hg => ⟨rfl, fun _ => hg, fun _ h => (by cases h)⟩⟩,
        fun _ _ h => (by cases h)⟩

theorem neutral_unload {st : m.Statics}
    (hunload : ∀ o us st, m.init o = (us, .returns 0 st) → good o →
      (settle [] (us ++ m.exit st) = some [] ↔ unloads))
    (hs : m.Neutral s) (hsince : m.Since good s) (hsome : s.loaded = some st)
    (h : m.step s .unload = some t) :
    (m.Neutral t ↔ unloads) ∧ m.Since good t := by
  obtain ⟨o, us, hinit, hheld, hgood⟩ := hsince st hsome
  unfold step at h
  rw [hs.returned, hsome, hheld] at h
  cases h
  rw [← hunload o us st hinit hgood, settle_append]
  exact ⟨⟨fun ht => ht.unloaded rfl, fun ht => ⟨rfl, fun _ => ht, fun _ h => (by cases h)⟩⟩,
    fun _ h => (by cases h)⟩

/-- Where an unload is good, only the loads have to be. -/
theorem meets_of_loads (hunloads : unloads) {as : List m.Attempt} (h : ∀ o, .load o ∈ as → good o) :
    Along m.step (m.Meets good unloads) s as := by
  refine Along.of_get fun i a t ha _ => ?_
  cases a with
  | load o => exact fun _ => h o (List.mem_of_getElem? ha)
  | unload => exact fun _ => hunloads

/-- **Neutral as long as** every load and every unload is good. -/
theorem neutral_iff (hload : ∀ o, m.Loads o ↔ good o)
    (hunload : ∀ o us st, m.init o = (us, .returns 0 st) → good o →
      (settle [] (us ++ m.exit st) = some [] ↔ unloads))
    {as : List m.Attempt} (h : run m.step m.start as = some t) :
    (∀ i u, run m.step m.start (as.take i) = some u → m.Neutral u) ↔
      Along m.step (m.Meets good unloads) m.start as := by
  refine forall_take_iff_along_of_inv (J := m.Since good) (fun {s a s'} hs hsince hstep => ?_)
    ⟨rfl, fun _ => rfl, fun _ h => (by cases h)⟩ (fun _ h => (by cases h)) h
  cases hl : s.loaded with
  | none =>
    cases a with
    | load o =>
      obtain ⟨hiff, hsince'⟩ := neutral_load hload hs hl hstep
      exact ⟨hiff.trans ⟨fun h _ => h, fun h => h hl⟩, hsince'⟩
    | unload =>
      unfold step at hstep
      rw [hs.returned, hl] at hstep
      cases hstep
      exact ⟨⟨fun _ h => absurd hl h, fun _ => hs⟩, fun _ => hsince⟩
  | some st =>
    cases a with
    | load o =>
      unfold step at hstep
      rw [hs.returned, hl] at hstep
      cases hstep
      exact ⟨⟨fun _ h => (by rw [hl] at h; cases h), fun _ => hs⟩, fun _ => hsince⟩
    | unload =>
      obtain ⟨hiff, hsince'⟩ := neutral_unload hunload hs hsince hl hstep
      exact ⟨hiff.trans ⟨fun h _ => h, fun h => h (by rw [hl]; exact Option.some_ne_none st)⟩,
        fun _ => hsince'⟩

end KModule

end LinuxKernelProg.Lib
