import LinuxKernelProg.Lib.Run

/-!
# What is owed at the end of a run

`tally` counts the steps of a run that meet a condition. Where every step changes a balance by what
it opens and what it closes, the balance at the end of a run is known from the two tallies
(`balance_of_run`). `record` puts down what the steps of a run have done, for invariants that speak
of it (`record_of_run`).

An `Unload` is a component that is loaded, runs, and returns from its exit function, with callbacks
queued on the way that somebody else runs. What is still queued at the return is then known from
what the component owes and from what was run (`Unload.Account.pending_iff`).
-/

namespace LinuxKernelProg.Lib

section

variable {σ α : Type} (step : σ → α → Option σ)

/-- How many steps of a run meet `P` in the state they are taken from. -/
def tally (P : σ → α → Bool) : σ → List α → Nat
  | _, [] => 0
  | s, a :: as => (P s a).toNat + (step s a).elim 0 fun t => tally P t as

variable {step}

theorem tally_cons {P : σ → α → Bool} {s t : σ} {a : α} (as : List α) (h : step s a = some t) :
    tally step P s (a :: as) = (P s a).toNat + tally step P t as := by
  rw [tally, h, Option.elim_some]

/-- **Balance rule.** -/
theorem balance_of_run {I : σ → Prop} (due : σ → Nat) {opens closes : σ → α → Bool}
    (hstep : ∀ {s a t}, I s → step s a = some t →
      I t ∧ due t + (closes s a).toNat = due s + (opens s a).toNat) :
    ∀ {as : List α} {s t : σ}, I s → run step s as = some t →
      I t ∧ due t + tally step closes s as = due s + tally step opens s as
  | [], _, _, hs, h => by
    cases h
    exact ⟨hs, rfl⟩
  | a :: as, s, t, hs, h => by
    obtain ⟨u, hu, hrest⟩ := run_cons.1 h
    obtain ⟨hui, hu'⟩ := hstep hs hu
    obtain ⟨ht, hrun⟩ := balance_of_run due hstep hui hrest
    refine ⟨ht, ?_⟩
    rw [tally_cons as hu, tally_cons as hu]
    omega

end

section

variable {σ α ε : Type} (step : σ → α → Option σ)

/-- What the steps of a run put on record, each in the state it is taken from. -/
def record (events : σ → α → List ε) : σ → List α → List ε
  | _, [] => []
  | s, a :: as => events s a ++ (step s a).elim [] fun t => record events t as

variable {step}

/-- **Record rule.** -/
theorem record_of_run {C : σ → α → Prop} {events : σ → α → List ε} {I : σ → List ε → Prop}
    (hstep : ∀ {s a t es}, I s es → C s a → step s a = some t → I t (es ++ events s a)) :
    ∀ {as : List α} {s t : σ} {es : List ε}, I s es → Along step C s as → run step s as = some t →
      I t (es ++ record step events s as)
  | [], s, t, es, hs, _, h => by
    cases h
    rwa [record, List.append_nil]
  | a :: as, s, t, es, hs, hC, h => by
    obtain ⟨u, hu, hrest⟩ := run_cons.1 h
    rw [record, hu, Option.elim_some, ← List.append_assoc]
    exact record_of_run hstep (hstep hs hC.1 hu) (hC.2 u hu) hrest

end

/-- A component from its loading on; the callbacks are `κ`. -/
structure Unload (κ : Type) where
  State : Type
  Action : Type
  step : State → Action → Option State
  init : State
  /-- The exit function has returned. -/
  returned : State → Bool
  /-- The callbacks that are queued. -/
  pending : State → List κ
  /-- A callback is run. -/
  callback : Action → Bool
  /-- From the step on, the component owes a callback. -/
  owes : State → Action → Bool

namespace Unload

variable {κ : Type} (u : Unload κ)

/-- A step, as long as the exit function has not returned. -/
def next (s : u.State) (a : u.Action) : Option u.State := if u.returned s then none else u.step s a

/-- How many callbacks were run. -/
def callbacks (as : List u.Action) : Nat := tally u.next (fun _ a => u.callback a) u.init as

/-- For how many steps a callback was owed. -/
def owed (as : List u.Action) : Nat := tally u.next u.owes u.init as

/-- How to keep account of the callbacks: some are queued, others are in hand. -/
structure Account where
  Inv : u.State → Prop
  hand : u.State → Nat
  inv_init : Inv u.init
  due_init : (u.pending u.init).length + hand u.init = 0
  step_inv : ∀ {s a t}, Inv s → u.returned s = false → u.step s a = some t → Inv t
  step_due : ∀ {s a t}, Inv s → u.returned s = false → u.step s a = some t →
    (u.pending t).length + hand t + (u.callback a).toNat =
      (u.pending s).length + hand s + (u.owes s a).toNat
  hand_returned : ∀ {s}, Inv s → u.returned s = true → hand s = 0

variable {u} {as : List u.Action} {t : u.State}

theorem step_of_next {s : u.State} {a : u.Action} (h : u.next s a = some t) :
    u.returned s = false ∧ u.step s a = some t := by
  unfold next at h
  split at h
  · cases h
  · next hret => exact ⟨Bool.eq_false_iff.2 hret, h⟩

namespace Account

theorem due_of_run (A : u.Account) (h : run u.next u.init as = some t) :
    A.Inv t ∧ (u.pending t).length + A.hand t + u.callbacks as = u.owed as := by
  obtain ⟨ht, hdue⟩ := balance_of_run (I := A.Inv) (fun s => (u.pending s).length + A.hand s)
    (fun hs hst =>
      have ⟨hret, hst⟩ := step_of_next hst
      ⟨A.step_inv hs hret hst, A.step_due hs hret hst⟩) A.inv_init h
  refine ⟨ht, ?_⟩
  rw [A.due_init, Nat.zero_add] at hdue
  exact hdue

/-- **At the return** no callback is queued exactly when as many were run as were owed. -/
theorem pending_iff (A : u.Account) (h : run u.next u.init as = some t) (ht : u.returned t = true) :
    u.pending t = [] ↔ u.callbacks as = u.owed as := by
  obtain ⟨hinv, hdue⟩ := A.due_of_run h
  have hhand := A.hand_returned hinv ht
  rw [← List.length_eq_zero_iff]
  omega

end Account

end Unload

end LinuxKernelProg.Lib
