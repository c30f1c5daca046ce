import LinuxKernelProg.Lib.Run

/-!
# Threads that are stopped

A component has threads, and each of them is stopped by `kthread_stop` at some time. Nobody holds a
reference to their task structures, so a thread whose function returns before it is asked to takes
its task structure with it, and a `kthread_stop` that comes later works on freed memory.

`Kthreads.Account.stopsRunning` is the rule: as long as no thread leaves unasked, each
`kthread_stop` finds a thread that runs.
-/

namespace LinuxKernelProg.Lib

/-- A thread, to those who stop it. -/
structure Task where
  /-- `kthread_stop` has been called. -/
  asked : Bool
  /-- Its function has returned. -/
  returned : Bool

structure Kthreads where
  State : Type
  Action : Type
  step : State → Action → Option State
  init : State
  /-- The threads that have been made. -/
  tasks : State → List Task
  /-- The thread that the step calls `kthread_stop` for. -/
  stops : State → Action → Option Nat
  /-- The thread whose function returns in the step, with its loop at its bound and nobody
  asking. -/
  leaves : State → Action → Option Nat

namespace Kthreads

variable (m : Kthreads)

def asked (s : m.State) (k : Nat) : Bool := ((m.tasks s)[k]?).any (·.asked)

def returned (s : m.State) (k : Nat) : Bool := ((m.tasks s)[k]?).any (·.returned)

/-- Each `kthread_stop` of the run is for a thread whose function has not returned. -/
def StopsRunning (as : List m.Action) : Prop :=
  Along m.step (fun s a => ∀ k, m.stops s a = some k → m.returned s k = false) m.init as

/-- No thread of the run leaves unasked. -/
def NoneLeaves (as : List m.Action) : Prop :=
  Along m.step (fun s a => m.leaves s a = none) m.init as

instance (as : List m.Action) : Decidable (m.NoneLeaves as) := Along.decidable ..

/-- What a step does to the threads. -/
inductive Effect (s : m.State) (a : m.Action) (t : m.State) : Prop where
  /-- Nothing. -/
  | other (stops : m.stops s a = none) (leaves : m.leaves s a = none)
      (tasks : m.tasks t = m.tasks s)
  /-- It makes one. -/
  | make (stops : m.stops s a = none) (leaves : m.leaves s a = none)
    (tasks : m.tasks t = m.tasks s ++ [⟨false, false⟩])
  /-- It is a step of the thread. -/
  | work (k : Nat) (asked returned : Bool) (stops : m.stops s a = none)
    (leaves : m.leaves s a = if returned && !asked then some k else none)
    (before : (m.tasks s)[k]? = some ⟨asked, false⟩)
    (tasks : m.tasks t = (m.tasks s).set k ⟨asked, returned⟩)
  /-- It stops the thread, for the first time. -/
  | stop (k : Nat) (returned : Bool) (stops : m.stops s a = some k) (leaves : m.leaves s a = none)
    (before : (m.tasks s)[k]? = some ⟨false, returned⟩)
    (tasks : m.tasks t = (m.tasks s).set k ⟨true, returned⟩)

namespace Effect

variable {m} {s t : m.State} {a : m.Action} {k : Nat} (e : m.Effect s a t)
include e

theorem fresh_of_stops (h : m.stops s a = some k) : m.asked s k = false := by
  cases e with
  | other stops | make stops | work _ _ _ stops =>
    rw [stops] at h
    cases h
  | stop j _ stops _ before =>
    rw [stops] at h
    cases h
    rw [asked, before, Option.any_some]

theorem asked_iff : m.asked t k = true ↔ m.asked s k = true ∨ m.stops s a = some k := by
  unfold asked
  cases e with
  | other stops _ tasks => simp [stops, tasks]
  | make stops _ tasks =>
    rw [tasks, stops, any_getElem?_append rfl]
    simp
  | work j _ _ stops _ before tasks =>
    rw [tasks, stops, any_getElem?_set before]
    split
    · next hk => simp [hk, before]
    · simp
  | stop j _ stops _ before tasks =>
    rw [tasks, stops, any_getElem?_set before]
    split
    · next hk => simp [hk]
    · next hk => simp [Ne.symm hk]

theorem returned_cases (h : m.returned t k = true) :
    m.returned s k = true ∨ m.asked s k = true ∨ m.leaves s a = some k := by
  unfold returned asked at *
  cases e with
  | other _ _ tasks => exact .inl (tasks ▸ h)
  | make _ _ tasks =>
    rw [tasks, any_getElem?_append rfl] at h
    exact .inl h
  | work j asked returned _ leaves before tasks =>
    rw [tasks, any_getElem?_set before] at h
    split at h
    · next hk =>
      have hret : returned = true := h
      rw [hk, before, leaves, hret]
      cases asked with
      | false => exact .inr (.inr rfl)
      | true => exact .inr (.inl rfl)
    · exact .inl h
  | stop j _ _ _ before tasks =>
    rw [tasks, any_getElem?_set before] at h
    split at h
    · next hk =>
      rw [hk, before]
      exact .inl h
    · exact .inl h

theorem stays (h : m.returned s k = true) : m.returned t k = true := by
  unfold returned at *
  cases e with
  | other _ _ tasks => rwa [tasks]
  | make _ _ tasks => rwa [tasks, any_getElem?_append rfl]
  | work j _ _ _ _ before tasks =>
    rw [tasks, any_getElem?_set before]
    split
    · next hk =>
      rw [hk, before] at h
      cases h
    · exact h
  | stop j _ _ _ before tasks =>
    rw [tasks, any_getElem?_set before]
    split
    · next hk =>
      rw [hk, before] at h
      exact h
    · exact h

theorem of_leaves (h : m.leaves s a = some k) : m.returned t k = true ∧ m.asked t k = false := by
  cases e with
  | other _ leaves | make _ leaves | stop _ _ _ leaves =>
    rw [leaves] at h
    cases h
  | work j _ _ _ leaves before tasks =>
    rw [leaves] at h
    split at h
    · next hj =>
      cases h
      rw [Bool.and_eq_true, Bool.not_eq_true'] at hj
      rw [returned, asked, tasks, any_getElem?_set before, any_getElem?_set before,
        if_pos rfl, if_pos rfl]
      exact hj
    · cases h

end Effect

/-- How the steps deal with the threads. -/
structure Account where
  Inv : m.State → Prop
  inv_init : Inv m.init
  inv_step : ∀ {s a t}, Inv s → m.step s a = some t → Inv t
  returned_init : ∀ x ∈ m.tasks m.init, x.returned = false
  effect : ∀ {s a t}, Inv s → m.step s a = some t → m.Effect s a t

namespace Account

variable {m} (A : m.Account) {as : List m.Action} {s t : m.State} {k : Nat}
include A

/-- Whoever has returned was asked to. -/
theorem asked_of_returned_step {a : m.Action} (hs : A.Inv s) (hst : m.step s a = some t)
    (hleaves : m.leaves s a = none) (h : ∀ k, m.returned s k = true → m.asked s k = true) (k : Nat)
    (hret : m.returned t k = true) : m.asked t k = true := by
  have e := A.effect hs hst
  rw [e.asked_iff]
  rcases e.returned_cases hret with hret | hasked | hk
  · exact .inl (h k hret)
  · exact .inl hasked
  · rw [hleaves] at hk
    cases hk

/-- **Rule.** -/
theorem stopsRunning (h : run m.step m.init as = some t) (hnone : m.NoneLeaves as) :
    m.StopsRunning as ∧ ∀ k, m.returned t k = true → m.asked t k = true := by
  have hstep : ∀ {s a t}, (A.Inv s ∧ ∀ k, m.returned s k = true → m.asked s k = true) →
      m.leaves s a = none → m.step s a = some t →
      A.Inv t ∧ ∀ k, m.returned t k = true → m.asked t k = true := fun hs hleaves hst =>
    ⟨A.inv_step hs.1 hst, A.asked_of_returned_step hs.1 hst hleaves hs.2⟩
  have hinit : ∀ k, m.returned m.init k = true → m.asked m.init k = true := by
    intro k hret
    obtain ⟨x, hx, hret⟩ := (Option.any_eq_true ..).1 hret
    rw [A.returned_init x (List.mem_of_getElem? hx)] at hret
    cases hret
  refine ⟨?_, (run_inv hstep ⟨A.inv_init, hinit⟩ hnone h).2⟩
  apply Along.of_get
  intro i a s ha hs k hk
  obtain ⟨hinv, hasked⟩ := run_inv hstep ⟨A.inv_init, hinit⟩ (hnone.take i) hs
  obtain ⟨u, v, hu, hv, -⟩ := run_getElem? h ha
  obtain rfl := Option.some.inj (hu.symm.trans hs)
  have hfresh := (A.effect hinv hv).fresh_of_stops hk
  refine Bool.eq_false_iff.2 fun hret => ?_
  rw [hasked k hret] at hfresh
  cases hfresh

/-- A thread that has left unasked is never stopped, if only those that run are. -/
theorem unasked_step {a : m.Action} (hs : A.Inv s) (hst : m.step s a = some t)
    (hstops : ∀ k, m.stops s a = some k → m.returned s k = false)
    (h : m.returned s k = true ∧ m.asked s k = false) :
    m.returned t k = true ∧ m.asked t k = false := by
  have e := A.effect hs hst
  refine ⟨e.stays h.1, Bool.eq_false_iff.2 fun hasked => ?_⟩
  rcases e.asked_iff.1 hasked with hasked | hk
  · rw [h.2] at hasked
    cases hasked
  · have hrun := hstops k hk
    rw [h.1] at hrun
    cases hrun

theorem noneLeaves (h : run m.step m.init as = some t) (hstops : m.StopsRunning as)
    (hasked : ∀ k, m.returned t k = true → m.asked t k = true) : m.NoneLeaves as := by
  apply Along.of_get
  intro i a s ha hs
  cases hk : m.leaves s a with
  | none => rfl
  | some k =>
    obtain ⟨u, v, hu, hv, htake, hrest⟩ := run_getElem? h ha
    obtain rfl := Option.some.inj (hu.symm.trans hs)
    have hinv : A.Inv u := run_inv_of_step A.inv_step A.inv_init hu
    have hsplit := hstops
    rw [StopsRunning, ← List.take_append_drop (i + 1) as, Along.append htake] at hsplit
    have hend := run_inv (I := fun s => A.Inv s ∧ m.returned s k = true ∧ m.asked s k = false)
      (fun hs hc hst => ⟨A.inv_step hs.1 hst, A.unasked_step hs.1 hst hc hs.2⟩)
      ⟨A.inv_step hinv hv, (A.effect hinv hv).of_leaves hk⟩ hsplit.2 hrest
    have hfalse := hasked k hend.2.1
    rw [hend.2.2] at hfalse
    cases hfalse

/-- The condition is enough, and where each thread that has returned was stopped as well, it is
needed. -/
theorem stopsRunning_iff (h : run m.step m.init as = some t) :
    (m.NoneLeaves as → m.StopsRunning as) ∧
      ((∀ k, m.returned t k = true → m.asked t k = true) → (m.StopsRunning as ↔ m.NoneLeaves as)) :=
  ⟨fun hnone => (A.stopsRunning h hnone).1,
    fun hasked => ⟨fun hstops => A.noneLeaves h hstops hasked,
      fun hnone => (A.stopsRunning h hnone).1⟩⟩

end Account

end Kthreads

end LinuxKernelProg.Lib
