import LinuxKernelProg.Lib.Ledger

/-!
# The counter that is reset

`part1/kthread_at.c`: any number of threads increment the counter, and any number of others set it
back to zero once it is above 50. Every step is one access to shared data. The counter may have
changed since a checker read it; its exchange then finds another value, or the same value again, and
takes away just what is there.
-/

namespace LinuxKernelProg.Sync.KthreadAt

open LinuxKernelProg.Lib

/-! ## The program -/

structure Shared where
  counter : BitVec 32
  stop_threads : Bool
  deriving DecidableEq

/-- It returns what it finds, and stores `new` if that is `old`. -/
def atomic_cmpxchg (v old new : BitVec 32) : BitVec 32 × BitVec 32 :=
  (v, if v = old then new else v)

/-- Where `increaser_fn` or `checker_fn` is. -/
inductive Thread where
  /-- `increaser_fn`: at the test of its loop. -/
  | increaser
  /-- At `atomic_inc`. -/
  | inc
  /-- At the `atomic_read` of `pr_info`. -/
  | print
  /-- `checker_fn`: at the test of its loop. -/
  | checker
  /-- At `atomic_read`. -/
  | read
  /-- At `atomic_cmpxchg`. -/
  | cmpxchg (val : BitVec 32)
  | returned
  deriving DecidableEq

/-- `stop` is what `kthread_should_stop()` returns. -/
def Thread.step (sh : Shared) (stop : Bool) : Thread → Option (Shared × Thread)
  | .increaser => some (sh, if !stop && !sh.stop_threads then .inc else .returned)
  | .inc => some ({ sh with counter := sh.counter + 1 }, .print)
  | .print => some (sh, .increaser)
  | .checker => some (sh, if !stop && !sh.stop_threads then .read else .returned)
  | .read =>
    let val := sh.counter
    some (sh, if val.toInt > 50 then .cmpxchg val else .checker)
  | .cmpxchg val => some ({ sh with counter := (atomic_cmpxchg sh.counter val 0).2 }, .checker)
  | .returned => none

structure Sys where
  sh : Shared
  threads : List Thread
  /-- The threads for which `kthread_stop` was called. -/
  asked : List Nat

inductive Action where
  | thread (t : Nat)
  /-- `at_exit`: `stop_threads = true`. -/
  | stop
  /-- `at_exit`: `kthread_stop`. -/
  | kthread_stop (t : Nat)
  deriving DecidableEq

namespace Sys

/-- After `at_init`, with this many threads of each kind. -/
def start (increasers checkers : Nat) : Sys :=
  ⟨⟨0, false⟩, List.replicate increasers .increaser ++ List.replicate checkers .checker, []⟩

def step (s : Sys) : Action → Option Sys
  | .thread t =>
    (s.threads[t]?).bind fun th => (th.step s.sh (s.asked.contains t)).map fun r =>
      { s with sh := r.1, threads := s.threads.set t r.2 }
  | .stop => some { s with sh.stop_threads := true }
  | .kthread_stop t => some { s with asked := t :: s.asked }

end Sys

/-! ## What the threads do -/

inductive Event where
  | inc
  /-- The value was there, and zero has taken its place. -/
  | reset (old : BitVec 32)
  deriving DecidableEq

def Thread.events (sh : Shared) : Thread → List Event
  | .inc => [.inc]
  | .cmpxchg val =>
    let old := (atomic_cmpxchg sh.counter val 0).1
    if old = val then [.reset old] else []
  | _ => []

def Sys.events (s : Sys) : Action → List Event
  | .thread t => (s.threads[t]?).elim [] (Thread.events s.sh)
  | _ => []

/-- What happens in a run from the start. -/
def history (increasers checkers : Nat) (as : List Action) : List Event :=
  record Sys.step Sys.events (.start increasers checkers) as

def increments (es : List Event) : Nat := es.count .inc

def Event.removed : Event → Option (BitVec 32)
  | .inc => none
  | .reset old => some old

/-- What the resets took away. -/
def removed (es : List Event) : List (BitVec 32) := es.filterMap Event.removed

def total : List (BitVec 32) → Int
  | [] => 0
  | v :: vs => v.toInt + total vs

def INT_MAX : Int := 2147483647

/-- An increment does not wrap around. -/
def Sys.NoWrap (s : Sys) : Action → Prop
  | .thread t => s.threads[t]? = some .inc → s.sh.counter.toInt < INT_MAX
  | _ => True

instance (s : Sys) : DecidablePred s.NoWrap
  | .thread t => inferInstanceAs
      (Decidable (s.threads[t]? = some .inc → s.sh.counter.toInt < INT_MAX))
  | .stop => .isTrue trivial
  | .kthread_stop _ => .isTrue trivial

/-- All increments are in the counter or taken away. -/
def Conserved (counter : BitVec 32) (es : List Event) : Prop :=
  (increments es : Int) = counter.toInt + total (removed es)

/-- Those who will exchange have found a value above 50, and so had those who did. -/
structure Above (threads : List Thread) (es : List Event) : Prop where
  exchanges : ∀ val, .cmpxchg val ∈ threads → 50 < val.toInt
  removed : ∀ val ∈ removed es, 50 < val.toInt

section

variable {sh sh' : Shared} {stop : Bool} {th th' : Thread} {es : List Event}
  {s s' : Sys} {a : Action}

theorem increments_append (es es' : List Event) :
    increments (es ++ es') = increments es + increments es' :=
  List.count_append

theorem removed_append (es es' : List Event) : removed (es ++ es') = removed es ++ removed es' :=
  List.filterMap_append

theorem total_append (vs ws : List (BitVec 32)) : total (vs ++ ws) = total vs + total ws := by
  induction vs with
  | nil => exact (Int.zero_add _).symm
  | cons v vs ih => rw [List.cons_append, total, total, ih, Int.add_assoc]

theorem Sys.step_cases (h : s.step a = some s') :
    (s'.sh.counter = s.sh.counter ∧ s'.threads = s.threads ∧ s.events a = []) ∨
      ∃ t th th', a = .thread t ∧ s.threads[t]? = some th ∧
        th.step s.sh (s.asked.contains t) = some (s'.sh, th') ∧
        s'.threads = s.threads.set t th' ∧ s.events a = th.events s.sh := by
  cases a with
  | thread t =>
    obtain ⟨th, hth, h⟩ := Option.bind_eq_some_iff.1 h
    obtain ⟨⟨sh', th'⟩, hstep, rfl⟩ := Option.map_eq_some_iff.1 h
    refine .inr ⟨t, th, th', rfl, hth, hstep, rfl, ?_⟩
    rw [Sys.events, hth, Option.elim_some]
  | stop =>
    cases h
    exact .inl ⟨rfl, rfl, rfl⟩
  | kthread_stop t =>
    cases h
    exact .inl ⟨rfl, rfl, rfl⟩

/-- A checker is at its exchange only with a value above 50. -/
theorem Thread.above (h : th.step sh stop = some (sh', th')) {val : BitVec 32}
    (hval : th' = .cmpxchg val) :
    50 < val.toInt := by
  cases th with
  | increaser | checker =>
    cases h
    split at hval <;> cases hval
  | read =>
    cases h
    split at hval
    · next habove =>
      cases hval
      exact habove
    · cases hval
  | inc | print | cmpxchg =>
    cases h
    cases hval
  | returned => cases h

theorem Thread.events_cmpxchg (val : BitVec 32) :
    Thread.events sh (.cmpxchg val) = if sh.counter = val then [.reset sh.counter] else [] := rfl

/-- What a step takes away is what its checker has found. -/
theorem Thread.removed_events {val : BitVec 32} (h : val ∈ removed (th.events sh)) :
    th = .cmpxchg val := by
  cases th with
  | cmpxchg old =>
    rw [events_cmpxchg] at h
    by_cases heq : sh.counter = old
    · rw [if_pos heq] at h
      obtain rfl : val = sh.counter := List.mem_singleton.1 h
      rw [heq]
    · rw [if_neg heq] at h
      cases h
  | increaser | inc | print | checker | read | returned => cases h

theorem Above.step (hab : Above s.threads es) (h : s.step a = some s') :
    Above s'.threads (es ++ s.events a) := by
  rcases Sys.step_cases h with
      ⟨-, hthreads, hevents⟩ | ⟨t, th, th', rfl, hth, hstep, hthreads, hevents⟩
  · rw [hthreads, hevents, List.append_nil]
    exact hab
  · rw [hthreads, hevents]
    refine ⟨fun val hval => ?_, fun val hval => ?_⟩
    · rcases eq_or_mem_of_mem_set hval with heq | hmem
      · exact Thread.above hstep heq.symm
      · exact hab.exchanges val (List.mem_of_mem_eraseIdx hmem)
    · rw [removed_append] at hval
      rcases List.mem_append.1 hval with hold | hnew
      · exact hab.removed val hold
      · exact hab.exchanges val (Thread.removed_events hnew ▸ List.mem_of_getElem? hth)

theorem toInt_succ {v : BitVec 32} (h : v.toInt < INT_MAX) : (v + 1).toInt = v.toInt + 1 := by
  unfold INT_MAX at h
  rw [BitVec.toInt_eq_toNat_cond] at h ⊢
  rw [BitVec.toInt_eq_toNat_cond]
  bv_omega

theorem Conserved.append {v v' : BitVec 32} {es' : List Event} (hc : Conserved v es)
    (h : v.toInt + increments es' = v'.toInt + total (removed es')) : Conserved v' (es ++ es') := by
  unfold Conserved at *
  rw [increments_append, removed_append, total_append, Int.natCast_add]
  omega

theorem Thread.conserved (hc : Conserved sh.counter es)
    (hwrap : th = .inc → sh.counter.toInt < INT_MAX) (h : th.step sh stop = some (sh', th')) :
    Conserved sh'.counter (es ++ th.events sh) := by
  refine hc.append ?_
  cases th with
  | inc =>
    cases h
    show sh.counter.toInt + 1 = (sh.counter + 1).toInt + 0
    rw [toInt_succ (hwrap rfl), Int.add_zero]
  | cmpxchg val =>
    cases h
    rw [events_cmpxchg]
    -- a stale value makes the exchange fail, unless the same value is there again
    by_cases heq : sh.counter = val
    · have hcounter : (atomic_cmpxchg sh.counter val 0).2 = 0 := if_pos heq
      rw [if_pos heq, hcounter]
      show sh.counter.toInt + 0 = 0 + (sh.counter.toInt + 0)
      rw [Int.zero_add]
    · have hcounter : (atomic_cmpxchg sh.counter val 0).2 = sh.counter := if_neg heq
      rw [if_neg heq, hcounter]
      rfl
  | increaser | print | checker | read =>
    cases h
    rfl
  | returned => cases h

theorem Conserved.step (hc : Conserved s.sh.counter es) (hwrap : s.NoWrap a)
    (h : s.step a = some s') :
    Conserved s'.sh.counter (es ++ s.events a) := by
  rcases Sys.step_cases h with ⟨hcounter, -, hevents⟩ | ⟨t, th, th', rfl, hth, hstep, -, hevents⟩
  · rw [hcounter, hevents, List.append_nil]
    exact hc
  · rw [hevents]
    exact Thread.conserved hc (fun hinc => hwrap (hinc ▸ hth)) hstep

end

variable {increasers checkers : Nat} {as : List Action} {s : Sys}

theorem above_start : Above (Sys.start increasers checkers).threads [] := by
  refine ⟨fun val hval => ?_, fun val hval => ?_⟩
  · rcases List.mem_append.1 hval with hval | hval <;> cases (List.mem_replicate.1 hval).2
  · cases hval

theorem conserved_start : Conserved (Sys.start increasers checkers).sh.counter [] := rfl

/-- **Nothing is lost.** As long as the counter does not wrap around, the increments are what it
holds and what the resets have taken away; and every reset has taken away more than 50. -/
theorem increments_eq (h : run Sys.step (.start increasers checkers) as = some s) :
    (Along Sys.step Sys.NoWrap (.start increasers checkers) as →
        Conserved s.sh.counter (history increasers checkers as)) ∧
      ∀ val ∈ removed (history increasers checkers as), 50 < val.toInt := by
  have htrue : Along Sys.step (fun _ _ => True) (.start increasers checkers) as :=
    Along.of_forall (fun _ _ => trivial) as _
  have habove := record_of_run (I := fun s es => Above s.threads es)
    (fun hab _ hstep => hab.step hstep) above_start htrue h
  refine ⟨fun hwrap => ?_, habove.removed⟩
  exact record_of_run (I := fun s es => Conserved s.sh.counter es)
    (fun hc hwrap hstep => hc.step hwrap hstep)
    conserved_start hwrap h

/-- The turns of one increaser until the counter is at 51, and those of two checkers that both read
it then. -/
def twoExchanges : List Action :=
  (List.replicate 51 [.thread 0, .thread 0, .thread 0]).flatten ++
    [.thread 1, .thread 1, .thread 2, .thread 2, .thread 1, .thread 0, .thread 0, .thread 2]

set_option maxRecDepth 4000 in
theorem twoExchanges_eq :
    ∃ s, run Sys.step (.start 1 2) twoExchanges = some s ∧
      Conserved s.sh.counter (history 1 2 twoExchanges) ∧
      s.sh.counter = 1 ∧ removed (history 1 2 twoExchanges) = [51] := by
  have hrun : ∃ s, run Sys.step (.start 1 2) twoExchanges = some s ∧ s.sh.counter = 1 :=
    ⟨_, rfl, rfl⟩
  obtain ⟨s, hrun, hcounter⟩ := hrun
  exact ⟨s, hrun, (increments_eq hrun).1 (by decide), hcounter, by decide⟩

end LinuxKernelProg.Sync.KthreadAt
