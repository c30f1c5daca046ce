import LinuxKernelProg.Lib.Locks

/-!
# Two locks in two orders

`deadlock.c`: a write of `trigger` starts two threads that take `lock_a` and `lock_b` in opposite
orders, a write of `self` takes `lock_a` twice. Any number of writes, and any order of the threads'
steps: `finish_iff_no_inversion` says from which states all threads can still finish, and that
nothing moves any more once both threads have their first locks.
-/

namespace LinuxKernelProg.BuggyModules.Deadlock

open Lib

inductive Mutex where
  | lock_a
  | lock_b
  deriving DecidableEq

def EFAULT : Int := 14
def EINVAL : Int := 22

def thread1_fn : List (LockOp Mutex) :=
  [.lock .lock_a, .lock .lock_b, .unlock .lock_b, .unlock .lock_a]

def thread2_fn : List (LockOp Mutex) :=
  [.lock .lock_b, .lock .lock_a, .unlock .lock_a, .unlock .lock_b]

/-- What `trigger_write` itself does on `self`. -/
def self_write : List (LockOp Mutex) :=
  [.lock .lock_a, .lock .lock_a, .unlock .lock_a, .unlock .lock_a]

/-- What one write meets: whether `copy_from_user` fails, the errors of the two `kthread_run`, and
whether the first thread has begun when `kthread_stop` reaches it. -/
structure Calls where
  uncopied : Bool
  thread1 : Option Nat
  thread2 : Option Nat
  begun : Bool

/-- What the write returns, when it does, and what begins to run. -/
def trigger_write (cmd : List Char) (calls : Calls) : Int × List (List (LockOp Mutex)) :=
  if 16 ≤ cmd.length then (-EINVAL, [])
  else if calls.uncopied then (-EFAULT, [])
  else if cmd.take 7 = "trigger".toList then
    match calls.thread1, calls.thread2 with
    | some e, _ => (-(e : Int), [])
    -- `kthread_stop` waits for a thread that has begun, and keeps the other from its function
    | none, some e => (-(e : Int), if calls.begun then [thread1_fn] else [])
    | none, none => (cmd.length, [thread1_fn, thread2_fn])
  else if cmd.take 4 = "self".toList then (cmd.length, [self_write])
  else (cmd.length, [])

inductive Act where
  | write (cmd : List Char) (calls : Calls)
  /-- The thread goes on with its next operation. -/
  | sched (i : Nat)

def step (s : List (Locker Mutex)) : Act → Option (List (Locker Mutex))
  | .write cmd calls => some (s ++ (trigger_write cmd calls).2.map .start)
  | .sched i => lockStep s i

/-- A thread of `thread1_fn` that has `lock_a` and wants `lock_b`. -/
def has_a : Locker Mutex := ⟨[.lock_a], thread1_fn.tail⟩

/-- A thread of `thread2_fn` that has `lock_b` and wants `lock_a`. -/
def has_b : Locker Mutex := ⟨[.lock_b], thread2_fn.tail⟩

/-- A writer of `self`, before its first lock and before its second. -/
def selfers : List (Locker Mutex) := [.start self_write, ⟨[.lock_a], self_write.tail⟩]

/-- What is true of every thread: it is somewhere in its function, and a writer of `self` never gets
beyond its second lock. -/
def Staged (t : Locker Mutex) : Prop :=
  t ∈ stages [] thread1_fn ∨ t ∈ stages [] thread2_fn ∨ t ∈ selfers

structure Inv (s : List (Locker Mutex)) : Prop where
  staged : ∀ t ∈ s, Staged t
  exclusive : Exclusive s

variable {s s' : List (Locker Mutex)} {t : Locker Mutex}

/-- What holds at every point of the three functions. -/
theorem Staged.of_stages {P : Locker Mutex → Prop}
    (hP : ∀ u ∈ stages [] thread1_fn ++ stages [] thread2_fn ++ selfers, P u) (h : Staged t) :
    P t := by
  refine hP t ?_
  rcases h with h | h | h
  · exact List.mem_append_left _ (List.mem_append_left _ h)
  · exact List.mem_append_left _ (List.mem_append_right _ h)
  · exact List.mem_append_right _ h

theorem starts_staged {cmd : List Char} {calls : Calls} {p : List (LockOp Mutex)}
    (hp : p ∈ (trigger_write cmd calls).2) : Staged (.start p) := by
  have hthread1 : Staged (.start thread1_fn) := .inl (Locker.mem_stages_self _ _)
  have hthread2 : Staged (.start thread2_fn) := .inr (.inl (Locker.mem_stages_self _ _))
  unfold trigger_write at hp
  split at hp
  · nomatch hp
  split at hp
  · nomatch hp
  split at hp
  · split at hp
    · nomatch hp
    · split at hp
      · obtain rfl := List.mem_singleton.1 hp
        exact hthread1
      · nomatch hp
    · rcases List.mem_cons.1 hp with rfl | hp
      · exact hthread1
      · obtain rfl := List.mem_singleton.1 hp
        exact hthread2
  · split at hp
    · obtain rfl := List.mem_singleton.1 hp
      exact .inr (.inr List.mem_cons_self)
    · nomatch hp

/-- A writer of `self` that makes a step has made its first. -/
theorem selfers_step {ts : List (Locker Mutex)} {t t' : Locker Mutex} (hmem : t ∈ ts)
    (hfree : ∀ l ∈ t.wants, Free ts l) (hnext : t.next = some t') (ht : t ∈ selfers) :
    t' ∈ selfers := by
  rcases List.mem_cons.1 ht with rfl | ht
  · obtain rfl := Option.some.inj hnext
    exact List.mem_cons_of_mem _ List.mem_cons_self
  · obtain rfl := List.mem_singleton.1 ht
    exact absurd List.mem_cons_self (hfree .lock_a rfl _ hmem)

namespace Inv

theorem init : Inv [] := ⟨nofun, List.nodup_nil⟩

theorem step {a : Act} (hs : Inv s) (h : step s a = some s') : Inv s' := by
  cases a with
  | write cmd calls =>
    obtain rfl := Option.some.inj h
    refine ⟨fun t ht => ?_, ?_⟩
    · rcases List.mem_append.1 ht with ht | ht
      · exact hs.staged t ht
      · obtain ⟨p, hp, rfl⟩ := List.mem_map.1 ht
        exact starts_staged hp
    · have hnone : ((trigger_write cmd calls).2.map Locker.start).flatMap Locker.held = [] := by
        rw [List.flatMap_eq_nil_iff]
        rintro t ht
        obtain ⟨p, -, rfl⟩ := List.mem_map.1 ht
        rfl
      rw [Exclusive, List.flatMap_append, hnone, List.append_nil]
      exact hs.exclusive
  | sched i =>
    refine ⟨?_, hs.exclusive.step h⟩
    obtain ⟨t, t', ht, hfree, hnext, rfl⟩ := lockStep_some.1 h
    intro u hu
    rcases List.mem_or_eq_of_mem_set hu with hu | rfl
    · exact hs.staged u hu
    · have hmem := List.mem_of_getElem? ht
      rcases hs.staged t hmem with hstage | hstage | hstage
      · exact .inl (Locker.stages_next hnext hstage)
      · exact .inr (.inl (Locker.stages_next hnext hstage))
      · exact .inr (.inr (selfers_step hmem hfree hnext hstage))

theorem run {as : List Act} (hs : Inv s) (h : run Deadlock.step s as = some s') : Inv s' :=
  run_inv_of_step (fun hs h => hs.step h) hs h

/-- A writer of `self` stays one. -/
theorem selfer_run {as : List Act} {i : Nat} (hs : Inv s) (hi : s[i]? = some t) (ht : t ∈ selfers)
    (h : Lib.run Deadlock.step s as = some s') : ∃ u ∈ selfers, s'[i]? = some u := by
  refine (run_inv_of_step (I := fun s => Inv s ∧ ∃ u ∈ selfers, s[i]? = some u) ?_
    ⟨hs, t, ht, hi⟩ h).2
  rintro s₁ a s₂ ⟨hs₁, u, hu, hget⟩ hstep
  refine ⟨hs₁.step hstep, ?_⟩
  cases a with
  | write cmd calls =>
    obtain rfl := Option.some.inj hstep
    exact ⟨u, hu, (List.getElem?_append_left (List.getElem?_eq_some_iff.1 hget).1).trans hget⟩
  | sched k =>
    rcases eq_or_ne i k with rfl | hik
    · obtain ⟨u₁, u', hget₁, hfree, hnext, rfl⟩ := lockStep_some.1 hstep
      obtain rfl := Option.some.inj (hget.symm.trans hget₁)
      exact ⟨u', selfers_step (List.mem_of_getElem? hget) hfree hnext hu,
        List.getElem?_set_self (List.getElem?_eq_some_iff.1 hget).1⟩
    · exact ⟨u, hu, (lockStep_getElem?_ne hstep hik).trans hget⟩

end Inv

/-! ## Both threads have their first locks -/

/-- Two threads of a state, one of each function, that have their first locks. -/
def Both (s : List (Locker Mutex)) (i j : Nat) : Prop := s[i]? = some has_a ∧ s[j]? = some has_b

theorem Both.stuck {i j : Nat} (h : Both s i j) : Stuck s fun k => k = i ∨ k = j := by
  rintro k (rfl | rfl)
  · exact ⟨has_a, h.1, .lock_b, rfl, j, .inr rfl, has_b, h.2, List.mem_cons_self⟩
  · exact ⟨has_b, h.2, .lock_a, rfl, i, .inl rfl, has_a, h.1, List.mem_cons_self⟩

theorem Both.run {as : List Act} {i j : Nat} (hb : Both s i j) (h : run step s as = some s') :
    Both s' i j := by
  refine run_inv_of_step (I := fun s => Both s i j) ?_ hb h
  intro s₁ a s₂ hb₁ hstep
  cases a with
  | write cmd calls =>
    obtain rfl := Option.some.inj hstep
    exact ⟨(hb₁.stuck.append_same _ (.inl rfl)).trans hb₁.1,
      (hb₁.stuck.append_same _ (.inr rfl)).trans hb₁.2⟩
  | sched k =>
    exact ⟨(hb₁.stuck.same hstep (.inl rfl)).trans hb₁.1,
      (hb₁.stuck.same hstep (.inr rfl)).trans hb₁.2⟩

/-- Neither lock is free, so no thread goes on. -/
theorem Both.standstill {i j : Nat} (hb : Both s i j) (hs : Inv s) (k : Nat) :
    step s (.sched k) = none := by
  cases hstep : step s (.sched k) with
  | none => rfl
  | some s' =>
    obtain ⟨t, t', ht, hfree, hnext, -⟩ := lockStep_some.1 hstep
    have ha : ¬Free s .lock_a :=
      fun h => h has_a (List.mem_of_getElem? hb.1) List.mem_cons_self
    have hb' : ¬Free s .lock_b :=
      fun h => h has_b (List.mem_of_getElem? hb.2) List.mem_cons_self
    -- a thread that holds one of the locks is one of the two
    have hwaits : t.wants ≠ none ∨ t.held ≠ [] ∨ t.next = none :=
      (hs.staged t (List.mem_of_getElem? ht)).of_stages
        (P := fun t => t.wants ≠ none ∨ t.held ≠ [] ∨ t.next = none) (by decide)
    have hnot := hb.stuck.not_mem hstep
    rcases hwaits with hw | hheld | hnone
    · obtain ⟨l, hl⟩ := Option.ne_none_iff_exists'.1 hw
      cases l with
      | lock_a => exact absurd (hfree _ hl) ha
      | lock_b => exact absurd (hfree _ hl) hb'
    · obtain ⟨l, hl⟩ := List.exists_mem_of_ne_nil _ hheld
      cases l with
      | lock_a =>
        exact absurd (.inl (hs.exclusive.eq_of_held ht hb.1 hl List.mem_cons_self)) hnot
      | lock_b =>
        exact absurd (.inr (hs.exclusive.eq_of_held ht hb.2 hl List.mem_cons_self)) hnot
    · nomatch hnone.symm.trans hnext

/-! ## All threads can finish -/

/-- The order in which the holders take their locks while no thread is at one of the two places. -/
theorem exists_order (hs : Inv s) (hself : ∀ t ∈ s, t ∉ selfers)
    (hboth : ¬(has_a ∈ s ∧ has_b ∈ s)) :
    ∃ r : Mutex → Nat, ∀ t ∈ s, t.held ≠ [] → climbs r t.held t.todo = true := by
  by_cases ha : has_a ∈ s
  · refine ⟨fun | .lock_a => 0 | .lock_b => 1, fun t ht hheld => ?_⟩
    have hall := (hs.staged t ht).of_stages (P := fun t => t.held ≠ [] → t ∉ selfers → t ≠ has_b →
      climbs (fun | .lock_a => 0 | .lock_b => 1) t.held t.todo = true) (by decide)
    refine hall hheld (hself t ht) ?_
    rintro rfl
    exact hboth ⟨ha, ht⟩
  · refine ⟨fun | .lock_a => 1 | .lock_b => 0, fun t ht hheld => ?_⟩
    have hall := (hs.staged t ht).of_stages (P := fun t => t.held ≠ [] → t ∉ selfers → t ≠ has_a →
      climbs (fun | .lock_a => 1 | .lock_b => 0) t.held t.todo = true) (by decide)
    refine hall hheld (hself t ht) ?_
    rintro rfl
    exact ha ht

theorem run_sched {is : List Nat} (h : run lockStep s is = some s') :
    run step s (is.map .sched) = some s' := by
  induction is generalizing s with
  | nil => exact h
  | cons i is ih =>
    obtain ⟨s₁, hstep, hrest⟩ := run_cons.1 h
    exact run_cons.2 ⟨s₁, hstep, ih hrest⟩

theorem can_finish (hs : Inv s) (hself : ∀ t ∈ s, t ∉ selfers) (hboth : ¬(has_a ∈ s ∧ has_b ∈ s)) :
    ∃ bs s', run step s bs = some s' ∧ ∀ i < s.length, ∃ u, s'[i]? = some u ∧ u.todo = [] := by
  obtain ⟨r, hr⟩ := exists_order hs hself hboth
  have hc : ∀ t ∈ s, closes t.held t.todo = true :=
    fun t ht => (hs.staged t ht).of_stages (P := fun t => closes t.held t.todo = true) (by decide)
  have hn : ∀ t ∈ s, relocks t.held t.todo = false := by
    intro t ht
    exact (hs.staged t ht).of_stages (P := fun t => t ∉ selfers → relocks t.held t.todo = false)
      (by decide) (hself t ht)
  obtain ⟨is, s', hrun, hlen, hdone⟩ := completes_of_climbs hc hn hr
  refine ⟨is.map .sched, s', run_sched hrun, fun i hi => ?_⟩
  rw [← hlen] at hi
  exact ⟨s'[i], List.getElem?_eq_getElem hi, hdone _ (List.getElem_mem hi)⟩

/-- After any writes and any scheduling: all threads can still finish, whatever is written further,
if and only if nobody has written `self` and no two threads have one lock each and want the other.
Once two threads are at that point, no thread ever makes a step again. -/
theorem finish_iff_no_inversion {as : List Act} (h : run step [] as = some s) :
    ((∃ bs s', run step s bs = some s' ∧ ∀ i < s.length, ∃ u, s'[i]? = some u ∧ u.todo = []) ↔
      (∀ t ∈ s, t ∉ selfers) ∧ ¬(has_a ∈ s ∧ has_b ∈ s)) ∧
    (has_a ∈ s → has_b ∈ s → ∀ bs s' i, run step s bs = some s' → step s' (.sched i) = none) := by
  have hs : Inv s := Inv.init.run h
  refine ⟨⟨?_, fun hno => can_finish hs hno.1 hno.2⟩, fun ha hb bs s' k hrun => ?_⟩
  · rintro ⟨bs, s', hrun, hdone⟩
    have hend : ∀ {i : Nat} {t u : Locker Mutex}, s[i]? = some t →
        s'[i]? = some u → u.todo = [] := by
      intro i t u ht hu
      obtain ⟨v, hv, hv'⟩ := hdone i (List.getElem?_eq_some_iff.1 ht).1
      obtain rfl := Option.some.inj (hu.symm.trans hv)
      exact hv'
    refine ⟨fun t ht hself => ?_, ?_⟩
    · obtain ⟨i, hi⟩ := List.mem_iff_getElem?.1 ht
      obtain ⟨u, hu, hget⟩ := hs.selfer_run hi hself hrun
      have hne : ∀ u ∈ selfers, u.todo ≠ [] := by decide
      exact hne u hu (hend hi hget)
    · rintro ⟨ha, hb⟩
      obtain ⟨i, hi⟩ := List.mem_iff_getElem?.1 ha
      obtain ⟨j, hj⟩ := List.mem_iff_getElem?.1 hb
      have hboth : Both s i j := ⟨hi, hj⟩
      nomatch hend hi (hboth.run hrun).1
  · obtain ⟨i, hi⟩ := List.mem_iff_getElem?.1 ha
    obtain ⟨j, hj⟩ := List.mem_iff_getElem?.1 hb
    have hboth : Both s i j := ⟨hi, hj⟩
    exact (hboth.run hrun).standstill (hs.run hrun) k

theorem finish_iff_no_inversion_trigger : ¬∃ bs s', run step [has_a, has_b] bs = some s' ∧
    ∀ i < [has_a, has_b].length, ∃ u, s'[i]? = some u ∧ u.todo = [] := by
  have h : run step [] [.write "trigger".toList ⟨false, none, none, false⟩, .sched 0, .sched 1] =
      some [has_a, has_b] := by decide
  intro hfinish
  exact ((finish_iff_no_inversion h).1.1 hfinish).2 ⟨by decide, by decide⟩

end LinuxKernelProg.BuggyModules.Deadlock
