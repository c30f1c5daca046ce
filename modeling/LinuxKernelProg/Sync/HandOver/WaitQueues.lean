import LinuxKernelProg.Sync.HandOver.Semaphores

/-!
# Handing over with wait queues

`kthread_sync_waitq.c`: each of the two waits for a condition of its own, clears it, sets the
condition of the other one and wakes it. The turns are the same as with semaphores (`takes_turns`).
But the consumer waits with `wait_event` and is woken with `wake_up_interruptible`, which does not
wake it: no wake-up is lost exactly as long as the consumer is awake when its condition is set
(`wake_ups_iff`).
-/

namespace LinuxKernelProg.Sync.HandOver.WaitQueues

open LinuxKernelProg.Lib

/-! ## The program -/

/-- How a task sleeps. -/
inductive TaskState where
  | INTERRUPTIBLE
  | UNINTERRUPTIBLE
  deriving DecidableEq

/-- Where `prod_fct` or `cons_fct` is, by the statement that comes next. -/
inductive Pc where
  /-- The thread exists, its function has not been called. -/
  | created
  /-- The wait call looks at the condition. -/
  | wait
  | asleep
  /-- `pdata->cond = 0`. -/
  | clear
  /-- Data is generated, or consumed. -/
  | work
  /-- `pdata->other->cond = 1`. -/
  | set
  /-- `wake_up_interruptible(&pdata->other->wqh)`. -/
  | wake
  /-- `kthread_should_stop()`. -/
  | test
  | returned
  deriving DecidableEq

/-- Between the two conditions. -/
def Pc.inside : Pc → Bool
  | .work | .set => true
  | _ => false

/-- A thread that is woken looks at the condition again. -/
def Pc.woken : Pc → Pc
  | .asleep => .wait
  | pc => pc

/-- The wait call: `wait_event_interruptible` in the producer, `wait_event` in the consumer. No
signal is delivered to a kernel thread. -/
def sleeps : Role → TaskState
  | .prod => .INTERRUPTIBLE
  | .cons => .UNINTERRUPTIBLE

structure Sys where
  threads : Pair (Thread Pc)
  cond : Pair Bool
  exit : Exit
  /-- Who has passed its wait call, the latest one first. -/
  log : List Role

inductive Action where
  | thread (r : Role)
  /-- A sleeping thread is woken without a reason. -/
  | spurious (r : Role)
  | exit
  deriving DecidableEq

def Sys.at (s : Sys) (r : Role) (pc : Pc) : Sys :=
  { s with threads := s.threads.set { s.threads.get r with pc := pc } r }

def Sys.wake_up_interruptible (s : Sys) (r : Role) : Sys :=
  if sleeps r = .INTERRUPTIBLE then s.at r (s.threads.get r).pc.woken else s

/-- `prod_fct` and `cons_fct`. -/
def Sys.thread (s : Sys) (r : Role) : Option Sys :=
  match (s.threads.get r).pc with
  | .created => some (s.at r (if (s.threads.get r).stop then .returned else .wait))
  | .wait => some (s.at r (if s.cond.get r then .clear else .asleep))
  | .asleep => none
  | .clear => some { s.at r .work with cond := s.cond.set false r, log := r :: s.log }
  | .work => some (s.at r .set)
  | .set => some { s.at r .wake with cond := s.cond.set true r.other }
  | .wake => some ((s.wake_up_interruptible r.other).at r .test)
  | .test => some (s.at r (if (s.threads.get r).stop then .returned else .wait))
  | .returned => none

/-- `kthread_stop` wakes a thread that sleeps in either state. -/
def Sys.kthr_exit (s : Sys) : Option Sys :=
  (s.exit.step (· = .returned) Pc.woken s.threads).map fun p =>
    { s with exit := p.1, threads := p.2 }

def Sys.step (s : Sys) : Action → Option Sys
  | .thread r => s.thread r
  | .spurious r => if (s.threads.get r).pc = .asleep then some (s.at r .wait) else none
  | .exit => s.kthr_exit

/-- `kthr_init` has returned. -/
def Sys.init : Sys := ⟨⟨⟨.created, false⟩, ⟨.created, false⟩⟩, ⟨true, false⟩, .stop .prod, []⟩

variable {s t : Sys} {a : Action} {as : List Action} {u : Turns Role} {r : Role}

@[simp] theorem at_threads (s : Sys) (r : Role) (pc : Pc) (q : Role) :
    ((s.at r pc).threads.get q) = if q = r then ⟨pc, (s.threads.get r).stop⟩
      else s.threads.get q := by
  simp [Sys.at]

theorem wake_up_threads (s : Sys) (r q : Role) :
    ((s.wake_up_interruptible r).threads.get q).pc =
      if q = r ∧ sleeps r = .INTERRUPTIBLE then (s.threads.get q).pc.woken
      else (s.threads.get q).pc := by
  unfold Sys.wake_up_interruptible
  by_cases hsleeps : sleeps r = .INTERRUPTIBLE
  · rw [if_pos hsleeps, at_threads]
    by_cases hq : q = r
    · rw [if_pos hq, if_pos ⟨hq, hsleeps⟩, hq]
    · rw [if_neg hq, if_neg fun h => hq h.1]
  · rw [if_neg hsleeps, if_neg fun h => hsleeps h.2]

/-- What a step of a thread does. -/
theorem thread_cases (h : s.thread r = some t) :
    (((s.threads.get r).pc = .created ∨ (s.threads.get r).pc = .test) ∧
      t = s.at r (if (s.threads.get r).stop then .returned else .wait)) ∨
    ((s.threads.get r).pc = .wait ∧ t = s.at r (if s.cond.get r then .clear else .asleep)) ∨
    ((s.threads.get r).pc = .clear ∧
      t = { s.at r .work with cond := s.cond.set false r, log := r :: s.log }) ∨
    ((s.threads.get r).pc = .work ∧ t = s.at r .set) ∨
    ((s.threads.get r).pc = .set ∧ t = { s.at r .wake with cond := s.cond.set true r.other }) ∨
    (s.threads.get r).pc = .wake ∧ t = (s.wake_up_interruptible r.other).at r .test := by
  unfold Sys.thread at h
  split at h <;> rename_i hpc
  · exact .inl ⟨.inl hpc, (Option.some.inj h).symm⟩
  · exact .inr (.inl ⟨hpc, (Option.some.inj h).symm⟩)
  · nomatch h
  · exact .inr (.inr (.inl ⟨hpc, (Option.some.inj h).symm⟩))
  · exact .inr (.inr (.inr (.inl ⟨hpc, (Option.some.inj h).symm⟩)))
  · exact .inr (.inr (.inr (.inr (.inl ⟨hpc, (Option.some.inj h).symm⟩))))
  · exact .inr (.inr (.inr (.inr (.inr ⟨hpc, (Option.some.inj h).symm⟩))))
  · exact .inl ⟨.inr hpc, (Option.some.inj h).symm⟩
  · nomatch h

theorem spurious_some (h : s.step (.spurious r) = some t) :
    (s.threads.get r).pc = .asleep ∧ t = s.at r .wait := by
  simp only [Sys.step] at h
  split at h
  · next hpc => exact ⟨hpc, (Option.some.inj h).symm⟩
  · nomatch h

theorem kthr_exit_some (h : s.kthr_exit = some t) :
    ∃ e ts, s.exit.step (· = .returned) Pc.woken s.threads = some (e, ts) ∧
      t = { s with exit := e, threads := ts } := by
  obtain ⟨⟨e, ts⟩, hstep, rfl⟩ := Option.map_eq_some_iff.1 h
  exact ⟨e, ts, hstep, rfl⟩

/-! ## Turns -/

def Sys.tokens (s : Sys) : Pair Nat := ⟨s.cond.prod.toNat, s.cond.cons.toNat⟩

def Sys.inside (s : Sys) : Pair Bool := ⟨s.threads.prod.pc.inside, s.threads.cons.pc.inside⟩

theorem tokens_get (s : Sys) (r : Role) : s.tokens.get r = (s.cond.get r).toNat := by
  cases r <;> rfl

theorem inside_get (s : Sys) (r : Role) : s.inside.get r = (s.threads.get r).pc.inside := by
  cases r <;> rfl

theorem inside_woken (pc : Pc) : pc.woken.inside = pc.inside := by
  cases pc <;> rfl

/-- The conditions and the sections stand for a turn, and nobody else clears a condition. -/
structure Refines (s : Sys) (u : Turns Role) : Prop where
  shows : Shows s.tokens.get s.inside.get s.log u
  clears : ∀ q, (s.threads.get q).pc = .clear → s.cond.get q = true

theorem refines_init : Refines .init (Turns.init .prod) := by
  refine ⟨⟨fun r => ?_, fun r => ?_, rfl⟩, fun r => ?_⟩
  · cases r <;> rfl
  · cases r <;> rfl
  · cases r <;> nofun

theorem clear_woken {pc : Pc} : pc.woken = .clear ↔ pc = .clear := by
  cases pc <;> decide

/-- Nothing but the place of threads outside of their sections has changed. -/
theorem Refines.stay (h : Refines s u) (hcond : t.cond = s.cond) (hlog : t.log = s.log)
    (hinside : ∀ q, (t.threads.get q).pc.inside = (s.threads.get q).pc.inside)
    (hclear : ∀ q, (t.threads.get q).pc = .clear → (s.threads.get q).pc = .clear ∨
      s.cond.get q = true) :
    Refines t u := by
  constructor
  · rw [hlog]
    refine h.shows.stay (fun q => ?_) fun q => ?_
    · rw [tokens_get, tokens_get, hcond]
    · rw [inside_get, inside_get, hinside]
  · intro q hq
    rw [hcond]
    exact (hclear q hq).elim (h.clears q) id

/-- A statement that neither takes nor gives a turn. -/
theorem refines_at (h : Refines s u) {pc : Pc} (hpc : pc.inside = (s.threads.get r).pc.inside)
    (hclear : pc = .clear → s.cond.get r = true) : Refines (s.at r pc) u := by
  refine h.stay rfl rfl (fun q => ?_) fun q => ?_
  · rw [at_threads]
    split
    · next hq => rw [hpc, hq]
    · rfl
  · rw [at_threads]
    split
    · next hq =>
      rw [hq]
      exact fun hc => .inr (hclear hc)
    · exact .inl

theorem wake_up_refines (h : Refines s u) : Refines (s.wake_up_interruptible r) u := by
  have hcond : (s.wake_up_interruptible r).cond = s.cond := by
    unfold Sys.wake_up_interruptible
    split <;> rfl
  have hlog : (s.wake_up_interruptible r).log = s.log := by
    unfold Sys.wake_up_interruptible
    split <;> rfl
  refine h.stay hcond hlog (fun q => ?_) fun q => ?_
  · rw [wake_up_threads]
    split
    · exact inside_woken _
    · rfl
  · rw [wake_up_threads]
    split
    · exact fun hc => .inl (clear_woken.1 hc)
    · exact .inl

/-- A thread clears its condition and enters its section. -/
theorem refines_clear (h : Refines s u) (hpc : (s.threads.get r).pc = .clear) :
    ∃ m u', Turns.step Role.other u m = some u' ∧
      Refines { s.at r .work with cond := s.cond.set false r, log := r :: s.log } u' := by
  have htoken : s.tokens.get r ≠ 0 := by
    rw [tokens_get, h.clears r hpc]
    exact Nat.one_ne_zero
  have henter : ∃ m u', Turns.step Role.other u m = some u' ∧
      Shows (fun q => if q = r then 0 else s.tokens.get q)
        (fun q => if q = r then true else s.inside.get q) (r :: s.log) u' :=
    h.shows.enter htoken (fun _ => rfl) fun _ => rfl
  obtain ⟨m, u', hu', hshows⟩ := henter
  refine ⟨m, u', hu', hshows.stay (fun q => ?_) fun q => ?_, fun q => ?_⟩
  · rw [tokens_get, tokens_get, Pair.get_set]
    split <;> rfl
  · rw [inside_get, inside_get]
    simp only [at_threads]
    split <;> rfl
  · simp only [at_threads, Pair.get_set]
    split
    · nofun
    · exact h.clears q

/-- A thread leaves its section and sets the condition of the other one. -/
theorem refines_set (h : Refines s u) (hpc : (s.threads.get r).pc = .set) :
    ∃ m u', Turns.step Role.other u m = some u' ∧
      Refines { s.at r .wake with cond := s.cond.set true r.other } u' := by
  have hinside : s.inside.get r = true := by
    rw [inside_get, hpc]
    rfl
  have hleave : ∃ m u', Turns.step Role.other u m = some u' ∧
      Shows (fun q => if q = r.other then 1 else s.tokens.get q)
        (fun q => if q = r then false else s.inside.get q) s.log u' :=
    h.shows.leave hinside (fun _ => rfl) fun _ => rfl
  obtain ⟨m, u', hu', hshows⟩ := hleave
  refine ⟨m, u', hu', hshows.stay (fun q => ?_) fun q => ?_, fun q => ?_⟩
  · rw [tokens_get, tokens_get, Pair.get_set]
    split <;> rfl
  · rw [inside_get, inside_get]
    simp only [at_threads]
    split <;> rfl
  · simp only [at_threads, Pair.get_set]
    split
    · nofun
    · intro hq
      split
      · rfl
      · exact h.clears q hq

theorem step_sim (h : Refines s u) (hstep : s.step a = some t) :
    Refines t u ∨ ∃ m u', Turns.step Role.other u m = some u' ∧ Refines t u' := by
  cases a with
  | exit =>
    obtain ⟨e, ts, hexit, rfl⟩ := kthr_exit_some hstep
    have hinside := Exit.step_pc Pc.inside inside_woken hexit
    have hclear := Exit.step_pc (fun pc => decide (pc = .clear))
      (fun _ => decide_eq_decide.2 clear_woken) hexit
    exact .inl (h.stay rfl rfl hinside fun q hq => .inl ((decide_eq_decide.1 (hclear q)).1 hq))
  | spurious r =>
    obtain ⟨hpc, rfl⟩ := spurious_some hstep
    exact .inl (refines_at h (by rw [hpc]; rfl) nofun)
  | thread r =>
    rcases thread_cases hstep with
        ⟨hpc, rfl⟩ | ⟨hpc, rfl⟩ | ⟨hpc, rfl⟩ | ⟨hpc, rfl⟩ | ⟨hpc, rfl⟩ | ⟨hpc, rfl⟩
    · refine .inl (refines_at h ?_ ?_)
      · rcases hpc with hpc | hpc <;> rw [hpc] <;> split <;> rfl
      · split <;> nofun
    · refine .inl (refines_at h ?_ ?_)
      · rw [hpc]
        split <;> rfl
      · split
        · next hcond => exact fun _ => hcond
        · nofun
    · exact .inr (refines_clear h hpc)
    · exact .inl (refines_at h (by rw [hpc]; rfl) nofun)
    · exact .inr (refines_set h hpc)
    · have hwake := wake_up_refines (r := r.other) h
      refine .inl (refines_at hwake ?_ nofun)
      rw [wake_up_threads, hpc]
      split <;> rfl

theorem takesTurns_of_run (h : run Sys.step .init as = some s) :
    TakesTurns s.tokens s.inside s.log := by
  obtain ⟨ms, u, hu, hs⟩ := run_sim step_sim refines_init h
  exact takesTurns_of_shows hs.shows (Turns.ordered_of_run hu)

/-- **Both modules take turns**, whatever is woken and stopped in between. -/
theorem takes_turns :
    (∀ as s, run Semaphores.Sys.step .init as = some s → TakesTurns s.sem1 s.inside s.log) ∧
      ∀ as s, run Sys.step .init as = some s → TakesTurns s.tokens s.inside s.log :=
  ⟨fun _ _ => Semaphores.takesTurns_of_run, fun _ _ => takesTurns_of_run⟩

theorem takes_turns_twice :
    TakesTurns ⟨0, 0⟩ ⟨true, false⟩ [.prod, .cons, .prod] ∧
      TakesTurns ⟨0, 0⟩ ⟨false, true⟩ [.cons, .prod] := by
  let prod : Action := .thread .prod
  let cons : Action := .thread .cons
  let prod' : Semaphores.Action := .thread .prod
  let cons' : Semaphores.Action := .thread .cons
  have h := takes_turns.1 [prod', prod', prod', prod', cons', cons', cons',
    cons', prod', prod'] _ rfl
  have h' := takes_turns.2 [prod, prod, prod, prod, prod, cons, cons, cons] _ rfl
  exact ⟨h, h'⟩

/-! ## Wake-ups -/

/-- A thread that sleeps waits for its condition, or the other one is about to wake it. -/
def NoneLost (s : Sys) : Prop :=
  ∀ r, (s.threads.get r).pc = .asleep →
    s.cond.get r = false ∨ (s.threads.get r.other).pc = .wake ∧ sleeps r = .INTERRUPTIBLE

/-- The producer sets the condition of the consumer, which sleeps. -/
def Unheard (s : Sys) (a : Action) : Prop :=
  a = .thread .prod ∧ s.threads.prod.pc = .set ∧ s.threads.cons.pc = .asleep

/-- Nobody falls asleep, and a wake-up that is still to come is not taken back. -/
theorem NoneLost.mono (hs : NoneLost s)
    (h : ∀ q, (t.threads.get q).pc = .asleep → (s.threads.get q).pc = .asleep ∧
      t.cond.get q = s.cond.get q ∧
      ((s.threads.get q.other).pc = .wake → (t.threads.get q.other).pc = .wake)) : NoneLost t := by
  intro q hq
  obtain ⟨hasleep, hcond, hwake⟩ := h q hq
  rw [hcond]
  exact (hs q hasleep).imp_right fun hw => ⟨hwake hw.1, hw.2⟩

/-- A thread moves that is neither about to wake the other one nor goes to sleep. -/
theorem noneLost_at (hs : NoneLost s) {pc : Pc} (hpc : pc ≠ .asleep)
    (hwake : (s.threads.get r).pc ≠ .wake) : NoneLost (s.at r pc) := by
  apply hs.mono
  intro q hq
  rw [at_threads] at hq
  split at hq
  · exact absurd hq hpc
  · next hne =>
    refine ⟨hq, rfl, fun hother => ?_⟩
    rw [Role.eq_other_of_ne hne, Role.other_other] at hother
    exact absurd hother hwake

theorem noneLost_exit (hs : NoneLost s) (h : s.kthr_exit = some t) : NoneLost t := by
  obtain ⟨e, ts, hexit, rfl⟩ := kthr_exit_some h
  apply hs.mono
  intro q hq
  have hasleep : (s.threads.get q).pc = .asleep := by
    rcases Exit.step_pc_or hexit q with hpc | hpc
    · exact hpc.symm.trans hq
    · have hwoken : (s.threads.get q).pc.woken = .asleep := hpc.symm.trans hq
      cases hs : (s.threads.get q).pc <;> rw [hs] at hwoken <;> nomatch hwoken
  refine ⟨hasleep, rfl, fun hw => ?_⟩
  rcases Exit.step_pc_or hexit q.other with hpc | hpc
  · exact hpc.trans hw
  · exact hpc.trans (congrArg Pc.woken hw)

theorem noneLost_wait (hs : NoneLost s) (hpc : (s.threads.get r).pc = .wait) :
    NoneLost (s.at r (if s.cond.get r then .clear else .asleep)) := by
  cases hcond : s.cond.get r with
  | true => exact noneLost_at hs nofun (by rw [hpc]; nofun)
  | false =>
    intro q hq
    rw [at_threads] at hq
    split at hq
    · next heq =>
      rw [heq]
      exact .inl hcond
    · next hne =>
      refine .inl ((hs q hq).resolve_right fun hw => ?_)
      rw [Role.eq_other_of_ne hne, Role.other_other, hpc] at hw
      nomatch hw.1

theorem noneLost_clear (hs : NoneLost s) (hpc : (s.threads.get r).pc = .clear) (log : List Role) :
    NoneLost { s.at r .work with cond := s.cond.set false r, log := log } := by
  have hat : NoneLost (s.at r .work) := noneLost_at hs nofun (by rw [hpc]; nofun)
  apply hat.mono
  intro q hq
  refine ⟨hq, ?_, id⟩
  have hne : q ≠ r := by
    rintro rfl
    simp only [at_threads, if_true] at hq
    nomatch hq
  change (s.cond.set false r).get q = s.cond.get q
  rw [Pair.get_set, if_neg hne]

theorem noneLost_wake (hs : NoneLost s) :
    NoneLost ((s.wake_up_interruptible r.other).at r .test) := by
  intro q hq
  rw [at_threads] at hq
  split at hq
  · nomatch hq
  · next hne =>
    -- the other thread was asleep, and this call does not wake it
    obtain rfl := Role.eq_other_of_ne hne
    rw [wake_up_threads] at hq
    split at hq
    · cases hs : (s.threads.get r.other).pc <;> rw [hs] at hq <;> nomatch hq
    · next hsleeps =>
      have hcond : s.cond.get r.other = false :=
        (hs r.other hq).resolve_right fun hw => hsleeps ⟨rfl, hw.2⟩
      refine .inl (Eq.trans ?_ hcond)
      unfold Sys.wake_up_interruptible
      split <;> rfl

theorem noneLost_set_iff :
    NoneLost { s.at r .wake with cond := s.cond.set true r.other } ↔
      ((s.threads.get r.other).pc = .asleep → sleeps r.other = .INTERRUPTIBLE) := by
  constructor
  · intro ht hasleep
    have hother := ht r.other
    simp only [at_threads, Role.other_ne, if_false, Pair.get_set, if_true, Role.other_other,
      true_and] at hother
    rcases hother hasleep with hcond | hsleeps
    · cases hcond
    · exact hsleeps
  · intro hsleeps q hq
    simp only [at_threads, Pair.get_set] at hq ⊢
    split at hq
    · cases hq
    · next hne =>
      obtain rfl := Role.eq_other_of_ne hne
      exact .inr ⟨by rw [Role.other_other, if_pos rfl], hsleeps hq⟩

/-- A step loses a wake-up exactly when the consumer does not hear it. -/
theorem step_noneLost (hs : NoneLost s) (h : s.step a = some t) : NoneLost t ↔ ¬ Unheard s a := by
  cases a with
  | exit => exact iff_of_true (noneLost_exit hs h) fun hu => nomatch hu.1
  | spurious r =>
    obtain ⟨hpc, rfl⟩ := spurious_some h
    exact iff_of_true (noneLost_at hs nofun (by rw [hpc]; nofun)) fun hu => nomatch hu.1
  | thread r =>
    by_cases hset : (s.threads.get r).pc = .set
    · have hthread : s.thread r = some { s.at r .wake with cond := s.cond.set true r.other } := by
        rw [Sys.thread, hset]
      obtain rfl := Option.some.inj (hthread.symm.trans h)
      rw [noneLost_set_iff]
      cases r with
      | prod =>
        constructor
        · rintro hsleeps ⟨-, -, hasleep⟩
          nomatch hsleeps hasleep
        · intro hu hasleep
          exact absurd ⟨rfl, hset, hasleep⟩ hu
      | cons => exact iff_of_true (fun _ => rfl) fun hu => nomatch hu.1
    · have hheard : ¬ Unheard s (.thread r) := by
        rintro ⟨ha, hpc, -⟩
        cases ha
        exact hset hpc
      refine iff_of_true ?_ hheard
      rcases thread_cases h with
          ⟨hpc, rfl⟩ | ⟨hpc, rfl⟩ | ⟨hpc, rfl⟩ | ⟨hpc, rfl⟩ | ⟨hpc, -⟩ | ⟨hpc, rfl⟩
      · refine noneLost_at hs ?_ ?_
        · split <;> nofun
        · rcases hpc with hpc | hpc <;> rw [hpc] <;> nofun
      · exact noneLost_wait hs hpc
      · exact noneLost_clear hs hpc _
      · exact noneLost_at hs nofun (by rw [hpc]; nofun)
      · exact absurd hpc hset
      · exact noneLost_wake hs

theorem noneLost_init : NoneLost .init := by
  intro r
  cases r <;> nofun

/-- **The wake-ups.** None is lost exactly as long as the producer sets the condition of the
consumer only while the consumer is awake. -/
theorem wake_ups_iff (h : run Sys.step .init as = some s) :
    (∀ i t, run Sys.step .init (as.take i) = some t → NoneLost t) ↔
      Along Sys.step (fun s a => ¬ Unheard s a) .init as :=
  forall_take_iff_along step_noneLost noneLost_init h

instance (s : Sys) (a : Action) : Decidable (Unheard s a) := inferInstanceAs (Decidable (_ ∧ _ ∧ _))

/-- The consumer waits only after the producer has generated its data. -/
theorem wake_ups_iff_heard :
    let as : List Action := [.thread .prod, .thread .prod, .thread .prod,
      .thread .prod, .thread .prod,
      .thread .cons, .thread .cons, .thread .prod]
    ∀ i t, run Sys.step .init (as.take i) = some t → NoneLost t :=
  (wake_ups_iff (s := ⟨⟨⟨.test, false⟩, ⟨.clear, false⟩⟩, ⟨false, true⟩,
    .stop .prod, [.prod]⟩) rfl).2
    (by decide)

/-- The consumer sleeps before the producer has generated its data. -/
theorem wake_up_lost : ¬ ∀ as s, run Sys.step .init as = some s → NoneLost s := by
  intro h
  let prod : Action := .thread .prod
  let cons : Action := .thread .cons
  let s : Sys := ⟨⟨⟨.wake, false⟩, ⟨.asleep, false⟩⟩, ⟨false, true⟩, .stop .prod, [.prod]⟩
  have hrun : run Sys.step .init [cons, cons, prod, prod, prod, prod, prod] = some s := rfl
  rcases h _ s hrun .cons rfl with hcond | ⟨-, hsleeps⟩
  · nomatch hcond
  · nomatch hsleeps

end LinuxKernelProg.Sync.HandOver.WaitQueues
