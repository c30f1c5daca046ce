import LinuxKernelProg.Sync.HandOver.Basic

/-!
# Handing over with semaphores

`kthread_sync.c`: each of the two waits for a semaphore of its own and gives the other one a turn by
its semaphore. A thread looks at its stop flag only after that, so a consumer that looks too early
waits for a producer that has returned, and the unload waits for the consumer (`unload_hangs`).
Otherwise it ends (`unload_iff`).
-/

namespace LinuxKernelProg.Sync.HandOver.Semaphores

open LinuxKernelProg.Lib

/-! ## The program -/

/-- Where `prod_fct` or `cons_fct` is, by the statement that comes next. -/
inductive Pc where
  /-- The thread exists, its function has not been called. -/
  | created
  /-- `down(pdata->sem1)`. -/
  | down
  /-- Data is generated, or consumed. -/
  | work
  /-- `up(pdata->sem2)`. -/
  | up
  /-- `kthread_should_stop()`. -/
  | test
  | returned
  deriving DecidableEq

/-- Between the two semaphores. -/
def Pc.inside : Pc → Bool
  | .work | .up => true
  | _ => false

structure Sys where
  threads : Pair (Thread Pc)
  /-- The member `sem1` of each: `psem` and `csem`. -/
  sem1 : Pair Nat
  exit : Exit
  /-- Who has passed `down`, the latest one first. -/
  log : List Role

inductive Action where
  | thread (r : Role)
  | exit

def Sys.at (s : Sys) (r : Role) (pc : Pc) : Sys :=
  { s with threads := s.threads.set { s.threads.get r with pc := pc } r }

/-- `prod_fct` and `cons_fct`, which differ only in what they print. -/
def Sys.thread (s : Sys) (r : Role) : Option Sys :=
  match (s.threads.get r).pc with
  | .created => some (s.at r (if (s.threads.get r).stop then .returned else .down))
  | .down =>
    if s.sem1.get r = 0 then none
    else some { s.at r .work with sem1 := s.sem1.set (s.sem1.get r - 1) r, log := r :: s.log }
  | .work => some (s.at r .up)
  | .up => some { s.at r .test with sem1 := s.sem1.set (s.sem1.get r.other + 1) r.other }
  | .test => some (s.at r (if (s.threads.get r).stop then .returned else .down))
  | .returned => none

/-- `down` is not ended by the wake-up of `kthread_stop`. -/
def Sys.kthr_exit (s : Sys) : Option Sys :=
  (s.exit.step (· = .returned) id s.threads).map fun p => { s with exit := p.1, threads := p.2 }

def Sys.step (s : Sys) : Action → Option Sys
  | .thread r => s.thread r
  | .exit => s.kthr_exit

/-- The thread looks at its stop flag. -/
def Sys.Looks (s : Sys) (r : Role) : Prop :=
  (s.threads.get r).pc = .created ∨ (s.threads.get r).pc = .test

/-- `kthr_init` has returned. -/
def Sys.init : Sys := ⟨⟨⟨.created, false⟩, ⟨.created, false⟩⟩, ⟨1, 0⟩, .stop .prod, []⟩

/-! ## Turns -/

def Sys.inside (s : Sys) : Pair Bool := ⟨s.threads.prod.pc.inside, s.threads.cons.pc.inside⟩

variable {s t : Sys} {a : Action} {as : List Action} {u : Turns Role} {r : Role}

theorem inside_get (s : Sys) (r : Role) : s.inside.get r = (s.threads.get r).pc.inside := by
  cases r <;> rfl

@[simp] theorem at_threads (s : Sys) (r : Role) (pc : Pc) (q : Role) :
    ((s.at r pc).threads.get q) = if q = r then ⟨pc, (s.threads.get r).stop⟩
      else s.threads.get q := by
  simp [Sys.at]

/-- What a step of a thread does. -/
theorem thread_cases (h : s.thread r = some t) :
    (s.Looks r ∧ t = s.at r (if (s.threads.get r).stop then .returned else .down)) ∨
    ((s.threads.get r).pc = .down ∧ s.sem1.get r ≠ 0 ∧
      t = { s.at r .work with sem1 := s.sem1.set (s.sem1.get r - 1) r, log := r :: s.log }) ∨
    ((s.threads.get r).pc = .work ∧ t = s.at r .up) ∨
    (s.threads.get r).pc = .up ∧
      t = { s.at r .test with sem1 := s.sem1.set (s.sem1.get r.other + 1) r.other } := by
  unfold Sys.thread at h
  split at h <;> rename_i hpc
  · exact .inl ⟨.inl hpc, (Option.some.inj h).symm⟩
  · split at h
    · nomatch h
    · next hdown => exact .inr (.inl ⟨hpc, hdown, (Option.some.inj h).symm⟩)
  · exact .inr (.inr (.inl ⟨hpc, (Option.some.inj h).symm⟩))
  · exact .inr (.inr (.inr ⟨hpc, (Option.some.inj h).symm⟩))
  · exact .inl ⟨.inr hpc, (Option.some.inj h).symm⟩
  · nomatch h

theorem thread_of_looks (h : s.Looks r) :
    s.thread r = some (s.at r (if (s.threads.get r).stop then .returned else .down)) := by
  unfold Sys.thread
  rcases h with hpc | hpc <;> rw [hpc]

theorem kthr_exit_some (h : s.kthr_exit = some t) :
    ∃ e ts, s.exit.step (· = .returned) id s.threads = some (e, ts) ∧
      t = { s with exit := e, threads := ts } := by
  obtain ⟨⟨e, ts⟩, hstep, rfl⟩ := Option.map_eq_some_iff.1 h
  exact ⟨e, ts, hstep, rfl⟩

/-- The exit moves no thread. -/
theorem kthr_exit_pc (h : s.kthr_exit = some t) (q : Role) :
    (t.threads.get q).pc = (s.threads.get q).pc := by
  obtain ⟨e, ts, hstep, rfl⟩ := kthr_exit_some h
  exact Exit.step_pc id (fun _ => rfl) hstep q

/-- The semaphores and the sections stand for a turn. -/
def Refines (s : Sys) (u : Turns Role) : Prop := Shows s.sem1.get s.inside.get s.log u

theorem refines_init : Refines .init (Turns.init .prod) where
  tokens_eq := by
    intro r
    cases r <;> rfl
  inside_eq := by
    intro r
    cases r <;> rfl
  log_eq := rfl

/-- A statement that neither takes nor gives a turn. -/
theorem refines_at (h : Refines s u) {pc : Pc} (hpc : pc.inside = (s.threads.get r).pc.inside) :
    Refines (s.at r pc) u := by
  apply h.stay (fun _ => rfl)
  intro q
  rw [inside_get, inside_get, at_threads]
  split
  · next hq => rw [hpc, hq]
  · rfl

theorem step_sim (h : Refines s u) (hstep : s.step a = some t) :
    Refines t u ∨ ∃ m u', Turns.step Role.other u m = some u' ∧ Refines t u' := by
  cases a with
  | exit =>
    have hpc := kthr_exit_pc hstep
    obtain ⟨e, ts, -, rfl⟩ := kthr_exit_some hstep
    exact .inl (h.stay (fun _ => rfl) fun q => by rw [inside_get, inside_get, hpc])
  | thread r =>
    have hinside : s.inside.get r = (s.threads.get r).pc.inside := inside_get s r
    rcases thread_cases hstep with ⟨hlooks, rfl⟩ | ⟨-, hdown, rfl⟩ | ⟨hpc, rfl⟩ | ⟨hpc, rfl⟩
    · refine .inl (refines_at h ?_)
      rcases hlooks with hpc | hpc <;> rw [hpc] <;> split <;> rfl
    · refine .inr (Shows.enter h hdown (fun q => ?_) fun q => ?_)
      · have hone : s.sem1.get r - 1 = 0 := by
          rw [h.tokens_eq]
          cases offered u r <;> rfl
        rw [Pair.get_set, hone]
      · rw [inside_get, inside_get]
        simp only [at_threads]
        split <;> rfl
    · exact .inl (refines_at h (by rw [hpc]; rfl))
    · rw [hpc] at hinside
      refine .inr (Shows.leave h hinside (fun q => ?_) fun q => ?_)
      · rw [Pair.get_set, h.tokens_eq_zero hinside r.other]
      · rw [inside_get, inside_get]
        simp only [at_threads]
        split <;> rfl

theorem refines_of_run (h : run Sys.step .init as = some s) :
    ∃ ms u, run (Turns.step Role.other) (Turns.init .prod) ms = some u ∧ Refines s u :=
  run_sim step_sim refines_init h

theorem takesTurns_of_run (h : run Sys.step .init as = some s) :
    TakesTurns s.sem1 s.inside s.log := by
  obtain ⟨ms, u, hu, hs⟩ := refines_of_run h
  exact takesTurns_of_shows hs (Turns.ordered_of_run hu)

/-! ## The unload -/

/-- The thread waits in `down`. -/
def Sys.Blocked (s : Sys) (r : Role) : Prop := (s.threads.get r).pc = .down ∧ s.sem1.get r = 0

/-- The exit waits for a thread that waits for a semaphore, and nobody will ever `up` it. -/
structure Hangs (s : Sys) (r : Role) : Prop where
  joins : s.exit = .join r
  blocked : s.Blocked r
  for_ever : ∀ as t, run Sys.step s as = some t → t.sem1.get r = 0

/-- The producer returns while the consumer waits, or the consumer goes on to wait for a producer
that has returned. -/
def Late (s : Sys) : Action → Prop
  | .thread .prod => s.Looks .prod ∧ s.threads.prod.stop ∧ s.Blocked .cons
  | .thread .cons =>
    s.Looks .cons ∧ s.threads.cons.stop = false ∧ s.threads.prod.pc = .returned ∧ s.sem1.cons = 0
  | .exit => False

instance (s : Sys) (a : Action) : Decidable (Late s a) :=
  match a with
  | .thread .prod => inferInstanceAs (Decidable ((_ ∨ _) ∧ _ ∧ _ ∧ _))
  | .thread .cons => inferInstanceAs (Decidable ((_ ∨ _) ∧ _ ∧ _ ∧ _))
  | .exit => inferInstanceAs (Decidable False)

/-- The consumer waits for a producer that has returned. -/
structure Stranded (s : Sys) : Prop where
  prod : s.threads.prod.pc = .returned
  cons : s.Blocked .cons

/-- How far the exit is, and what it has found. -/
structure Orderly (s : Sys) : Prop where
  prod_returned : s.exit = .stop .cons ∨ s.exit = .join .cons → s.threads.prod.pc = .returned
  cons_returned : s.exit = .returned → s.threads.cons.pc = .returned
  cons_stop : s.threads.cons.stop → s.exit = .join .cons ∨ s.exit = .returned
  returned_stop : s.threads.cons.pc = .returned → s.threads.cons.stop

theorem orderly_init : Orderly .init := ⟨nofun, nofun, nofun, nofun⟩

/-- A thread that has returned stays there, and it returns only if it is told to stop. -/
theorem thread_returned (h : s.thread r = some t) :
    t.exit = s.exit ∧ ∀ q, (t.threads.get q).stop = (s.threads.get q).stop ∧
      ((s.threads.get q).pc = .returned → (t.threads.get q).pc = .returned) ∧
      ((t.threads.get q).pc = .returned → (s.threads.get q).pc = .returned ∨
        (s.threads.get q).stop) := by
  rcases thread_cases h with ⟨hlooks, rfl⟩ | ⟨hpc, -, rfl⟩ | ⟨hpc, rfl⟩ | ⟨hpc, rfl⟩
  · refine ⟨rfl, fun q => ?_⟩
    rw [at_threads]
    split
    · next hq =>
      subst hq
      refine ⟨rfl, fun hret => ?_, fun hret => .inr ?_⟩
      · rcases hlooks with hpc | hpc <;> nomatch hpc.symm.trans hret
      · cases hstop : (s.threads.get q).stop with
        | true => rfl
        | false =>
          rw [hstop] at hret
          nomatch hret
    · exact ⟨rfl, id, .inl⟩
  all_goals
    refine ⟨rfl, fun q => ?_⟩
    simp only [at_threads]
    split
    · next hq =>
      subst hq
      rw [hpc]
      exact ⟨rfl, nofun, nofun⟩
    · exact ⟨rfl, id, .inl⟩

theorem step_orderly (hs : Orderly s) (h : s.step a = some t) : Orderly t := by
  cases a with
  | thread r =>
    obtain ⟨hexit, hthreads⟩ := thread_returned h
    obtain ⟨-, hpret, -⟩ := hthreads .prod
    obtain ⟨hcstop, hcret, hcback⟩ := hthreads .cons
    constructor
    · rw [hexit]
      exact fun he => hpret (hs.prod_returned he)
    · rw [hexit]
      exact fun he => hcret (hs.cons_returned he)
    · rw [hexit]
      exact fun hstop => hs.cons_stop (hcstop.symm.trans hstop)
    · exact fun hret => hcstop.trans ((hcback hret).elim hs.returned_stop id)
  | exit =>
    obtain ⟨e, ts, hstep, rfl⟩ := kthr_exit_some h
    rcases Exit.step_cases hstep with
        ⟨r, he, rfl, rfl⟩ | ⟨he, hret, rfl, rfl⟩ | ⟨he, hret, rfl, rfl⟩
    · cases r with
      | prod =>
        refine ⟨nofun, nofun, fun hstop => ?_, hs.returned_stop⟩
        rcases hs.cons_stop hstop with he' | he' <;> nomatch he.symm.trans he'
      | cons => exact ⟨fun _ => hs.prod_returned (.inl he), nofun, fun _ => .inl rfl, fun _ => rfl⟩
    · refine ⟨fun _ => of_decide_eq_true hret, nofun, fun hstop => ?_, hs.returned_stop⟩
      rcases hs.cons_stop hstop with he' | he' <;> nomatch he.symm.trans he'
    · exact ⟨nofun, fun _ => of_decide_eq_true hret, fun _ => .inr rfl, hs.returned_stop⟩

theorem stranded_step (hs : Stranded s) (h : s.step a = some t) : Stranded t := by
  obtain ⟨hprod, hdown, hzero⟩ := hs
  cases a with
  | exit =>
    have hpc := kthr_exit_pc h
    obtain ⟨e, ts, -, rfl⟩ := kthr_exit_some h
    exact ⟨(hpc .prod).trans hprod, (hpc .cons).trans hdown, hzero⟩
  | thread r =>
    cases r with
    | prod =>
      rcases thread_cases h with
          ⟨hpc | hpc, -⟩ | ⟨hpc, -⟩ | ⟨hpc, -⟩ | ⟨hpc, -⟩ <;> nomatch hpc.symm.trans hprod
    | cons =>
      rcases thread_cases h with ⟨hpc | hpc, -⟩ | ⟨-, hne, -⟩ | ⟨hpc, -⟩ | ⟨hpc, -⟩
      · nomatch hpc.symm.trans hdown
      · nomatch hpc.symm.trans hdown
      · exact absurd hzero hne
      · nomatch hpc.symm.trans hdown
      · nomatch hpc.symm.trans hdown

/-- What strands the consumer. -/
theorem stranded_iff_late (hs : ¬ Stranded s) (h : s.step a = some t) : Stranded t ↔ Late s a := by
  cases a with
  | exit =>
    have hpc := kthr_exit_pc h
    obtain ⟨e, ts, -, rfl⟩ := kthr_exit_some h
    refine iff_of_false (fun ht => hs ?_) id
    exact ⟨(hpc .prod).symm.trans ht.prod, (hpc .cons).symm.trans ht.cons.1, ht.cons.2⟩
  | thread r =>
    cases r with
    | prod =>
      constructor
      · intro ht
        rcases thread_cases h with ⟨hlooks, rfl⟩ | ⟨-, -, rfl⟩ | ⟨-, rfl⟩ | ⟨-, rfl⟩
        · cases hstop : (s.threads.get .prod).stop with
          | true => exact ⟨hlooks, hstop, ht.cons⟩
          | false =>
            rw [hstop] at ht
            nomatch ht.prod
        all_goals nomatch ht.prod
      · rintro ⟨hlooks, hstop, hblocked⟩
        have hstop' : (s.threads.get .prod).stop = true := hstop
        obtain rfl := Option.some.inj ((thread_of_looks hlooks).symm.trans h)
        rw [hstop']
        exact ⟨rfl, hblocked⟩
    | cons =>
      constructor
      · intro ht
        rcases thread_cases h with ⟨hlooks, rfl⟩ | ⟨-, -, rfl⟩ | ⟨-, rfl⟩ | ⟨-, rfl⟩
        · cases hstop : (s.threads.get .cons).stop with
          | true =>
            rw [hstop] at ht
            nomatch ht.cons.1
          | false => exact ⟨hlooks, hstop, ht.prod, ht.cons.2⟩
        all_goals nomatch ht.cons.1
      · rintro ⟨hlooks, hstop, hret, hzero⟩
        have hstop' : (s.threads.get .cons).stop = false := hstop
        obtain rfl := Option.some.inj ((thread_of_looks hlooks).symm.trans h)
        rw [hstop']
        exact ⟨hret, rfl, hzero⟩

/-- A consumer that is not told to stop gives the waiting producer a turn, if it can. -/
theorem cons_ups (hs : Orderly s) (hturns : TakesTurns s.sem1 s.inside s.log)
    (hexit : s.exit = .join .prod) (hblocked : s.Blocked .prod) :
    ∃ as t, run Sys.step s as = some t ∧ t.sem1.prod ≠ 0 := by
  have hstop : s.threads.cons.stop = false := by
    rw [Bool.eq_false_iff]
    intro hstop
    rcases hs.cons_stop hstop with he | he <;> nomatch hexit.symm.trans he
  have hpc : s.threads.cons.pc ≠ .returned :=
    fun hret => Bool.eq_false_iff.1 hstop (hs.returned_stop hret)
  have htoken := hturns.token
  obtain ⟨⟨⟨p, pstop⟩, ⟨c, cstop⟩⟩, ⟨psem, csem⟩, e, log⟩ := s
  obtain ⟨rfl, rfl⟩ := hblocked
  obtain rfl : cstop = false := hstop
  -- the semaphore of the consumer is 1, or the consumer is in its section
  have hcons : csem + c.inside.toNat = 1 := by
    simp only [Sys.inside, Pc.inside, Bool.toNat_false] at htoken ⊢
    omega
  let next : Action := .thread .cons
  cases c with
  | created =>
    obtain rfl : csem = 1 := hcons
    exact ⟨[next, next, next, next], _, rfl, Nat.one_ne_zero⟩
  | down =>
    obtain rfl : csem = 1 := hcons
    exact ⟨[next, next, next], _, rfl, Nat.one_ne_zero⟩
  | work => exact ⟨[next, next], _, rfl, Nat.one_ne_zero⟩
  | up => exact ⟨[next], _, rfl, Nat.one_ne_zero⟩
  | test =>
    obtain rfl : csem = 1 := hcons
    exact ⟨[next, next, next, next], _, rfl, Nat.one_ne_zero⟩
  | returned => exact absurd rfl hpc

/-- Only a consumer that is stranded hangs. -/
theorem stranded_of_hangs (hs : Orderly s) (hturns : TakesTurns s.sem1 s.inside s.log)
    (h : Hangs s r) : Stranded s := by
  cases r with
  | prod =>
    obtain ⟨as, t, ht, hne⟩ := cons_ups hs hturns h.joins h.blocked
    exact absurd (h.for_ever as t ht) hne
  | cons => exact ⟨hs.prod_returned (.inr h.joins), h.blocked⟩

theorem stranded_run (hs : Stranded s) (h : run Sys.step s as = some t) : Stranded t :=
  run_inv_of_step stranded_step hs h

/-- A consumer that is stranded hangs as soon as the exit waits for it. -/
theorem hangs_of_stranded (hs : Stranded s) (hexit : s.exit = .join .cons) : Hangs s .cons where
  joins := hexit
  blocked := hs.cons
  for_ever := fun _ _ h => (stranded_run hs h).cons.2

theorem orderly_of_run (h : run Sys.step .init as = some s) : Orderly s :=
  run_inv_of_step step_orderly orderly_init h

theorem not_stranded_of_run (hC : Along Sys.step (fun s a => ¬ Late s a) .init as)
    (h : run Sys.step .init as = some s) : ¬ Stranded s := by
  have hinit : ¬ Stranded .init := fun hs => nomatch hs.prod
  exact run_inv (I := fun s => ¬ Stranded s)
    (fun hs hlate hstep => (not_congr (stranded_iff_late hs hstep)).2 hlate) hinit hC h

theorem not_hangs_of_run (hC : Along Sys.step (fun s a => ¬ Late s a) .init as)
    (h : run Sys.step .init as = some s) (r : Role) : ¬ Hangs s r := fun hr =>
  not_stranded_of_run hC h (stranded_of_hangs (orderly_of_run h) (takesTurns_of_run h) hr)

theorem along_of_not_stranded (h : run Sys.step .init as = some s) (hs : ¬ Stranded s) :
    Along Sys.step (fun s a => ¬ Late s a) .init as := by
  apply Along.of_get
  intro i a u ha hu hlate
  obtain ⟨u', v, hu', hstep, -, hrest⟩ := run_getElem? h ha
  obtain rfl := Option.some.inj (hu'.symm.trans hu)
  have hv : Stranded v := by
    by_cases hstranded : Stranded u'
    · exact stranded_step hstranded hstep
    · exact (stranded_iff_late hstranded hstep).2 hlate
  exact hs (stranded_run hv hrest)

/-- **The unload** does not hang as long as neither thread looks at its flag too late, and where it
has come to wait for the consumer, it has hung otherwise. -/
theorem unload_iff (h : run Sys.step .init as = some s) :
    (Along Sys.step (fun s a => ¬ Late s a) .init as → ∀ r, ¬ Hangs s r) ∧
    (s.exit = .join .cons ∨ s.exit = .returned →
      ((∀ i t r, run Sys.step .init (as.take i) = some t → ¬ Hangs t r) ↔
        Along Sys.step (fun s a => ¬ Late s a) .init as)) := by
  constructor
  · exact fun hC => not_hangs_of_run hC h
  · intro hexit
    constructor
    · intro hno
      apply along_of_not_stranded h
      intro hstranded
      rcases hexit with he | he
      · refine hno as.length s .cons ?_ (hangs_of_stranded hstranded he)
        rwa [List.take_length]
      · have hret := (orderly_of_run h).cons_returned he
        nomatch hret.symm.trans hstranded.cons.1
    · exact fun hC i t r ht => not_hangs_of_run (hC.take i) ht r

/-- The consumer takes the last turn after the exit has come to wait for it. -/
theorem unload_iff_last_turn :
    let as : List Action := [.thread .prod, .thread .prod, .thread .prod,
      .thread .prod, .thread .cons,
      .exit, .thread .prod, .exit, .exit, .thread .cons, .thread .cons, .thread .cons,
        .thread .cons, .exit]
    ∀ i t r, run Sys.step .init (as.take i) = some t → ¬ Hangs t r :=
  ((unload_iff (s := ⟨⟨⟨.returned, true⟩, ⟨.returned, true⟩⟩, ⟨1, 0⟩, .returned, [.cons, .prod]⟩)
    rfl).2 (.inr rfl)).2 (by decide)

/-- The consumer has consumed and waits again when the producer looks at its flag. -/
theorem unload_hangs : ¬ ∀ as s r, run Sys.step .init as = some s → ¬ Hangs s r := by
  intro h
  let prod : Action := .thread .prod
  let cons : Action := .thread .cons
  let as := [prod, prod, prod, prod, cons, cons, cons, cons, cons, .exit, prod, .exit, .exit]
  let s : Sys := ⟨⟨⟨.returned, true⟩, ⟨.down, true⟩⟩, ⟨1, 0⟩, .join .cons, [.cons, .prod]⟩
  have hrun : run Sys.step .init as = some s := rfl
  exact h as s .cons hrun (hangs_of_stranded ⟨rfl, rfl, rfl⟩ rfl)

end LinuxKernelProg.Sync.HandOver.Semaphores
