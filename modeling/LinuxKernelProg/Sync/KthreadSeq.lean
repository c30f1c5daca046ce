import LinuxKernelProg.Lib.Ledger
import LinuxKernelProg.Lib.Seqlock

/-!
# The counter behind a sequence lock

`part3/kthread_seq.c`: a writer counts under `my_seq_lock`, readers print the counter and do so
again while `read_seqretry` sends them back. The source has one writer and three readers; here there
are any number of both. Each step is one access to shared data.
-/

namespace LinuxKernelProg.Sync.KthreadSeq

open Lib

structure Shared where
  counter : BitVec 32
  my_seq_lock : Seqlock
  deriving DecidableEq

/-- Where `writer_function` or `read_function` is. -/
inductive Thread where
  /-- `writer_function`: at the test of its loop. -/
  | writer
  /-- At `write_seqlock`. -/
  | lock
  /-- At `counter++`. -/
  | count
  /-- At `write_sequnlock`. -/
  | unlock
  /-- `read_function`: at the test of its outer loop. -/
  | reader
  /-- At `read_seqbegin`. -/
  | begin
  /-- At `pr_info`. -/
  | print (seq : BitVec 32)
  /-- At `read_seqretry`, after printing a value. -/
  | retry (seq printed : BitVec 32)
  | returned
  deriving DecidableEq

/-- `stop` is what `kthread_should_stop()` returns. -/
def Thread.step (sh : Shared) (stop : Bool) : Thread → Option (Shared × Thread)
  | .writer => some (sh, if stop then .returned else .lock)
  | .lock => sh.my_seq_lock.write_seqlock.map fun l => ({ sh with my_seq_lock := l }, .count)
  | .count => some ({ sh with counter := sh.counter + 1 }, .unlock)
  | .unlock => some ({ sh with my_seq_lock := sh.my_seq_lock.write_sequnlock }, .writer)
  | .reader => some (sh, if stop then .returned else .begin)
  | .begin => sh.my_seq_lock.read_seqbegin.map fun seq => (sh, .print seq)
  | .print seq => some (sh, .retry seq sh.counter)
  | .retry seq _ => some (sh, if sh.my_seq_lock.read_seqretry seq then .begin else .reader)
  | .returned => none

/-- Between `write_seqlock` and `write_sequnlock`. -/
def Thread.writing : Thread → Bool
  | .count | .unlock => true
  | _ => false

structure Sys where
  sh : Shared
  threads : List Thread
  /-- The threads for which `kthread_stop` was called. -/
  asked : List Nat
  deriving DecidableEq

inductive Action where
  | thread (t : Nat)
  | kthread_stop (t : Nat)
  deriving DecidableEq

namespace Sys

/-- After `my_mod_init`, with this many threads of each kind. -/
def start (readers writers : Nat) : Sys :=
  ⟨⟨0, .init⟩, List.replicate readers .reader ++ List.replicate writers .writer, []⟩

def step (s : Sys) : Action → Option Sys
  | .thread t =>
    s.threads[t]?.bind fun th => (th.step s.sh (s.asked.contains t)).map fun r =>
      { s with sh := r.1, threads := s.threads.set t r.2 }
  | .kthread_stop t => some { s with asked := t :: s.asked }

/-- The action ends a section of a writer. -/
def completes (s : Sys) : Action → Bool
  | .thread t => s.threads[t]? = some .unlock
  | .kthread_stop _ => false

end Sys

/-- The sections that writers have completed in a run from the start. -/
def sections (readers writers : Nat) (as : List Action) : Nat :=
  tally Sys.step Sys.completes (.start readers writers) as

/-- What every run keeps: the lock is taken while one thread writes, and no two write. -/
structure Inv (s : Sys) : Prop where
  ok : s.sh.my_seq_lock.Ok
  alone : s.threads.countP Thread.writing = s.sh.my_seq_lock.locked.toNat

variable {s s' t : Sys} {a : Action} {r : Nat} {th th' : Thread} {sh sh' : Shared} {stop : Bool}

theorem Sys.step_cases (h : s.step a = some s') :
    (s'.sh = s.sh ∧ s'.threads = s.threads ∧ s.completes a = false) ∨
      ∃ r th th', a = .thread r ∧ s.threads[r]? = some th ∧
        th.step s.sh (s.asked.contains r) = some (s'.sh, th') ∧
          s'.threads = s.threads.set r th' := by
  cases a with
  | thread r =>
    obtain ⟨th, hth, h⟩ := Option.bind_eq_some_iff.1 h
    obtain ⟨⟨sh', th'⟩, hstep, rfl⟩ := Option.map_eq_some_iff.1 h
    exact .inr ⟨r, th, th', rfl, hth, hstep, rfl⟩
  | kthread_stop r =>
    cases h
    exact .inl ⟨rfl, rfl, rfl⟩

/-- What a step of a thread does to the lock: nothing, or it takes it, or it gives it back. -/
theorem Thread.step_lock (h : th.step sh stop = some (sh', th')) :
    (sh'.my_seq_lock = sh.my_seq_lock ∧ th'.writing = th.writing) ∨
      (sh.my_seq_lock.write_seqlock = some sh'.my_seq_lock ∧ th.writing = false ∧
        th'.writing = true) ∨
      (sh'.my_seq_lock = sh.my_seq_lock.write_sequnlock ∧ th.writing = true ∧
        th'.writing = false) := by
  cases th with
  | writer | reader =>
    cases h
    split <;> exact .inl ⟨rfl, rfl⟩
  | lock =>
    obtain ⟨l, hl, heq⟩ := Option.map_eq_some_iff.1 h
    cases heq
    exact .inr (.inl ⟨hl, rfl, rfl⟩)
  | count =>
    cases h
    exact .inl ⟨rfl, rfl⟩
  | unlock =>
    cases h
    exact .inr (.inr ⟨rfl, rfl, rfl⟩)
  | begin =>
    obtain ⟨seq, -, heq⟩ := Option.map_eq_some_iff.1 h
    cases heq
    exact .inl ⟨rfl, rfl⟩
  | print seq =>
    cases h
    exact .inl ⟨rfl, rfl⟩
  | retry seq printed =>
    cases h
    split <;> exact .inl ⟨rfl, rfl⟩
  | returned => nomatch h

/-- What a step of a thread does to the counter. -/
theorem Thread.step_counter (h : th.step sh stop = some (sh', th')) :
    sh'.counter = sh.counter + BitVec.ofNat 32 (decide (th' = .unlock)).toNat ∧
      (sh'.counter = sh.counter ∨ th.writing = true) := by
  have hsame : sh.counter = sh.counter + BitVec.ofNat 32 false.toNat := (BitVec.add_zero _).symm
  cases th with
  | writer | reader =>
    cases h
    split <;> exact ⟨hsame, .inl rfl⟩
  | lock =>
    obtain ⟨l, hl, heq⟩ := Option.map_eq_some_iff.1 h
    cases heq
    exact ⟨hsame, .inl rfl⟩
  | count =>
    cases h
    exact ⟨rfl, .inr rfl⟩
  | unlock =>
    cases h
    exact ⟨hsame, .inl rfl⟩
  | begin =>
    obtain ⟨seq, -, heq⟩ := Option.map_eq_some_iff.1 h
    cases heq
    exact ⟨hsame, .inl rfl⟩
  | print seq =>
    cases h
    exact ⟨hsame, .inl rfl⟩
  | retry seq printed =>
    cases h
    split <;> exact ⟨hsame, .inl rfl⟩
  | returned => nomatch h

namespace Inv

theorem start (readers writers : Nat) : Inv (.start readers writers) := by
  refine ⟨rfl, ?_⟩
  rw [Sys.start, List.countP_append, List.countP_replicate, List.countP_replicate]
  rfl

/-- A thread that writes has the lock. -/
theorem locked_of_writing (hs : Inv s) (hth : s.threads[r]? = some th) (hw : th.writing = true) :
    s.sh.my_seq_lock.locked = true := by
  have hpos : 0 < s.threads.countP Thread.writing :=
    List.countP_pos_iff.2 ⟨th, List.mem_of_getElem? hth, hw⟩
  rw [hs.alone] at hpos
  cases hl : s.sh.my_seq_lock.locked with
  | true => rfl
  | false =>
    rw [hl] at hpos
    nomatch hpos

theorem step (hs : Inv s) (h : s.step a = some s') : Inv s' := by
  rcases Sys.step_cases h with ⟨hsh, hthreads, -⟩ | ⟨r, th, th', rfl, hth, hstep, hthreads⟩
  · exact ⟨hsh ▸ hs.ok, by rw [hthreads, hsh, hs.alone]⟩
  · have hcount := countP_set_add hth Thread.writing th'
    rw [← hthreads, hs.alone] at hcount
    rcases Thread.step_lock hstep with ⟨hlock, hw⟩ | ⟨hlock, hw, hw'⟩ | ⟨hlock, hw, hw'⟩
    · rw [hw, Nat.add_right_cancel_iff] at hcount
      exact ⟨hlock ▸ hs.ok, by rw [hlock, hcount]⟩
    · obtain ⟨hok, -, hfree⟩ := hs.ok.write_seqlock hlock
      rw [hw, hw', hfree] at hcount
      have hlocked : s'.sh.my_seq_lock.locked = true := by
        rw [Seqlock.write_seqlock, hfree, if_neg Bool.false_ne_true] at hlock
        exact (congrArg Seqlock.locked (Option.some.inj hlock)).symm
      exact ⟨hok, by rw [hlocked]; exact hcount⟩
    · have hlocked := hs.locked_of_writing hth hw
      rw [hw, hw', hlocked] at hcount
      refine ⟨hlock ▸ hs.ok.write_sequnlock hlocked, ?_⟩
      rw [hlock]
      exact Nat.add_right_cancel hcount

/-- The lock guards the counter. -/
theorem guards : Guards Sys.step Inv (fun s => s.sh.my_seq_lock) (fun s => s.sh.counter) where
  inv_step := step
  ok := Inv.ok
  lock_step := by
    intro s a s' hs h
    rcases Sys.step_cases h with ⟨hsh, -, -⟩ | ⟨r, th, th', rfl, hth, hstep, -⟩
    · exact .inl (congrArg Shared.my_seq_lock hsh)
    · rcases Thread.step_lock hstep with ⟨hlock, -⟩ | ⟨hlock, -, -⟩ | ⟨hlock, hw, -⟩
      · exact .inl hlock
      · exact .inr (.inl hlock)
      · exact .inr (.inr ⟨hs.locked_of_writing hth hw, hlock⟩)
  data_step := by
    intro s a s' hs h
    rcases Sys.step_cases h with ⟨hsh, -, -⟩ | ⟨r, th, th', rfl, hth, hstep, -⟩
    · exact .inl (congrArg Shared.counter hsh)
    · exact (Thread.step_counter hstep).2.imp_right (hs.locked_of_writing hth)

end Inv

/-- The counter has the completed sections, and the one that is over but for the lock. -/
def Counted (n : Nat) (s : Sys) : Prop :=
  s.sh.counter = BitVec.ofNat 32 (n + s.threads.countP (· = .unlock))

theorem Counted.step {n : Nat} (hs : Counted n s) (h : s.step a = some s') :
    Counted (n + (s.completes a).toNat) s' := by
  unfold Counted at *
  rcases Sys.step_cases h with ⟨hsh, hthreads, hno⟩ | ⟨r, th, th', rfl, hth, hstep, hthreads⟩
  · rw [hsh, hthreads, hno]
    exact hs
  · have hcount := countP_set_add hth (· = .unlock) th'
    have hcompletes : s.completes (.thread r) = decide (th = .unlock) := by
      rw [Sys.completes, hth]
      exact decide_eq_decide.2 Option.some_inj
    rw [(Thread.step_counter hstep).1, hs, hthreads, hcompletes, ← BitVec.ofNat_add]
    congr 1
    omega

theorem counted_run {n : Nat} {as : List Action} (hs : Counted n s)
    (h : run Sys.step s as = some t) :
    Counted (n + tally Sys.step Sys.completes s as) t := by
  induction as generalizing s n with
  | nil =>
    cases h
    exact hs
  | cons a as ih =>
    obtain ⟨u, hstep, hrest⟩ := run_cons.1 h
    rw [tally_cons as hstep, ← Nat.add_assoc]
    exact ih (hs.step hstep) hrest

/-- While nobody has the lock, the counter is the number of completed sections. -/
theorem counter_eq_sections {readers writers : Nat} {as : List Action}
    (h : run Sys.step (.start readers writers) as = some s)
    (hfree : s.sh.my_seq_lock.locked = false) :
    s.sh.counter = BitVec.ofNat 32 (sections readers writers as) := by
  have hs : Inv s := run_inv_of_step (fun hs h => Inv.step hs h) (Inv.start readers writers) h
  have hzero : Counted 0 (.start readers writers) := by
    rw [Counted, Sys.start, List.countP_append, List.countP_replicate, List.countP_replicate]
    rfl
  have hrun := counted_run hzero h
  have hnone : s.threads.countP (· = .unlock) = 0 := by
    have halone := hs.alone
    rw [hfree, Bool.toNat_false, List.countP_eq_zero] at halone
    rw [List.countP_eq_zero]
    intro th hth heq
    rw [of_decide_eq_true heq] at hth
    exact halone _ hth rfl
  rw [Counted, hnone, Nat.zero_add] at hrun
  exact hrun

/-! ## One pass of a reader -/

/-- The steps of the others leave a thread where it is. -/
theorem thread_run {as : List Action} (h : run Sys.step s as = some t) (hno : .thread r ∉ as) :
    t.threads[r]? = s.threads[r]? := by
  induction as generalizing s with
  | nil =>
    cases h
    rfl
  | cons a as ih =>
    obtain ⟨u, hstep, hrest⟩ := run_cons.1 h
    rw [ih hrest fun hmem => hno (List.mem_cons_of_mem _ hmem)]
    rcases Sys.step_cases hstep with ⟨-, hthreads, -⟩ | ⟨k, th, th', rfl, -, -, hthreads⟩
    · rw [hthreads]
    · rw [hthreads]
      refine List.getElem?_set_ne ?_
      rintro rfl
      exact hno List.mem_cons_self

/-- The lock as it stands in a state. -/
abbrev Sys.lock (s : Sys) : Seqlock := s.sh.my_seq_lock

/-- A reader goes from `read_seqbegin` to its print and from there to `read_seqretry`. -/
theorem pass_steps {mid : List Action} (hr : s.threads[r]? = some .begin)
    (hpass : run Sys.step s (.thread r :: mid) = some t) (hone : mid.count (.thread r) = 1) :
    ∃ seq i u, s.lock.read_seqbegin = some seq ∧
      run Sys.step s ((Action.thread r :: mid).take i) = some u ∧
      t.threads[r]? = some (.retry seq u.sh.counter) := by
  obtain ⟨s₁, hbegin, hmid⟩ := run_cons.1 hpass
  have hmem : Action.thread r ∈ mid := List.count_pos_iff.1 (by omega)
  obtain ⟨mid₁, mid₂, rfl, hno₁⟩ := List.eq_append_cons_of_mem hmem
  have hno₂ : Action.thread r ∉ mid₂ := by
    rw [List.count_append, List.count_cons_self, List.count_eq_zero.2 hno₁] at hone
    exact List.count_eq_zero.1 (by omega)
  obtain ⟨u, hu, hrest⟩ := run_append.1 hmid
  obtain ⟨v, hprint, hv⟩ := run_cons.1 hrest
  -- the step at `read_seqbegin`
  obtain ⟨th, hth, hstep⟩ := Option.bind_eq_some_iff.1 hbegin
  obtain rfl := Option.some.inj (hr.symm.trans hth)
  obtain ⟨p, hp, rfl⟩ := Option.map_eq_some_iff.1 hstep
  obtain ⟨seq, hseq, rfl⟩ := Option.map_eq_some_iff.1 hp
  -- the step at `pr_info`
  have hat : u.threads[r]? = some (.print seq) := by
    rw [thread_run hu hno₁]
    exact List.getElem?_set_self (List.getElem?_eq_some_iff.1 hr).1
  obtain ⟨th, hth, hstep⟩ := Option.bind_eq_some_iff.1 hprint
  obtain rfl := Option.some.inj (hat.symm.trans hth)
  obtain ⟨p, hp, rfl⟩ := Option.map_eq_some_iff.1 hstep
  obtain rfl := Option.some.inj hp
  refine ⟨seq, mid₁.length + 1, u, hseq, ?_, ?_⟩
  · rw [List.take_succ_cons, List.take_left]
    exact run_cons.2 ⟨_, hbegin, hu⟩
  · rw [thread_run hv hno₂]
    exact List.getElem?_set_self (List.getElem?_eq_some_iff.1 hat).1

/-- A pass of a reader is done again exactly when a writer has begun or ended a section in it;
otherwise it has printed the number of the sections completed before it, and that is still the
counter. The pass may last any time in which fewer than 2^32 such turns happen. -/
theorem pass_prints_version {readers writers : Nat} {as mid : List Action}
    (h : run Sys.step (.start readers writers) as = some s) (hr : s.threads[r]? = some .begin)
    (hpass : run Sys.step s (.thread r :: mid) = some t) (hone : mid.count (.thread r) = 1)
    (hlt : turns Sys.step Sys.lock s (.thread r :: mid) < 2 ^ 32) :
    ∃ seq printed, t.threads[r]? = some (.retry seq printed) ∧
      (t.lock.read_seqretry seq = true ↔ 0 < turns Sys.step Sys.lock s (.thread r :: mid)) ∧
      (t.lock.read_seqretry seq = false →
        printed = BitVec.ofNat 32 (sections readers writers as) ∧ t.sh.counter = printed) := by
  have hs : Inv s := run_inv_of_step (fun hs h => Inv.step hs h) (Inv.start readers writers) h
  obtain ⟨seq, i, u, hbegin, hu, hat⟩ := pass_steps hr hpass hone
  refine ⟨seq, u.sh.counter, hat, Inv.guards.retry_iff hs hbegin hpass hlt, fun hno => ?_⟩
  have hfree := (hs.ok.read_seqbegin hbegin).1
  have hsections := counter_eq_sections h hfree
  have hprinted : u.sh.counter = s.sh.counter :=
    Inv.guards.unchanged_of_no_retry hs hbegin hpass hlt hno hu
  have hstill : t.sh.counter = s.sh.counter := by
    refine Inv.guards.unchanged_of_no_retry hs hbegin hpass hlt hno (i := mid.length + 1) ?_
    rw [List.take_of_length_le (Nat.le_of_eq List.length_cons)]
    exact hpass
  exact ⟨hprinted.trans hsections, hstill.trans hprinted.symm⟩

/-- A reader that begins after one section, and a writer that waits to begin the next. -/
theorem pass_prints_version_one : ∃ t seq printed, run Sys.step (.start 1 1)
    ([1, 1, 1, 1, 0].map .thread ++ [0, 1, 0].map .thread) = some t ∧
      t.threads[0]? = some (.retry seq printed) ∧ printed = 1 := by
  have hrun : run Sys.step (.start 1 1) ([1, 1, 1, 1, 0].map .thread) = some _ := rfl
  obtain ⟨seq, printed, hat, -, hprinted⟩ := pass_prints_version hrun (r := 0) rfl
    (show run Sys.step _ (.thread 0 :: [1, 0].map .thread) = some _ from rfl) rfl (by decide)
  exact ⟨_, seq, printed, rfl, hat, (hprinted (by cases hat; rfl)).1⟩

end LinuxKernelProg.Sync.KthreadSeq
