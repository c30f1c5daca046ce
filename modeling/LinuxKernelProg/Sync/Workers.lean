import LinuxKernelProg.Lib.Run

/-!
# Workers that count in turn

`sem_worker_thread` of `kthread_csem.c`, `worker_thread` of `kthread_mutex.c` and `bitlock_fn` of
`kthread_bitlck.c` are one loop: take the lock, add one to a shared variable, print it, release the
lock. They differ in how many threads the lock lets in and in whether the wait for it can be
interrupted. What the workers print counts up by one, in every run, exactly when the lock lets in
one thread at most (`printed_in_order_iff`). `sema_init` has 1 there, not the 3 of the comment
behind it.
-/

namespace LinuxKernelProg.Sync.Workers

open Lib

/-- The lock of a module: its initial count, and whether the wait for it can be interrupted. -/
structure Lock where
  count : Nat
  interruptible : Bool

def kthread_csem : Lock := ⟨1, true⟩
def kthread_mutex : Lock := ⟨1, true⟩
def kthread_bitlck : Lock := ⟨1, false⟩

/-- Where a worker is. -/
inductive Thread where
  /-- At the test of the loop. -/
  | test
  /-- At `down_interruptible`, `mutex_lock_interruptible` or `bit_spin_lock`. -/
  | lock
  /-- At the load and at the store of the increment. -/
  | load
  | store (v : BitVec 32)
  /-- At `pr_info`, which reads the variable again. -/
  | print
  | unlock
  | returned
  deriving DecidableEq

def Thread.inside : Thread → Bool
  | .load | .store _ | .print | .unlock => true
  | _ => false

structure State where
  sem : Nat
  shared_var : BitVec 32
  threads : List Thread
  /-- What was printed, as 32-bit numbers. -/
  printed : List (BitVec 32)
  stop_threads : Bool
  /-- The threads for which `kthread_stop` was called. -/
  asked : List Nat
  deriving DecidableEq

inductive Action where
  | thread (t : Nat)
  /-- The wait of the thread is interrupted. -/
  | interrupt (t : Nat)
  /-- The exit function: `stop_threads = true`. -/
  | stop
  | kthread_stop (t : Nat)

/-- After the init function, with this many threads. -/
def start (w : Lock) (n : Nat) : State := ⟨w.count, 0, List.replicate n .test, [], false, []⟩

/-- A step of the thread at `t`. -/
def threadStep (s : State) (t : Nat) : Thread → Option State
  | .test =>
    let stop := s.asked.contains t || s.stop_threads
    some { s with threads := s.threads.set t (if stop then .returned else .lock) }
  | .lock =>
    match s.sem with
    | 0 => none
    | sem + 1 => some { s with sem, threads := s.threads.set t .load }
  | .load => some { s with threads := s.threads.set t (.store s.shared_var) }
  | .store v => some { s with shared_var := v + 1, threads := s.threads.set t .print }
  | .print =>
    some { s with printed := s.printed ++ [s.shared_var], threads := s.threads.set t .unlock }
  | .unlock => some { s with sem := s.sem + 1, threads := s.threads.set t .test }
  | .returned => none

def step (w : Lock) (s : State) : Action → Option State
  | .thread t => s.threads[t]?.bind (threadStep s t)
  | .interrupt t =>
    if w.interruptible ∧ s.threads[t]? = some .lock then
      some { s with threads := s.threads.set t .returned }
    else none
  | .stop => some { s with stop_threads := true }
  | .kthread_stop t => some { s with asked := t :: s.asked }

/-- 1, 2, 3 and so on, as `%d` has them. -/
def upTo (n : Nat) : List (BitVec 32) := (List.range n).map fun i => BitVec.ofNat 32 (i + 1)

theorem upTo_succ (n : Nat) : upTo (n + 1) = upTo n ++ [BitVec.ofNat 32 (n + 1)] := by
  rw [upTo, List.range_succ, List.map_append]
  rfl

variable {w : Lock} {s s' : State} {a : Action} {t : Nat} {th : Thread}

/-- What every run keeps: the threads inside and what is left of the lock. -/
def Held (w : Lock) (s : State) : Prop := s.threads.countP Thread.inside + s.sem = w.count

/-- What a run keeps besides while one thread at most is inside. -/
structure Counting (s : State) : Prop where
  shared : s.shared_var = BitVec.ofNat 32 (s.printed.length + s.threads.countP (· = .print))
  loaded : ∀ th ∈ s.threads, ∀ v, th = .store v → v = s.shared_var
  printed : s.printed = upTo s.printed.length

/-- What a step can be: something outside of the lock, or one of the five steps from lock to
unlock. -/
theorem step_cases (h : step w s a = some s') :
    (s'.sem = s.sem ∧ s'.shared_var = s.shared_var ∧ s'.printed = s.printed ∧
      (s'.threads = s.threads ∨
      ∃ t th th', s.threads[t]? = some th ∧ th.inside = false ∧ th'.inside = false ∧
        s'.threads = s.threads.set t th')) ∨
    ∃ t th, s.threads[t]? = some th ∧
      ((th = .lock ∧ s.sem = s'.sem + 1 ∧
        s' = { s with sem := s'.sem, threads := s.threads.set t .load }) ∨
        (th = .load ∧ s' = { s with threads := s.threads.set t (.store s.shared_var) }) ∨
        (∃ v, th = .store v ∧ s' = { s with
          shared_var := v + 1, threads := s.threads.set t .print }) ∨
        (th = .print ∧ s' =
          { s with printed := s.printed ++ [s.shared_var], threads := s.threads.set t .unlock }) ∨
        (th = .unlock ∧ s' = { s with sem := s.sem + 1, threads := s.threads.set t .test })) := by
  cases a with
  | thread t =>
    obtain ⟨th, hth, h⟩ := Option.bind_eq_some_iff.1 h
    cases th with
    | test =>
      cases h
      refine .inl ⟨rfl, rfl, rfl, .inr ⟨t, .test, _, hth, rfl, ?_, rfl⟩⟩
      split <;> rfl
    | lock =>
      refine .inr ⟨t, .lock, hth, .inl ⟨rfl, ?_⟩⟩
      unfold threadStep at h
      cases hsem : s.sem with
      | zero =>
        rw [hsem] at h
        nomatch h
      | succ sem =>
        rw [hsem] at h
        cases h
        exact ⟨rfl, rfl⟩
    | load =>
      cases h
      exact .inr ⟨t, .load, hth, .inr (.inl ⟨rfl, rfl⟩)⟩
    | store v =>
      cases h
      exact .inr ⟨t, .store v, hth, .inr (.inr (.inl ⟨v, rfl, rfl⟩))⟩
    | print =>
      cases h
      exact .inr ⟨t, .print, hth, .inr (.inr (.inr (.inl ⟨rfl, rfl⟩)))⟩
    | unlock =>
      cases h
      exact .inr ⟨t, .unlock, hth, .inr (.inr (.inr (.inr ⟨rfl, rfl⟩)))⟩
    | returned => nomatch h
  | interrupt t =>
    rw [step] at h
    split at h
    · next hlock =>
      cases h
      exact .inl ⟨rfl, rfl, rfl, .inr ⟨t, .lock, .returned, hlock.2, rfl, rfl, rfl⟩⟩
    · nomatch h
  | stop =>
    cases h
    exact .inl ⟨rfl, rfl, rfl, .inl rfl⟩
  | kthread_stop t =>
    cases h
    exact .inl ⟨rfl, rfl, rfl, .inl rfl⟩

theorem Held.step (hs : Held w s) (h : step w s a = some s') : Held w s' := by
  unfold Held at *
  rcases step_cases h with
      ⟨hsem, -, -, heq | ⟨t, th, th', hth, hout, hout', heq⟩⟩ | ⟨t, th, hth, hcase⟩
  · rw [heq, hsem, hs]
  · have hcount := countP_set_add hth Thread.inside th'
    rw [hout, hout', Nat.add_right_cancel_iff] at hcount
    rw [heq, hsem, hcount, hs]
  · have hcount := fun th' => countP_set_add hth Thread.inside th'
    rcases hcase with ⟨rfl, hsem, heq⟩ | ⟨rfl, rfl⟩ | ⟨v, rfl, rfl⟩ | ⟨rfl, rfl⟩ | ⟨rfl, rfl⟩
    · have hset := hcount .load
      dsimp only [Thread.inside, Bool.toNat_false, Bool.toNat_true] at hset
      rw [heq]
      dsimp only
      omega
    · exact (Nat.add_right_cancel (hcount (.store s.shared_var))) ▸ hs
    · exact (Nat.add_right_cancel (hcount .print)) ▸ hs
    · exact (Nat.add_right_cancel (hcount .unlock)) ▸ hs
    · have hset := hcount .test
      dsimp only [Thread.inside, Bool.toNat_false, Bool.toNat_true] at hset ⊢
      omega

theorem Held.start (w : Lock) (n : Nat) : Held w (start w n) := by
  rw [Held, Workers.start, List.countP_replicate]
  exact Nat.zero_add _

/-- A thread outside of the lock is not between the steps that `Counting` speaks of. -/
theorem inside_of_print {th : Thread} (h : th.inside = false) : decide (th = .print) = false := by
  cases th with
  | print => nomatch h
  | _ => rfl

theorem Counting.step (hs : Counting s) (hheld : Held w s) (hone : w.count ≤ 1)
    (h : step w s a = some s') : Counting s' := by
  rcases step_cases h with
      ⟨-, hshared, hprinted, heq | ⟨t, th, th', hth, hout, hout', heq⟩⟩ | ⟨t, th, hth, hcase⟩
  · exact ⟨by rw [hshared, hprinted, heq, hs.shared], by rw [heq, hshared]; exact hs.loaded,
      by rw [hprinted]; exact hs.printed⟩
  · have hcount := countP_set_add hth (· = .print) th'
    rw [inside_of_print hout, inside_of_print hout', Nat.add_right_cancel_iff] at hcount
    refine ⟨by rw [hshared, hprinted, heq, hcount, hs.shared],
      ?_, by rw [hprinted]; exact hs.printed⟩
    intro u hu v hv
    rw [heq] at hu
    rw [hshared]
    rcases List.mem_or_eq_of_mem_set hu with hu | rfl
    · exact hs.loaded u hu v hv
    · rw [hv] at hout'
      nomatch hout'
  · have hcount := fun th' => countP_set_add hth (· = .print) th'
    have hother : ∀ {th' u : Thread} {v}, u ∈ s.threads.set t th' → u = .store v → th' ≠ .store v →
        v = s.shared_var := by
      intro th' u v hu hv hne
      rcases List.mem_or_eq_of_mem_set hu with hu | rfl
      · exact hs.loaded u hu v hv
      · exact absurd hv hne
    -- whoever is inside is alone there
    have halone : th.inside = true → ∀ u ∈ s.threads.eraseIdx t, u.inside = false := by
      intro hin
      have hle : s.threads.countP Thread.inside ≤ 1 :=
        Nat.le_trans (Nat.le_trans (Nat.le_add_right _ _) (Nat.le_of_eq hheld)) hone
      exact eq_false_of_countP_le_one hth hle hin
    rcases hcase with ⟨rfl, hsem, heq⟩ | ⟨rfl, rfl⟩ | ⟨v, rfl, rfl⟩ | ⟨rfl, rfl⟩ | ⟨rfl, rfl⟩
    · have hset := hcount .load
      rw [heq]
      exact ⟨hs.shared.trans (by rw [Nat.add_right_cancel hset]),
        fun u hu v hv => hother hu hv nofun, hs.printed⟩
    · have hset := hcount (.store s.shared_var)
      refine ⟨hs.shared.trans (by rw [Nat.add_right_cancel hset]), fun u hu v hv => ?_, hs.printed⟩
      rcases List.mem_or_eq_of_mem_set hu with hu | rfl
      · exact hs.loaded u hu v hv
      · exact (Thread.store.inj hv).symm
    · have hset := hcount .print
      have hv : v = s.shared_var := hs.loaded _ (List.mem_of_getElem? hth) v rfl
      refine ⟨?_, fun u hu v' hv' => ?_, hs.printed⟩
      · have hset : (s.threads.set t .print).countP (· = .print) =
            s.threads.countP (· = .print) + 1 := by
          simpa using hset
        dsimp only
        rw [hset, hv, hs.shared, ← Nat.add_assoc, BitVec.ofNat_add _ 1]
        rfl
      · rcases eq_or_mem_of_mem_set hu with rfl | hu
        · nomatch hv'
        · have hout := halone rfl u hu
          rw [hv'] at hout
          nomatch hout
    · have hle : s.threads.countP (· = .print) ≤ 1 := by
        refine Nat.le_trans (List.countP_mono_left fun u _ hu => ?_)
          (Nat.le_trans (Nat.le_add_right _ s.sem)
          (Nat.le_trans (Nat.le_of_eq hheld) hone))
        rw [of_decide_eq_true hu]
        rfl
      have hpos : 0 < s.threads.countP (· = .print) :=
        List.countP_pos_iff.2 ⟨_, List.mem_of_getElem? hth, rfl⟩
      have hset : (s.threads.set t .unlock).countP (· = .print) + 1 =
          s.threads.countP (· = .print) := by
        simpa using hcount .unlock
      have hshared : s.shared_var = BitVec.ofNat 32 (s.printed.length + 1) := by
        rw [hs.shared]
        congr 2
        omega
      refine ⟨?_, fun u hu v hv => hother hu hv nofun, ?_⟩
      · dsimp only
        rw [hshared, List.length_append, List.length_singleton]
        congr 1
        omega
      · rw [List.length_append, List.length_singleton, upTo_succ, ← hs.printed, ← hshared]
    · have hset := hcount .test
      exact ⟨hs.shared.trans (by rw [Nat.add_right_cancel hset]),
        fun u hu v hv => hother hu hv nofun, hs.printed⟩

theorem Counting.start (w : Lock) (n : Nat) : Counting (start w n) := by
  refine ⟨?_, fun u hu v hv => ?_, rfl⟩
  · rw [Workers.start, List.countP_replicate]
    rfl
  · rw [List.eq_of_mem_replicate hu] at hv
    nomatch hv

/-- Two threads that the lock lets in together print the same number. -/
theorem printed_twice (k m : Nat) (interruptible : Bool) : ∃ s,
    run (step ⟨k + 2, interruptible⟩) (start ⟨k + 2, interruptible⟩ (m + 2))
      ([0, 0, 0, 1, 1, 1, 0, 0, 1, 1].map .thread) = some s ∧ s.printed = [1, 1] := ⟨_, rfl, rfl⟩

/-- With two workers or more, all runs print 1, 2, 3 and so on exactly when the lock lets in one
thread at most. -/
theorem printed_in_order_iff (w : Lock) (n : Nat) (hn : 2 ≤ n) :
    (∀ as s, run (step w) (start w n) as = some s → s.printed = upTo s.printed.length) ↔
      w.count ≤ 1 := by
  constructor
  · intro h
    by_contra hlt
    obtain ⟨count, interruptible⟩ := w
    obtain ⟨k, rfl⟩ := Nat.exists_eq_add_of_le' (Nat.lt_of_not_le hlt)
    obtain ⟨m, rfl⟩ := Nat.exists_eq_add_of_le' hn
    obtain ⟨s, hs, hprinted⟩ := printed_twice k m interruptible
    have horder := h _ s hs
    rw [hprinted] at horder
    exact absurd horder (by decide)
  · intro hone as s h
    have hinv := run_inv_of_step (I := fun s => Held w s ∧ Counting s)
      (fun hs h => ⟨hs.1.step h, hs.2.step hs.1 hone h⟩) ⟨Held.start w n, Counting.start w n⟩ h
    exact hinv.2.printed

/-- The five threads of `kthread_csem.c`. -/
theorem printed_in_order_csem : kthread_csem.count = 1 ∧
    ∀ as s, run (step kthread_csem) (start kthread_csem 5) as = some s →
      s.printed = upTo s.printed.length :=
  ⟨rfl, (printed_in_order_iff kthread_csem 5 (by decide)).2 Nat.le.refl⟩

end LinuxKernelProg.Sync.Workers
