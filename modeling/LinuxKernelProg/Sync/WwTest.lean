import LinuxKernelProg.Lib.Run

/-!
# Two wound/wait mutexes

`kthread_wwtest.c`: a thread takes `obj1_lock` and then `obj2_lock`, and backs off if the second
lock is a deadlock. It forgets one answer: if the first attempt at `obj2_lock` is interrupted,
`obj1_lock` stays locked, and every later attempt at it is refused. Without that answer the locks
are handled as they should (`locks_iff`).
-/

namespace LinuxKernelProg.Sync.WwTest

open LinuxKernelProg.Lib

/-! ## The program -/

inductive Lock where
  | obj1_lock
  | obj2_lock
  deriving DecidableEq

def first : Lock := .obj1_lock
def second : Lock := .obj2_lock

/-- What the calls that take a lock return. -/
inductive Ret where
  | ok
  | EDEADLK
  | EINTR
  | EALREADY
  deriving DecidableEq

/-- The locks that a context holds. -/
structure Held where
  obj1 : Bool
  obj2 : Bool
  deriving DecidableEq

def Held.has (h : Held) : Lock → Bool
  | .obj1_lock => h.obj1
  | .obj2_lock => h.obj2

def Held.set (h : Held) (holds : Bool) : Lock → Held
  | .obj1_lock => { h with obj1 := holds }
  | .obj2_lock => { h with obj2 := holds }

/-- What may be returned for a lock: a lock that is held already is refused, and for another one the
context can only back off if it has something to give up. -/
def Held.allows (h : Held) (l : Lock) : Ret → Bool
  | .ok | .EINTR => !h.has l
  | .EDEADLK => !h.has l && (h.obj1 || h.obj2)
  | .EALREADY => h.has l

def Held.lock (h : Held) (l : Lock) (r : Ret) : Held := if r = .ok then h.set true l else h

/-- Where `ww_thread_fn` is, by the statement that comes next. -/
inductive Pc where
  /-- The head of the loop. -/
  | loop
  | lock_first
  | lock_second
  /-- `-EDEADLK` for the second one: the first one is given up, and both are taken in the other
  order. -/
  | backoff
  | slow_second
  | slow_first
  | unlock_only_second
  /-- "Acquired both locks." -/
  | section
  | unlock_second
  | unlock_first
  | sleep
  | done
  deriving DecidableEq

structure State where
  pc : Pc
  held : Held
  deriving DecidableEq

inductive Action where
  /-- The test of the loop: whether it goes on. -/
  | test (on : Bool)
  /-- The call that takes a lock returns. -/
  | returns (r : Ret)
  /-- Any other statement. -/
  | next
  deriving DecidableEq

/-- A call of `ww_mutex_lock_interruptible` or of its slow version. -/
def State.attempt (s : State) (l : Lock) (r : Ret) (pc : Ret → Pc) : Option State :=
  if s.held.allows l r then some ⟨pc r, s.held.lock l r⟩ else none

def State.ww_mutex_unlock (s : State) (l : Lock) (pc : Pc) : State := ⟨pc, s.held.set false l⟩

def State.step (s : State) (a : Action) : Option State :=
  match s.pc, a with
  | .loop, .test on => some { s with pc := if on then .lock_first else .done }
  | .lock_first, .returns r => s.attempt first r fun r => if r = .ok then .lock_second else .sleep
  | .lock_second, .returns r =>
    s.attempt second r fun
      | .ok => .section
      | .EDEADLK => .backoff
      | _ => .sleep
  | .backoff, .next => some (s.ww_mutex_unlock first .slow_second)
  | .slow_second, .returns r => s.attempt second r fun r => if r = .ok then .slow_first else .sleep
  | .slow_first, .returns r =>
    s.attempt first r fun r => if r = .ok then .section else .unlock_only_second
  | .unlock_only_second, .next => some (s.ww_mutex_unlock second .sleep)
  | .section, .next => some { s with pc := .unlock_second }
  | .unlock_second, .next => some (s.ww_mutex_unlock second .unlock_first)
  | .unlock_first, .next => some (s.ww_mutex_unlock first .sleep)
  | .sleep, .next => some { s with pc := .loop }
  | _, _ => none

def State.init : State := ⟨.loop, ⟨false, false⟩⟩

/-- The lock that the next statement gives up. -/
def Pc.unlocks : Pc → Option Lock
  | .backoff | .unlock_first => some first
  | .unlock_only_second | .unlock_second => some second
  | _ => none

/-- **What the locks promise**: no lock is held between two iterations, a lock that is given up is
held, and so are both in the section. -/
structure Safe (s : State) : Prop where
  boundary : s.pc = .loop → s.held = ⟨false, false⟩
  unlock : ∀ l, s.pc.unlocks = some l → s.held.has l
  section_ : s.pc = .section → s.held = ⟨true, true⟩

/-- The first attempt at the second lock is not interrupted. -/
def Uninterrupted (s : State) (a : Action) : Prop := s.pc = .lock_second → a ≠ .returns .EINTR

instance (s : State) (a : Action) : Decidable (Uninterrupted s a) :=
  inferInstanceAs (Decidable (_ → _))

/-! ## What is held where -/

/-- The locks that are held at a statement. -/
def Pc.held : Pc → Held
  | .lock_second | .backoff | .unlock_first => ⟨true, false⟩
  | .slow_first | .unlock_only_second => ⟨false, true⟩
  | .section | .unlock_second => ⟨true, true⟩
  | .loop | .lock_first | .slow_second | .sleep | .done => ⟨false, false⟩

def Inv (s : State) : Prop := s.held = s.pc.held

variable {s t : State} {a : Action} {as : List Action}

theorem attempt_some {l : Lock} {r : Ret} {pc : Ret → Pc} (h : s.attempt l r pc = some t) :
    s.held.allows l r ∧ t = ⟨pc r, s.held.lock l r⟩ := by
  unfold State.attempt at h
  split at h
  · next hallows => exact ⟨hallows, (Option.some.inj h).symm⟩
  · nomatch h

theorem Inv.safe (h : Inv s) : Safe s := by
  obtain ⟨pc, held⟩ := s
  obtain rfl : held = pc.held := h
  constructor
  · rintro rfl
    rfl
  · intro l hl
    cases pc <;> cases hl <;> rfl
  · rintro rfl
    rfl

/-- What each statement changes is what the next one expects. -/
theorem step_inv (hs : Inv s) (hC : Uninterrupted s a) (h : s.step a = some t) : Inv t := by
  obtain ⟨pc, held⟩ := s
  obtain rfl : held = pc.held := hs
  cases pc <;> cases a <;> simp only [State.step, reduceCtorEq] at h
  case lock_second.returns r =>
    obtain ⟨hallows, rfl⟩ := attempt_some h
    cases r with
    | ok => rfl
    | EDEADLK => rfl
    | EINTR => exact absurd rfl (hC rfl)
    | EALREADY => nomatch hallows
  case loop.test on =>
    cases h
    cases on <;> rfl
  case lock_first.returns r | slow_second.returns r | slow_first.returns r =>
    obtain ⟨-, rfl⟩ := attempt_some h
    cases r <;> rfl
  all_goals
    cases h
    rfl

theorem inv_init : Inv .init := rfl

theorem inv_of_run (hC : Along State.step Uninterrupted .init as)
    (h : run State.step .init as = some s) : Inv s :=
  run_inv step_inv inv_init hC h

/-! ## The answer that is forgotten -/

/-- The attempt is over and the thread sleeps, but the first lock is still held. -/
theorem step_interrupted (hs : Inv s) (hC : ¬ Uninterrupted s a) (h : s.step a = some t) :
    t = ⟨.sleep, ⟨true, false⟩⟩ := by
  obtain ⟨pc, held⟩ := s
  obtain rfl : held = pc.held := hs
  simp only [Uninterrupted, not_forall, not_not] at hC
  obtain ⟨rfl, rfl⟩ := hC
  cases h
  rfl

/-- The next iteration starts with it. -/
theorem unsafe_of_sleep (h : State.step ⟨.sleep, ⟨true, false⟩⟩ a = some t) : ¬ Safe t := by
  intro hsafe
  cases a <;> simp only [State.step, Option.some.injEq, reduceCtorEq] at h
  subst h
  exact absurd (hsafe.boundary rfl) (by decide)

theorem along_of_safe (hend : s.pc = .loop) (h : run State.step .init as = some s)
    (hsafe : ∀ i u, run State.step .init (as.take i) = some u → Safe u) :
    Along State.step Uninterrupted .init as := by
  -- the steps so far have met the condition, so what is held there is known
  have htake : ∀ k, Along State.step Uninterrupted .init (as.take k) := by
    intro k
    induction k with
    | zero => trivial
    | succ k ih =>
      cases ha : as[k]? with
      | none =>
        have hlen : as.length ≤ k := List.getElem?_eq_none_iff.1 ha
        rw [List.take_of_length_le (by omega)]
        rwa [List.take_of_length_le hlen] at ih
      | some a =>
        rw [List.take_add_one, ha, Option.toList_some, Along.snoc]
        refine ⟨ih, fun u hu => ?_⟩
        by_contra hC
        obtain ⟨u', t, hu', hstep, ht, hrest⟩ := run_getElem? h ha
        obtain rfl : u' = u := Option.some.inj (hu'.symm.trans hu)
        obtain rfl := step_interrupted (inv_of_run ih hu) hC hstep
        cases hb : as[k + 1]? with
        | none =>
          rw [List.drop_eq_nil_of_le (List.getElem?_eq_none_iff.1 hb)] at hrest
          cases hrest
          nomatch hend
        | some b =>
          obtain ⟨v, w, hv, hnext, hw, -⟩ := run_getElem? h hb
          obtain rfl := Option.some.inj (hv.symm.trans ht)
          exact unsafe_of_sleep hnext (hsafe _ w hw)
  simpa using htake as.length

/-- **The two locks.** As long as the first attempt at the second lock is not interrupted, they are
handled as they should, and an iteration in which it is interrupted ends with the first lock
held. -/
theorem locks_iff (as : List Action) (h : run State.step .init as = some s) :
    (Along State.step Uninterrupted .init as → Safe s) ∧
    (s.pc = .loop →
      ((∀ i u, run State.step .init (as.take i) = some u → Safe u) ↔
        Along State.step Uninterrupted .init as)) := by
  constructor
  · exact fun hC => (inv_of_run hC h).safe
  · intro hend
    constructor
    · exact along_of_safe hend h
    · intro hC i u hu
      exact (inv_of_run (hC.take i) hu).safe

/-- The thread backs off, and takes the locks in the other order. -/
theorem locks_iff_backoff : Safe ⟨.section, ⟨true, true⟩⟩ :=
  (locks_iff [.test true, .returns .ok, .returns .EDEADLK, .next, .returns .ok, .returns .ok]
    rfl).1 (by decide)

/-- A signal at the first attempt at the second lock. -/
theorem interrupted_keeps_first :
    ¬ ∀ as s, run State.step .init as = some s → Safe s := by
  intro h
  have hsafe := h [.test true, .returns .ok, .returns .EINTR, .next] ⟨.loop, ⟨true, false⟩⟩ rfl
  exact absurd (hsafe.boundary rfl) (by decide)

end LinuxKernelProg.Sync.WwTest
