import Mathlib.Data.BitVec
import LinuxKernelProg.Lib.Run

/-!
# An object that the unload frees

`kthread_semlck.c`, `kthread_spin.c` and `kthread_compl.c`: the init function allocates an object
and starts a reader and a writer, and the exit function frees the object. It does not stop the
threads, nor wait for them, so they must be through with the object by then. Each step of a thread
is one access to what is shared; touching the object when it is freed is a fault. The log lines are
left out, but for what they load.
-/

namespace LinuxKernelProg.Sync.UnloadFree

open LinuxKernelProg.Lib

/-! ## The program -/

/-- What is allocated: the data with its lock, or the completion. -/
structure Object where
  a : BitVec 32
  b : BitVec 32
  lock : Bool
  /-- `complete_all` was called. -/
  done : Bool
  deriving DecidableEq

structure Shared where
  /-- The object, until it is freed. -/
  heap : Option Object
  /-- The pointer is not NULL. -/
  p : Bool
  sem : Nat
  counter : BitVec 32
  /-- Whoever sleeps for the completion has been woken. -/
  woken : Bool
  oops : Bool
  deriving DecidableEq

def Shared.init : Shared := ⟨some ⟨0, 0, false, false⟩, true, 1, 0, false, false⟩

/-- A statement of a thread function. -/
inductive Instr where
  /-- `if (!p) return -EINVAL` -/
  | test
  /-- `down_interruptible(&sem)`, and `return -EINTR` if it fails. -/
  | down
  /-- `up(&sem)` -/
  | up
  | ssleep
  /-- `spin_lock(&p->lock)` -/
  | spin_lock
  | spin_unlock
  /-- `p->a`, to be printed. -/
  | load_a
  | load_b
  /-- `p->a = 10` -/
  | store_a
  /-- `p->b = 20` -/
  | store_b
  /-- `while (counter != 1234) counter++` -/
  | count
  | complete_all
  | wait_for_completion
  /-- It sleeps in `wait_for_completion`. -/
  | asleep
  /-- It prints `counter`. -/
  | print
  deriving DecidableEq

/-- The statement is an access to the object. -/
def Instr.touches : Instr → Bool
  | .spin_lock | .spin_unlock | .load_a | .load_b | .store_a | .store_b | .complete_all
  | .wait_for_completion | .asleep => true
  | .test | .down | .up | .ssleep | .count | .print => false

/-- An access to the object, with the statements behind it: what is left to be done. -/
def Object.access (o : Object) (rest : List Instr) : Instr → Object × List Instr
  | .spin_lock => if o.lock then (o, .spin_lock :: rest) else ({ o with lock := true }, rest)
  | .spin_unlock => ({ o with lock := false }, rest)
  | .store_a => ({ o with a := 10 }, rest)
  | .store_b => ({ o with b := 20 }, rest)
  | .complete_all => ({ o with done := true }, rest)
  | .wait_for_completion => (o, if o.done then rest else .asleep :: rest)
  | _ => (o, rest)

/-- A step of a thread, with the statements that are left to it; `signal` says whether a signal ends
its `down_interruptible`. -/
def step_thread (sh : Shared) (signal : Bool) : List Instr → Option (Shared × List Instr)
  | [] => none
  | .test :: rest => some (sh, if sh.p then rest else [])
  | .down :: rest =>
    if signal then some (sh, [])
    else if sh.sem = 0 then none
    else some ({ sh with sem := sh.sem - 1 }, rest)
  | .up :: rest => some ({ sh with sem := sh.sem + 1 }, rest)
  | .ssleep :: rest => some (sh, rest)
  | .count :: rest =>
    if sh.counter = 1234 then some (sh, rest)
    else some ({ sh with counter := sh.counter + 1 }, .count :: rest)
  | .print :: rest => some (sh, rest)
  | i :: rest =>
    if i = .asleep ∧ sh.woken = false then none
    else
      match sh.heap with
      | some o =>
        let (o, rest) := o.access rest i
        some ({ sh with heap := some o, woken := sh.woken || i = .complete_all }, rest)
      | none => some ({ sh with oops := true }, i :: rest)

inductive Module where
  | kthread_semlck
  | kthread_spin
  | kthread_compl

inductive Role where
  | reader
  | writer
  deriving DecidableEq

/-- The thread functions: `kthr_reader`, `kthr_writer`, `read_function` and `writer_function`. -/
def Module.code : Module → Role → List Instr
  | kthread_semlck, .reader => [.test, .down, .load_a, .load_b, .up]
  | kthread_semlck, .writer => [.test, .down, .store_a, .ssleep, .store_b, .up]
  | kthread_spin, .reader => [.spin_lock, .load_a, .load_b, .spin_unlock]
  | kthread_spin, .writer => [.spin_lock, .store_a, .store_b, .spin_unlock]
  | kthread_compl, .reader => [.wait_for_completion, .print]
  | kthread_compl, .writer => [.count, .complete_all]

/-- A module that has been loaded, with the statements that are left to its threads. -/
structure Sys extends Shared where
  reader : List Instr
  writer : List Instr
  deriving DecidableEq

inductive Action where
  | thread (r : Role) (signal : Bool)
  /-- `kthr_exit` or `my_mod_exit`: `kfree`. -/
  | exit
  deriving DecidableEq

namespace Sys

def init (m : Module) : Sys := ⟨.init, m.code .reader, m.code .writer⟩

def code (s : Sys) : Role → List Instr
  | .reader => s.reader
  | .writer => s.writer

def setCode (s : Sys) (code : List Instr) : Role → Sys
  | .reader => { s with reader := code }
  | .writer => { s with writer := code }

def step (s : Sys) : Action → Option Sys
  | .thread r signal => do
    let (sh, code) ← step_thread s.toShared signal (s.code r)
    some ({ s with toShared := sh }.setCode code r)
  | .exit => s.heap.map fun _ => { s with heap := none }

/-- Neither thread has an access to the object left. -/
def through (s : Sys) : Bool := s.reader.all (!·.touches) && s.writer.all (!·.touches)

end Sys

/-! ## Through with the object -/

variable {sh sh' : Shared} {c c' : List Instr} {signal : Bool} {s t : Sys} {m : Module}

/-- A step of a thread that touches the object: it works on the object, or it is a fault. -/
theorem step_touching {i : Instr} (hi : i.touches = true)
    (h : step_thread sh signal (i :: c) = some (sh', c')) :
    (∃ o, sh.heap = some o ∧ c' = (o.access c i).2 ∧ sh' = { sh with
        heap := some (o.access c i).1, woken := sh.woken || i = .complete_all }) ∨
      (sh.heap = none ∧ c' = i :: c ∧ sh' = { sh with oops := true }) := by
  cases hheap : sh.heap with
  | some o =>
    refine .inl ⟨o, rfl, ?_⟩
    cases i <;> cases hi
    all_goals
      simp only [step_thread, hheap] at h
      split at h
      · cases h
      · cases h
        exact ⟨rfl, rfl⟩
  | none =>
    refine .inr ⟨rfl, ?_⟩
    cases i <;> cases hi
    all_goals
      simp only [step_thread, hheap] at h
      split at h
      · cases h
      · cases h
        exact ⟨rfl, rfl⟩

/-- Any other step leaves the object alone. -/
theorem step_other {i : Instr} (hi : i.touches = false)
    (h : step_thread sh signal (i :: c) = some (sh', c')) :
    sh'.heap = sh.heap ∧ sh'.oops = sh.oops ∧ (c' = c ∨ c' = [] ∨ c' = i :: c) := by
  cases i <;> cases hi
  case test =>
    cases h
    cases sh.p <;> simp
  case down =>
    simp only [step_thread] at h
    split at h
    · cases h
      simp
    · split at h <;> cases h
      simp
  case count =>
    simp only [step_thread] at h
    split at h <;> cases h <;> simp
  all_goals
    cases h
    simp

@[simp] theorem Sys.code_setCode (s : Sys) (c : List Instr) (r q : Role) :
    (s.setCode c r).code q = if q = r then c else s.code q := by
  cases r <;> cases q <;> rfl

@[simp] theorem Sys.setCode_toShared (s : Sys) (c : List Instr) (r : Role) :
    (s.setCode c r).toShared = s.toShared := by
  cases r <;> rfl

theorem Sys.through_iff : s.through = true ↔ ∀ r, ∀ i ∈ s.code r, i.touches = false := by
  rw [through, Bool.and_eq_true, List.all_eq_true, List.all_eq_true]
  constructor
  · rintro ⟨hreader, hwriter⟩ r i hi
    cases r with
    | reader => simpa using hreader i hi
    | writer => simpa using hwriter i hi
  · exact fun h => ⟨fun i hi => by simp [h .reader i hi], fun i hi => by simp [h .writer i hi]⟩

theorem step_thread_eq {r : Role} (h : s.step (.thread r signal) = some t) : ∃ sh c,
    step_thread s.toShared signal (s.code r) = some (sh, c) ∧
      t = { s with toShared := sh }.setCode c r := by
  obtain ⟨⟨sh, c⟩, hstep, h⟩ := Option.bind_eq_some_iff.1 h
  cases h
  exact ⟨sh, c, hstep, rfl⟩

theorem step_thread_cases {r : Role} (h : s.step (.thread r signal) = some t) : ∃ sh c,
    step_thread s.toShared signal (s.code r) = some (sh, c) ∧ t.toShared = sh ∧
      ∀ q, t.code q = if q = r then c else s.code q := by
  obtain ⟨sh, c, hstep, rfl⟩ := step_thread_eq h
  refine ⟨sh, c, hstep, Sys.setCode_toShared .., fun q => ?_⟩
  rw [Sys.code_setCode]
  cases q <;> rfl

theorem step_exit {s' : Sys} (h : s.step .exit = some s') :
    s.heap ≠ none ∧ s' = { s with heap := none } := by
  obtain ⟨o, ho, rfl⟩ := Option.map_eq_some_iff.1 h
  exact ⟨by rw [ho]; nofun, rfl⟩

/-- The object is freed, nobody has touched it since, and nobody is going to. -/
structure Over (s : Sys) : Prop where
  freed : s.heap = none
  no_oops : s.oops = false
  through : ∀ r, ∀ i ∈ s.code r, i.touches = false

theorem Over.step {a : Action} (hs : Over s) (h : s.step a = some t) : Over t := by
  cases a with
  | exit => exact absurd hs.freed (step_exit h).1
  | thread r signal =>
    obtain ⟨sh, c, hstep, hsh, hcode⟩ := step_thread_cases h
    cases hr : s.code r with
    | nil =>
      rw [hr] at hstep
      cases hstep
    | cons i rest =>
      rw [hr] at hstep
      have hthrough := hs.through r
      rw [hr, List.forall_mem_cons] at hthrough
      obtain ⟨hheap, hoops, hc⟩ := step_other hthrough.1 hstep
      refine ⟨?_, ?_, fun q => ?_⟩
      · rw [hsh, hheap, hs.freed]
      · rw [hsh, hoops, hs.no_oops]
      · rw [hcode]
        split
        · rcases hc with rfl | rfl | rfl
          · exact hthrough.2
          · nofun
          · exact List.forall_mem_cons.2 hthrough
        · exact hs.through q

/-- As long as the object is there, nothing goes wrong. -/
theorem no_oops_step {a : Action} (hs : s.heap ≠ none → s.oops = false) (h : s.step a = some t) :
    t.heap ≠ none → t.oops = false := by
  cases a with
  | exit =>
    obtain ⟨-, rfl⟩ := step_exit h
    exact fun hheap => absurd rfl hheap
  | thread r signal =>
    obtain ⟨sh, c, hstep, hsh, -⟩ := step_thread_cases h
    rw [hsh]
    cases hr : s.code r with
    | nil =>
      rw [hr] at hstep
      cases hstep
    | cons i rest =>
      rw [hr] at hstep
      cases hi : i.touches with
      | true =>
        rcases step_touching hi hstep with ⟨o, ho, -, rfl⟩ | ⟨hheap, -, rfl⟩
        · exact fun _ => hs (by rw [ho]; nofun)
        · exact fun hne => absurd hheap hne
      | false =>
        obtain ⟨hheap, hoops, -⟩ := step_other hi hstep
        rw [hheap, hoops]
        exact hs

theorem no_oops_of_run {as : List Action} (h : run Sys.step (.init m) as = some s)
    (hheap : s.heap ≠ none) :
    s.oops = false :=
  run_inv_of_step (I := fun s => s.heap ≠ none → s.oops = false) no_oops_step (fun _ => rfl) h hheap

theorem untouched_of_through {as bs : List Action} {s' : Sys}
    (h : run Sys.step (.init m) as = some s) (hexit : s.step .exit = some s')
    (hthrough : s.through = true) (ht : run Sys.step s' bs = some t) :
    t.oops = false := by
  obtain ⟨hheap, rfl⟩ := step_exit hexit
  have hoops := no_oops_of_run h hheap
  have hover : Over { s with heap := none } := ⟨rfl, hoops, Sys.through_iff.1 hthrough⟩
  exact (run_inv_of_step (I := Over) Over.step hover ht).no_oops

/-! ## Not through with it -/

/-- With so many permits, and with the sleepers woken or not, a thread that has this left to do
comes to an access to the object by itself. -/
def comes (sem : Nat) (woken : Bool) : List Instr → Bool
  | [] => false
  | .test :: rest => comes sem woken rest
  | .down :: rest => decide (0 < sem) && comes (sem - 1) woken rest
  | .up :: rest => comes (sem + 1) woken rest
  | .ssleep :: rest => comes sem woken rest
  | .count :: rest => comes sem woken rest
  | .print :: rest => comes sem woken rest
  | .asleep :: _ => woken
  | _ :: _ => true

/-- From here on the object may be touched. -/
def Fails (s : Sys) : Prop := ∃ bs t, run Sys.step s bs = some t ∧ t.oops = true

theorem Fails.of_step {a : Action} (h : s.step a = some t) (ht : Fails t) : Fails s := by
  obtain ⟨bs, u, hrun, hu⟩ := ht
  exact ⟨a :: bs, u, run_cons.2 ⟨t, h, hrun⟩, hu⟩

theorem step_of_thread {r : Role} (sh : Shared) (c : List Instr)
    (h : step_thread s.toShared signal (s.code r) = some (sh, c)) :
    s.step (.thread r signal) = some ({ s with toShared := sh }.setCode c r) := by
  rw [Sys.step, h]
  rfl

/-- The loop of the writer ends. -/
theorem fails_of_count {r : Role} {rest : List Instr} (n : Nat) :
    ∀ {s : Sys}, s.code r = .count :: rest →
    (1234 - s.counter).toNat = n →
      (∀ u : Sys, u.code r = rest → u.heap = s.heap → u.p = s.p → u.sem = s.sem →
      u.woken = s.woken → Fails u) → Fails s := by
  induction n with
  | zero =>
    intro s hr hn hrest
    have hcounter : s.counter = 1234 := (sub_eq_zero.1 (BitVec.eq_of_toNat_eq hn)).symm
    refine Fails.of_step (a := .thread r false) (step_of_thread s.toShared rest ?_)
      (hrest _ ?_ ?_ ?_ ?_ ?_)
    · rw [hr, step_thread, if_pos hcounter]
    · rw [Sys.code_setCode, if_pos rfl]
    all_goals rw [Sys.setCode_toShared]
  | succ n ih =>
    intro s hr hn hrest
    have hcounter : s.counter ≠ 1234 := by
      intro h
      rw [h, BitVec.sub_self] at hn
      cases hn
    refine Fails.of_step (a := .thread r false)
      (step_of_thread { s.toShared with counter := s.counter + 1 } (.count :: rest) ?_)
      (ih ?_ ?_ fun u hu hheap hp hsem hwoken => hrest u hu ?_ ?_ ?_ ?_)
    · rw [hr, step_thread, if_neg hcounter]
    · rw [Sys.code_setCode, if_pos rfl]
    · rw [Sys.setCode_toShared]
      have hlt := s.counter.isLt
      have hone : (1 : BitVec 32).toNat = 1 := rfl
      have hend : (1234 : BitVec 32).toNat = 1234 := rfl
      rw [BitVec.toNat_sub, hend] at hn
      rw [BitVec.toNat_sub, BitVec.toNat_add, hend, hone]
      omega
    · rw [hheap, Sys.setCode_toShared]
    · rw [hp, Sys.setCode_toShared]
    · rw [hsem, Sys.setCode_toShared]
    · rw [hwoken, Sys.setCode_toShared]

theorem fails_of_comes {r : Role} (c : List Instr) :
    ∀ {s : Sys}, s.code r = c → s.heap = none → s.p = true →
    comes s.sem s.woken c = true → Fails s := by
  induction c with
  | nil => exact fun _ _ _ h => by cases h
  | cons i rest ih =>
    intro s hr hheap hp hcomes
    have hnext : ∀ sh, step_thread s.toShared false (i :: rest) = some (sh, rest) →
        sh.heap = none → sh.p = true →
          comes sh.sem sh.woken rest = true → Fails s := by
      intro sh hstep hheap hp hcomes
      refine Fails.of_step (step_of_thread sh rest (hr ▸ hstep)) (ih ?_ ?_ ?_ ?_)
      · rw [Sys.code_setCode, if_pos rfl]
      all_goals rw [Sys.setCode_toShared]; assumption
    cases hi : i.touches with
    | true =>
      -- the access itself is the fault
      refine ⟨[.thread r false], _, run_cons.2 ⟨_, step_of_thread { s.toShared with oops := true }
        (i :: rest) ?_, rfl⟩, ?_⟩
      · rw [hr]
        cases i <;> cases hi <;> simp only [step_thread, hheap] <;> rw [if_neg]
        case asleep.refl.hnc =>
          rintro ⟨-, hwoken⟩
          rw [hwoken] at hcomes
          cases hcomes
        all_goals
          rintro ⟨h, -⟩
          cases h
      · rw [Sys.setCode_toShared]
    | false =>
      cases i <;> cases hi
      case test.refl =>
        refine hnext s.toShared ?_ hheap hp hcomes
        rw [step_thread, hp]
        rfl
      case down.refl =>
        obtain ⟨hsem, hcomes⟩ := Bool.and_eq_true_iff.1 hcomes
        refine hnext { s.toShared with sem := s.sem - 1 } ?_ hheap hp hcomes
        rw [step_thread, if_neg Bool.false_ne_true,
          if_neg (Nat.pos_iff_ne_zero.1 (of_decide_eq_true hsem))]
      case count.refl =>
        refine fails_of_count _ hr rfl fun u hu huheap hup husem huwoken =>
          ih hu (huheap.trans hheap) (hup.trans hp) ?_
        rw [husem, huwoken]
        exact hcomes
      case up.refl => exact hnext { s.toShared with sem := s.sem + 1 } rfl hheap hp hcomes
      all_goals exact hnext s.toShared rfl hheap hp hcomes

/-- Between `down` and `up`. -/
def held (c : List Instr) : Nat := (c.contains .up && !c.contains .down).toNat

/-- What is left to the threads while the object is there. -/
def Inv : Module → Sys → Prop
  | .kthread_semlck, s => s.p = true ∧ s.reader ∈ (Module.kthread_semlck.code .reader).tails ∧
      s.writer ∈ (Module.kthread_semlck.code .writer).tails ∧
        s.sem + held s.reader + held s.writer = 1
  | .kthread_spin, s => s.p = true ∧ s.reader ∈ (Module.kthread_spin.code .reader).tails ∧
      s.writer ∈ (Module.kthread_spin.code .writer).tails
  | .kthread_compl, s => s.p = true ∧
      (s.reader ∈ (Module.kthread_compl.code .reader).tails ∨
        s.reader = [.asleep, .print] ∧ (s.woken = true ∨ .complete_all ∈ s.writer)) ∧
      s.writer ∈ (Module.kthread_compl.code .writer).tails ∧
      ∀ o, s.heap = some o → o.done = false → .complete_all ∈ s.writer

theorem Inv.init (m : Module) : Inv m (.init m) := by
  cases m
  · exact ⟨rfl, by decide, by decide, rfl⟩
  · exact ⟨rfl, by decide, by decide⟩
  · exact ⟨rfl, .inl (by decide), by decide, fun _ _ _ => by decide⟩

/-- An access to the object moves on, unless it is to a lock that is held or to one that is gone. -/
theorem access_left {i : Instr} (hi : i.touches = true) (hwait : i ≠ .wait_for_completion)
    (h : step_thread sh signal (i :: c) = some (sh', c')) :
    sh'.p = sh.p ∧ sh'.sem = sh.sem ∧ (c' = c ∨ c' = i :: c) := by
  rcases step_touching hi h with ⟨o, -, rfl, rfl⟩ | ⟨-, rfl, rfl⟩
  · refine ⟨rfl, rfl, ?_⟩
    cases i
    case spin_lock =>
      simp only [Object.access]
      split
      · exact .inr rfl
      · exact .inl rfl
    case wait_for_completion => exact absurd rfl hwait
    all_goals exact .inl rfl
  · exact ⟨rfl, rfl, .inr rfl⟩

/-- `down` gets the semaphore, or a signal ends the thread. -/
theorem down_held {rest : List Instr} (h : step_thread sh signal (.down :: rest) = some (sh', c'))
    (hrest : held rest = 1) (hdown : held (.down :: rest) = 0) :
    (c' = rest ∨ c' = []) ∧ sh'.p = sh.p ∧ sh'.sem + held c' = sh.sem + held (.down :: rest) := by
  simp only [step_thread] at h
  split at h
  · cases h
    rw [hdown]
    exact ⟨.inr rfl, rfl, rfl⟩
  · split at h <;> cases h
    refine ⟨.inl rfl, rfl, ?_⟩
    change sh.sem - 1 + held c' = _
    rw [hrest, hdown]
    omega

theorem access_held {i : Instr} {rest : List Instr} (hi : i.touches = true)
    (hwait : i ≠ .wait_for_completion) (h : step_thread sh signal (i :: rest) = some (sh', c'))
    (hheld : held rest = held (i :: rest)) :
    (c' = rest ∨ c' = i :: rest) ∧ sh'.p = sh.p ∧
      sh'.sem + held c' = sh.sem + held (i :: rest) := by
  obtain ⟨hp, hsem, hc⟩ := access_left hi hwait h
  refine ⟨hc, hp, ?_⟩
  rcases hc with rfl | rfl
  · rw [hsem, hheld]
  · rw [hsem]

/-- A step of a thread of `kthread_semlck.c`, on either side. -/
theorem semlck_step {r : Role} (hc : c ∈ (Module.kthread_semlck.code r).tails) (hp : sh.p = true)
    (h : step_thread sh signal c = some (sh', c')) :
    c' ∈ (Module.kthread_semlck.code r).tails ∧ sh'.p = true ∧
      sh'.sem + held c' = sh.sem + held c := by
  have htails : ∀ {d e : List Instr}, (c' = d ∨ c' = e) ∧ sh'.p = sh.p ∧
      sh'.sem + held c' = sh.sem + held c →
        d ∈ (Module.kthread_semlck.code r).tails → e ∈ (Module.kthread_semlck.code r).tails →
        c' ∈ (Module.kthread_semlck.code r).tails ∧ sh'.p = true ∧
          sh'.sem + held c' = sh.sem + held c := by
    rintro d e ⟨rfl | rfl, hp', hsem⟩ hd he
    · exact ⟨hd, hp'.trans hp, hsem⟩
    · exact ⟨he, hp'.trans hp, hsem⟩
  cases r <;> simp only [Module.code, List.tails, List.mem_cons, List.not_mem_nil, or_false] at hc
  case reader =>
    rcases hc with rfl | rfl | rfl | rfl | rfl | rfl
    · simp only [step_thread, hp, if_true] at h
      cases h
      exact ⟨by decide, hp, rfl⟩
    · exact htails (down_held h rfl rfl) (by decide) (by decide)
    · exact htails (access_held rfl nofun h rfl) (by decide) (by decide)
    · exact htails (access_held rfl nofun h rfl) (by decide) (by decide)
    · cases h
      exact ⟨by decide, hp, rfl⟩
    · cases h
  case writer =>
    rcases hc with rfl | rfl | rfl | rfl | rfl | rfl | rfl
    · simp only [step_thread, hp, if_true] at h
      cases h
      exact ⟨by decide, hp, rfl⟩
    · exact htails (down_held h rfl rfl) (by decide) (by decide)
    · exact htails (access_held rfl nofun h rfl) (by decide) (by decide)
    · cases h
      exact ⟨by decide, hp, rfl⟩
    · exact htails (access_held rfl nofun h rfl) (by decide) (by decide)
    · cases h
      exact ⟨by decide, hp, rfl⟩
    · cases h

/-- A step of a thread of `kthread_spin.c`: all it does is access the object. -/
theorem spin_step {r : Role} (hc : c ∈ (Module.kthread_spin.code r).tails)
    (h : step_thread sh signal c = some (sh', c')) :
    c' ∈ (Module.kthread_spin.code r).tails ∧ sh'.p = sh.p := by
  have htails : ∀ {i rest}, step_thread sh signal (i :: rest) = some (sh', c') → i.touches = true →
      i ≠ .wait_for_completion → rest ∈ (Module.kthread_spin.code r).tails →
      i :: rest ∈ (Module.kthread_spin.code r).tails →
        c' ∈ (Module.kthread_spin.code r).tails ∧ sh'.p = sh.p := by
    intro i rest h hi hwait hrest hc
    rcases access_left hi hwait h with ⟨hp, -, rfl | rfl⟩
    · exact ⟨hrest, hp⟩
    · exact ⟨hc, hp⟩
  cases r <;> simp only [Module.code, List.tails, List.mem_cons,
    List.not_mem_nil, or_false] at hc <;>
    rcases hc with rfl | rfl | rfl | rfl | rfl
  case reader.inr.inr.inr.inr | writer.inr.inr.inr.inr => cases h
  all_goals exact htails h rfl nofun (by decide) (by decide)

/-- A step of the reader of `kthread_compl.c`. -/
theorem compl_reader_step
    (hc : c ∈ (Module.kthread_compl.code .reader).tails ∨ c = [.asleep, .print])
    (h : step_thread sh signal c = some (sh', c')) :
    sh'.p = sh.p ∧ sh'.woken = sh.woken ∧ sh'.heap = sh.heap ∧
      (c' ∈ (Module.kthread_compl.code .reader).tails ∨ c' = [.asleep, .print] ∧
        (c = [.asleep, .print] ∨ ∃ o, sh.heap = some o ∧ o.done = false)) := by
  simp only [Module.code, List.tails, List.mem_cons, List.not_mem_nil, or_false] at hc
  rcases hc with (rfl | rfl | rfl) | rfl
  · rcases step_touching rfl h with ⟨o, ho, rfl, rfl⟩ | ⟨-, rfl, rfl⟩
    · refine ⟨rfl, Bool.or_false _, ho.symm, ?_⟩
      simp only [Object.access]
      cases hdone : o.done with
      | true => exact .inl (show [Instr.print] ∈ _ by decide)
      | false => exact .inr ⟨rfl, .inr ⟨o, ho, hdone⟩⟩
    · exact ⟨rfl, rfl, rfl, .inl (by decide)⟩
  · cases h
    exact ⟨rfl, rfl, rfl, .inl (by decide)⟩
  · cases h
  · rcases step_touching rfl h with ⟨o, ho, rfl, rfl⟩ | ⟨-, rfl, rfl⟩
    · exact ⟨rfl, Bool.or_false _, ho.symm, .inl (show [Instr.print] ∈ _ by decide)⟩
    · exact ⟨rfl, rfl, rfl, .inr ⟨rfl, .inl rfl⟩⟩

/-- A step of its writer: it stays in front of `complete_all`, or it has woken the reader. -/
theorem compl_writer_step (hc : c ∈ (Module.kthread_compl.code .writer).tails)
    (h : step_thread sh signal c = some (sh', c')) : sh'.p = sh.p ∧
      c' ∈ (Module.kthread_compl.code .writer).tails ∧
      (.complete_all ∈ c' ∧ sh'.woken = sh.woken ∧ sh'.heap = sh.heap ∨
        sh'.woken = true ∧ ∀ o, sh'.heap = some o → o.done = true) := by
  simp only [Module.code, List.tails, List.mem_cons, List.not_mem_nil, or_false] at hc
  rcases hc with rfl | rfl | rfl
  · simp only [step_thread] at h
    split at h <;> cases h <;> exact ⟨rfl, by decide, .inl ⟨by decide, rfl, rfl⟩⟩
  · rcases step_touching rfl h with ⟨o, ho, rfl, rfl⟩ | ⟨-, rfl, rfl⟩
    · refine ⟨rfl, show [] ∈ _ by decide, .inr ⟨Bool.or_true _, fun o' ho' => ?_⟩⟩
      cases ho'
      rfl
    · exact ⟨rfl, by decide, .inl ⟨by decide, rfl, rfl⟩⟩
  · cases h

theorem Inv.step {a : Action} (hs : Inv m s) (h : s.step a = some t) : Inv m t := by
  cases a with
  | exit =>
    obtain ⟨-, rfl⟩ := step_exit h
    cases m with
    | kthread_semlck => exact hs
    | kthread_spin => exact hs
    | kthread_compl => exact ⟨hs.1, hs.2.1, hs.2.2.1, nofun⟩
  | thread r signal =>
    obtain ⟨sh, c, hstep, rfl⟩ := step_thread_eq h
    cases m with
    | kthread_semlck =>
      obtain ⟨hp, hr, hw, hsem⟩ := hs
      cases r with
      | reader =>
        obtain ⟨hc, hp', hheld⟩ := semlck_step hr hp hstep
        refine ⟨hp', hc, hw, ?_⟩
        change sh.sem + held c + held s.writer = 1
        have hheld : sh.sem + held c = s.sem + held s.reader := hheld
        omega
      | writer =>
        obtain ⟨hc, hp', hheld⟩ := semlck_step hw hp hstep
        refine ⟨hp', hr, hc, ?_⟩
        change sh.sem + held s.reader + held c = 1
        have hheld : sh.sem + held c = s.sem + held s.writer := hheld
        omega
    | kthread_spin =>
      obtain ⟨hp, hr, hw⟩ := hs
      cases r with
      | reader =>
        obtain ⟨hc, hp'⟩ := spin_step hr hstep
        exact ⟨hp'.trans hp, hc, hw⟩
      | writer =>
        obtain ⟨hc, hp'⟩ := spin_step hw hstep
        exact ⟨hp'.trans hp, hr, hc⟩
    | kthread_compl =>
      obtain ⟨hp, hr, hw, hdone⟩ := hs
      cases r with
      | reader =>
        obtain ⟨hp', hwoken, hheap, hc⟩ := compl_reader_step (hr.imp_right And.left) hstep
        refine ⟨hp'.trans hp, hc.imp_right fun ⟨hc, hold⟩ => ⟨hc, ?_⟩, hw,
          fun o ho => hdone o (hheap.symm.trans ho)⟩
        rcases hold with hold | ⟨o, ho, hnot⟩
        · rcases hr with hr | ⟨-, hr⟩
          · have hmem : [.asleep, .print] ∈ (Module.kthread_compl.code .reader).tails := hold ▸ hr
            exact absurd hmem (by decide)
          · exact hr.imp_left hwoken.trans
        · exact .inr (hdone o ho hnot)
      | writer =>
        rcases compl_writer_step hw hstep with ⟨hp', hc, ⟨hmem, hwoken, hheap⟩ | ⟨hwoken, hheap⟩⟩
        · exact ⟨hp'.trans hp, hr.imp_right fun ⟨hr, _⟩ => ⟨hr, .inr hmem⟩, hc, fun _ _ _ => hmem⟩
        · refine ⟨hp'.trans hp, hr.imp_right fun ⟨hr, _⟩ => ⟨hr, .inl hwoken⟩, hc,
            fun o ho hnot => ?_⟩
          rw [hheap o ho] at hnot
          cases hnot

/-- Where a thread is not through, one of the two comes to an access, or it gives the semaphore back
first. -/
theorem semlck_comes : ∀ c ∈ (Module.kthread_semlck.code .reader).tails,
    ∀ d ∈ (Module.kthread_semlck.code .writer).tails, ∀ woken ∈ [false, true], ∀ sem ≤ 1,
      sem + held c + held d = 1 →
      (c.any (·.touches) || d.any (·.touches)) = true →
      comes sem woken c = true ∨ comes sem woken d = true ∨
        (c = [.up] ∧ comes (sem + 1) woken d = true) ∨
        (d = [.up] ∧ comes (sem + 1) woken c = true) := by
  decide

theorem spin_comes {r : Role} (hc : c ∈ (Module.kthread_spin.code r).tails)
    (h : c.any (·.touches) = true) (sem : Nat) (woken : Bool) : comes sem woken c = true := by
  cases r <;> simp only [Module.code, List.tails, List.mem_cons,
    List.not_mem_nil, or_false] at hc <;>
    rcases hc with rfl | rfl | rfl | rfl | rfl
  case reader.inr.inr.inr.inr | writer.inr.inr.inr.inr => cases h
  all_goals rfl

theorem compl_writer_comes (hc : c ∈ (Module.kthread_compl.code .writer).tails)
    (h : c.any (·.touches) = true) (sem : Nat) (woken : Bool) : comes sem woken c = true := by
  simp only [Module.code, List.tails, List.mem_cons, List.not_mem_nil, or_false] at hc
  rcases hc with rfl | rfl | rfl
  · rfl
  · rfl
  · cases h

theorem Fails.of_up {r : Role} (hr : s.code r = [.up])
    (h : ∀ u : Sys, (∀ q, q ≠ r → u.code q = s.code q) → u.heap = s.heap → u.p = s.p →
      u.sem = s.sem + 1 → u.woken = s.woken → Fails u) : Fails s := by
  refine Fails.of_step (a := .thread r false)
    (step_of_thread { s.toShared with sem := s.sem + 1 } [] ?_) (h _ (fun q hq => ?_) ?_ ?_ ?_ ?_)
  · rw [hr]
    rfl
  · rw [Sys.code_setCode, if_neg hq]
    cases q <;> rfl
  all_goals rw [Sys.setCode_toShared]

theorem fails_of_not_through (hs : Inv m s) (h : s.through = false) :
    Fails { s with heap := none } := by
  have hany : (s.reader.any (·.touches) || s.writer.any (·.touches)) = true := by
    simpa [Sys.through, List.any_eq_true, List.all_eq_false, imp_iff_not_or] using h
  cases m with
  | kthread_semlck =>
    obtain ⟨hp, hr, hw, hsem⟩ := hs
    have hone : s.sem ≤ 1 := by omega
    obtain hcomes | hcomes | ⟨hup, hcomes⟩ | ⟨hup, hcomes⟩ :=
      semlck_comes s.reader hr s.writer hw s.woken
        (by cases s.woken <;> decide) s.sem hone hsem hany
    · exact fails_of_comes (r := .reader) s.reader rfl rfl hp hcomes
    · exact fails_of_comes (r := .writer) s.writer rfl rfl hp hcomes
    · refine Fails.of_up (r := .reader) hup fun u hcode hheap hup husem huwoken => ?_
      refine fails_of_comes (r := .writer) s.writer (hcode .writer nofun) hheap (hup.trans hp) ?_
      rw [husem, huwoken]
      exact hcomes
    · refine Fails.of_up (r := .writer) hup fun u hcode hheap hup husem huwoken => ?_
      refine fails_of_comes (r := .reader) s.reader (hcode .reader nofun) hheap (hup.trans hp) ?_
      rw [husem, huwoken]
      exact hcomes
  | kthread_spin =>
    obtain ⟨hp, hr, hw⟩ := hs
    rcases Bool.or_eq_true_iff.1 hany with hany | hany
    · exact fails_of_comes (r := .reader) s.reader rfl rfl hp (spin_comes hr hany s.sem s.woken)
    · exact fails_of_comes (r := .writer) s.writer rfl rfl hp (spin_comes hw hany s.sem s.woken)
  | kthread_compl =>
    obtain ⟨hp, hr, hw, -⟩ := hs
    have hwriter : s.writer.any (·.touches) = true → Fails { s with heap := none } := fun hany =>
      fails_of_comes (r := .writer) s.writer rfl rfl hp (compl_writer_comes hw hany s.sem s.woken)
    rcases Bool.or_eq_true_iff.1 hany with hany | hany
    · rcases hr with hr | ⟨hr, hwoken | hmem⟩
      · refine fails_of_comes (r := .reader) s.reader rfl rfl hp ?_
        simp only [Module.code, List.tails, List.mem_cons, List.not_mem_nil, or_false] at hr
        rcases hr with hr | hr | hr <;> rw [hr] at hany ⊢
        · rfl
        · cases hany
        · cases hany
      · refine fails_of_comes (r := .reader) s.reader rfl rfl hp ?_
        rw [hr]
        exact hwoken
      · exact hwriter (List.any_eq_true.2 ⟨_, hmem, rfl⟩)
    · exact hwriter hany

/-- **The object is not touched after the unload** if and only if the threads are through with it by
then. -/
theorem untouched_iff (m : Module) (as : List Action) {s s' : Sys}
    (h : run Sys.step (.init m) as = some s) (hexit : s.step .exit = some s') :
    (∀ bs t, run Sys.step s' bs = some t → t.oops = false) ↔ s.through = true := by
  constructor
  · intro hall
    obtain ⟨-, rfl⟩ := step_exit hexit
    have hs : Inv m s := run_inv_of_step (I := Inv m) Inv.step (Inv.init m) h
    cases hthrough : s.through with
    | true => rfl
    | false =>
      obtain ⟨bs, t, ht, hoops⟩ := fails_of_not_through hs hthrough
      rw [hall bs t ht] at hoops
      cases hoops
  · exact fun hthrough bs t ht => untouched_of_through h hexit hthrough ht

/-- The two threads of `kthread_spin.c`, one after the other. -/
def bothThreads : List Action :=
  List.replicate 4 (.thread .writer false) ++ List.replicate 4 (.thread .reader false)

theorem untouched_late :
    ∃ s s', run Sys.step (.init .kthread_spin) bothThreads = some s ∧ s.step .exit = some s' ∧
    ∀ bs t, run Sys.step s' bs = some t → t.oops = false :=
  ⟨_, _, rfl, rfl, (untouched_iff .kthread_spin bothThreads rfl rfl).2 rfl⟩

/-- The writer of `kthread_semlck.c` comes to its sleep of ten seconds. -/
def toSleep : List Action := List.replicate 3 (.thread .writer false)

/-- When it wakes up, the object is gone. -/
theorem touched :
    ¬ ∀ (m : Module) (as bs : List Action) (s s' t : Sys), run Sys.step (.init m) as = some s →
    s.step .exit = some s' → run Sys.step s' bs = some t → t.oops = false := by
  intro h
  have hoops : true = false :=
    h .kthread_semlck toSleep (List.replicate 2 (.thread .writer false)) _ _ _ rfl rfl rfl
  cases hoops

end LinuxKernelProg.Sync.UnloadFree
