import LinuxKernelProg.Lib.Run
import LinuxKernelProg.Lib.Rcu
import Mathlib.Data.BitVec

/-!
# A pointer that is published by RCU

`kthread_rctest.c`, `kthread_rcasync.c` and `srcu_example.c`: one updater publishes a new record in
each round and reclaims the old one, readers dereference the pointer in read-side sections, and the
exit stops the threads and reclaims the last record. The modules differ in how a record is
reclaimed: after a grace period, by a callback, or by a callback after a grace period of the
readers' own domain.

Time is the number of steps taken: a section carries the time of its first state, and a grace period
that started at `g` is over when every open section began later than `g`. The updater reads no
record but its own new one, and only to print it; this is left out, and so is the name that a record
of `srcu_example.c` has next to its value.
-/

namespace LinuxKernelProg.Sync.RcuPointer

open LinuxKernelProg.Lib LinuxKernelProg.Lib.Rcu

inductive Module where
  | rctest
  | rcasync
  | srcu
  deriving DecidableEq

/-- A statement that reclaims a record. -/
inductive Instr where
  /-- `synchronize_rcu` or `synchronize_srcu`, whichever the readers use. -/
  | sync
  /-- It waits since then. -/
  | wait (gp : Nat)
  | kfree
  | call_rcu
  deriving DecidableEq

/-- The rest of what is to be done, with the record that is not reclaimed yet. -/
structure Job where
  record : Option Nat
  prog : List Instr
  deriving DecidableEq

namespace Module

/-- How `updater_thread` and `writer_fn` reclaim an old record. -/
def reclaim : Module → List Instr
  | rctest => [.sync, .kfree]
  | rcasync => [.call_rcu]
  | srcu => [.sync, .call_rcu]

/-- What the exit does with the last record, if there is one, once the threads are stopped. -/
def cleanup : Module → Option Nat → List Instr
  | rctest, _ => [.kfree]
  | rcasync, some _ => [.call_rcu, .sync]
  | rcasync, none => [.sync]
  | srcu, some _ => [.sync, .kfree]
  | srcu, none => []

/-- `rcu_assign_pointer(rcu_ptr, NULL)` in the exit. -/
def clears : Module → Bool
  | rcasync => true
  | _ => false

/-- The callbacks wait for the readers; those of `srcu` do not, as its readers use a domain of their
own. -/
def waits : Module → Bool
  | srcu => false
  | _ => true

/-- The bounds of the loops. -/
def updates : Module → Option Nat
  | srcu => some 8
  | _ => none

def reads : Module → Option Nat
  | srcu => some 15
  | _ => none

/-- A reader reads the value a second time, after it has slept. -/
def rereads : Module → Bool
  | srcu => true
  | _ => false

/-- The exit sets `stop_threads` first. -/
def stops_all : Module → Bool
  | srcu => false
  | _ => true

/-- The value of a new record. -/
def value (m : Module) (round : Nat) (random : BitVec 32) : Int :=
  match m with
  | srcu => round * 10
  | _ => (random &&& 0xff).toNat

end Module

namespace Updater

inductive Pc where
  /-- The head of the loop. -/
  | test
  | kmalloc
  | publish (new : Nat)
  | reclaim (job : Job)
  | returned
  deriving DecidableEq

end Updater

namespace Reader

inductive Pc where
  | test
  /-- `rcu_read_lock` or `srcu_read_lock`. -/
  | lock
  /-- In a section that began at `began`, in front of `rcu_dereference`. -/
  | deref (began : Nat)
  | read (began record : Nat)
  | reread (began record : Nat) (value : Int)
  | unlock (began : Nat)
  | returned
  deriving DecidableEq

end Reader

/-- A kernel thread. -/
structure Thread (Pc : Type) where
  pc : Pc
  /-- What `kthread_should_stop` returns. -/
  stop : Bool
  /-- How many rounds are over. -/
  rounds : Nat
  deriving DecidableEq

/-- Where the exit is. The thread 0 is the updater, the others are the readers. -/
inductive Exit where
  | begin
  /-- `kthread_stop` of a thread comes next; behind the last thread, the record is taken. -/
  | stop (k : Nat)
  /-- It waits until the thread has returned. -/
  | join (k : Nat)
  | cleanup (job : Job)
  | returned
  deriving DecidableEq

structure Sys where
  clock : Nat
  heap : Nat → Option Int
  next : Nat
  /-- `rcu_ptr` or `global_data`. -/
  ptr : Option Nat
  updater : Thread Updater.Pc
  readers : List (Thread Reader.Pc)
  exit : Exit
  stop_threads : Bool
  /-- The records queued by `call_rcu`, with the times of the queueing. -/
  callbacks : List (Nat × Nat)
  /-- The records `kfree` was applied to, latest first. -/
  frees : List Nat
  /-- What was read in a section first and then again. -/
  rereads : List (Int × Int)
  /-- A reader has dereferenced a record that is not allocated. -/
  oops : Bool

inductive Action where
  /-- The updater takes a step; `random` is the new value, if an allocation of the step succeeds. -/
  | updater (random : Option (BitVec 32))
  | reader (i : Nat)
  | exit
  /-- A queued callback runs. -/
  | callback (q : Nat × Nat)

/-- When the read-side section began that a reader is in. -/
def Reader.Pc.section? : Reader.Pc → Option Nat
  | .deref b => some b
  | .read b _ => some b
  | .reread b _ _ => some b
  | .unlock b => some b
  | _ => none

namespace Sys

/-- Every open read-side section began after `g`. -/
def elapsed (s : Sys) (g : Nat) : Bool :=
  s.readers.all fun rd => rd.pc.section?.all fun b => g < b

/-- The test of a loop. -/
def goes_on {Pc : Type} (s : Sys) (th : Thread Pc) (bound : Option Nat) : Bool :=
  !th.stop && !s.stop_threads && bound.all fun n => th.rounds < n

def kfree (s : Sys) : Option Nat → Sys
  | some r => { s with heap := Function.update s.heap r none, frees := r :: s.frees }
  | none => s

def call_rcu (s : Sys) : Option Nat → Sys
  | some r => { s with callbacks := s.callbacks ++ [(r, s.clock)] }
  | none => s

/-- The next statement of a job. -/
def work (s : Sys) (job : Job) : Option (Sys × Job) :=
  match job.prog with
  | [] => none
  | .sync :: is => some (s, { job with prog := .wait s.clock :: is })
  | .wait g :: is => if s.elapsed g then some (s, { job with prog := is }) else none
  | .kfree :: is => some (s.kfree job.record, ⟨none, is⟩)
  | .call_rcu :: is => some (s.call_rcu job.record, ⟨none, is⟩)

def set_updater (s : Sys) (pc : Updater.Pc) : Sys :=
  { s with updater := { s.updater with pc := pc } }

/-- The round of the updater is over. -/
def end_round (s : Sys) : Sys :=
  { s with updater := { s.updater with pc := .test, rounds := s.updater.rounds + 1 } }

/-- `updater_thread` or `writer_fn`. -/
def updater_step (m : Module) (s : Sys) (random : Option (BitVec 32)) : Option Sys :=
  match s.updater.pc with
  | .test => some (s.set_updater (if s.goes_on s.updater m.updates then .kmalloc else .returned))
  | .kmalloc =>
    match random with
    | none => some s.end_round
    | some random =>
      let value := m.value s.updater.rounds random
      some { s.set_updater (.publish s.next) with
        heap := Function.update s.heap s.next (some value), next := s.next + 1 }
  | .publish new =>
    match s.ptr with
    | none => some { s.end_round with ptr := some new }
    | some old => some { s.set_updater (.reclaim ⟨some old, m.reclaim⟩) with ptr := some new }
  | .reclaim job =>
    if job.prog = [] then some s.end_round
    else (s.work job).map fun p => p.1.set_updater (.reclaim p.2)
  | .returned => none

def set_reader (s : Sys) (i : Nat) (rd : Thread Reader.Pc) : Sys :=
  { s with readers := s.readers.set i rd }

/-- `reader_thread` or `reader_fn`. -/
def reader_step (m : Module) (s : Sys) (i : Nat) (rd : Thread Reader.Pc) : Option Sys :=
  match rd.pc with
  | .test => some (s.set_reader i { rd with
      pc := if s.goes_on rd m.reads then .lock else .returned })
  | .lock => some (s.set_reader i { rd with pc := .deref (s.clock + 1) })
  | .deref b =>
    match s.ptr with
    | none => some (s.set_reader i { rd with pc := .unlock b })
    | some r => some (s.set_reader i { rd with pc := .read b r })
  | .read b r =>
    match s.heap r with
    | none => some { s with oops := true }
    | some v => some (s.set_reader i
        { rd with pc := if m.rereads then .reread b r v else .unlock b })
  | .reread b r v =>
    match s.heap r with
    | none => some { s with oops := true }
    | some w => some { s.set_reader i { rd with pc := .unlock b } with
        rereads := (v, w) :: s.rereads }
  | .unlock _ => some (s.set_reader i { rd with pc := .test, rounds := rd.rounds + 1 })
  | .returned => none

/-- Sets the stop flag of a thread. -/
def set_stop (s : Sys) (k : Nat) : Sys :=
  { s with
    updater := { s.updater with stop := s.updater.stop || decide (k = 0) }
    readers := s.readers.mapIdx fun i rd => { rd with stop := rd.stop || decide (k = i + 1) } }

def hasReturned (s : Sys) : Nat → Bool
  | 0 => s.updater.pc = .returned
  | i + 1 => (s.readers[i]?).all fun rd => rd.pc = .returned

/-- `rcu_test_exit` or `srcu_example_exit`. -/
def exit_step (m : Module) (s : Sys) : Option Sys :=
  match s.exit with
  | .begin => some { s with exit := .stop 0, stop_threads := m.stops_all }
  | .stop k =>
    if k ≤ s.readers.length then some { s.set_stop k with exit := .join k }
    else
      some { s with
        exit := .cleanup ⟨s.ptr, m.cleanup s.ptr⟩
        ptr := if m.clears then none else s.ptr }
  | .join k => if s.hasReturned k then some { s with exit := .stop (k + 1) } else none
  | .cleanup job =>
    if job.prog = [] then some { s with exit := .returned }
    else (s.work job).map fun p => { p.1 with exit := .cleanup p.2 }
  | .returned => none

/-- A callback frees its record. -/
def callback_step (m : Module) (s : Sys) (q : Nat × Nat) : Option Sys :=
  if s.callbacks.contains q ∧ (m.waits → s.elapsed q.2) then
    some (kfree { s with callbacks := s.callbacks.erase q } (some q.1))
  else none

def tick (s : Sys) : Sys := { s with clock := s.clock + 1 }

def step (m : Module) (s : Sys) (a : Action) : Option Sys :=
  Option.map tick <|
    match a with
    | .updater random => s.updater_step m random
    | .reader i => (s.readers[i]?).bind fun rd => s.reader_step m i rd
    | .exit => s.exit_step m
    | .callback q => s.callback_step m q

/-- The module has been loaded, with a first record in `srcu_example.c`. -/
def init (m : Module) (readers : Nat) : Sys where
  clock := 0
  heap := fun r => if m = .srcu ∧ r = 0 then some 0 else none
  next := 1
  ptr := if m = .srcu then some 0 else none
  updater := ⟨.test, false, 0⟩
  readers := List.replicate readers ⟨.test, false, 0⟩
  exit := .begin
  stop_threads := false
  callbacks := []
  frees := []
  rereads := []
  oops := false

end Sys

/-- **What RCU is there for.** -/
structure Safe (s : Sys) : Prop where
  /-- No reader has dereferenced a record that is freed. -/
  no_oops : s.oops = false
  /-- Two reads in a section have found the same value. -/
  same : ∀ p ∈ s.rereads, p.1 = p.2
  /-- No record was freed twice. -/
  frees_once : s.frees.Nodup

end LinuxKernelProg.Sync.RcuPointer
