import LinuxKernelProg.Lib.Kfifo
import LinuxKernelProg.Lib.Run
import LinuxKernelProg.Lib.Text

/-!
# The lockless queue

`sync/part3/lockless_queue.c`: producers put items into `demo_queue` and consumers get them, without
a lock. A `kfifo_put` is three steps, and so is a `kfifo_get`: the test, the access to the element,
and the move of the index. The exit stops the threads, producers first, and resets the queue. The
log lines are left out.
-/

namespace LinuxKernelProg.Sync.LocklessQueue

open LinuxKernelProg.Lib

/-- `struct data_item` -/
structure DataItem where
  id : BitVec 32
  value : BitVec 32
  /-- The string in it. -/
  msg : List UInt8
  deriving DecidableEq

/-- `demo_queue`, with `QUEUE_SIZE` 64. -/
abbrev Queue := Kfifo DataItem 6

/-- The item of a round, as `producer_fn` fills it in. -/
def item (producer_id : BitVec 32) (i : Nat) : DataItem where
  id := producer_id * 1000 + BitVec.ofNat 32 i
  value := BitVec.ofNat 32 i * producer_id
  msg := (str "P" ++ decInt producer_id.toInt ++ str "-Item" ++ dec i).take 31

/-! ## The threads -/

namespace Producer

/-- Where `producer_fn` is. -/
inductive Pc where
  /-- At the condition of the loop. -/
  | loop
  /-- `kfifo_put`: it tests whether the queue is full. -/
  | full
  /-- It stores the item. -/
  | store
  /-- `in++` -/
  | advance
  | returned
  deriving DecidableEq

end Producer

structure Producer where
  producer_id : BitVec 32
  i : Nat
  pc : Producer.Pc
  /-- What `kthread_should_stop()` returns. -/
  should_stop : Bool
  deriving DecidableEq

namespace Producer

/-- `item` -/
def item (p : Producer) : DataItem := LocklessQueue.item p.producer_id p.i

/-- A step of `producer_fn`. -/
def step (f : Queue) (p : Producer) : Option (Queue × Producer) :=
  match p.pc with
  | .loop => some (f, { p with pc := if p.i < 20 && !p.should_stop then .full else .returned })
  | .full => some (f, if f.is_full then { p with pc := .loop, i := p.i + 1 }
      else { p with pc := .store })
  | .store => some (f.store p.item, { p with pc := .advance })
  | .advance => some (f.advance_in, { p with pc := .loop, i := p.i + 1 })
  | .returned => none

end Producer

namespace Consumer

/-- Where `consumer_fn` is. -/
inductive Pc where
  /-- At the condition of the loop. -/
  | loop
  /-- `kfifo_get`: it tests whether the queue is empty. -/
  | empty
  /-- It loads the item. -/
  | load
  /-- `out++` -/
  | advance
  | returned
  deriving DecidableEq

end Consumer

structure Consumer where
  consumer_id : BitVec 32
  consumed_count : Nat
  item : DataItem
  pc : Consumer.Pc
  should_stop : Bool
  deriving DecidableEq

namespace Consumer

/-- A step of `consumer_fn`. -/
def step (f : Queue) (c : Consumer) : Option (Queue × Consumer) :=
  match c.pc with
  | .loop => some (f, { c with
      pc := if !c.should_stop && c.consumed_count < 25 then .empty else .returned })
  | .empty => some (f, { c with pc := if f.is_empty then .loop else .load })
  | .load => some (f, { c with pc := .advance, item := f.load })
  | .advance => some (f.advance_out, { c with pc := .loop, consumed_count := c.consumed_count + 1 })
  | .returned => none

end Consumer

/-! ## The module -/

inductive Role where
  | producer
  | consumer
  deriving DecidableEq

/-- Where `lockless_queue_exit` is. -/
inductive Exit where
  /-- `kthread_stop` of a thread comes next, and behind the last one what comes then. -/
  | stop (r : Role) (k : Nat)
  /-- It waits until the thread has returned. -/
  | join (r : Role) (k : Nat)
  /-- The threads have stopped: it prints how many items are left, and resets the queue. -/
  | reset
  | returned
  deriving DecidableEq

structure Sys where
  demo_queue : Queue
  producers : List Producer
  consumers : List Consumer
  exit : Exit

inductive Action where
  | thread (r : Role) (k : Nat)
  | exit

namespace Sys

def hasReturned (s : Sys) : Role → Nat → Bool
  | .producer, k => (s.producers[k]?).any fun p => p.pc = .returned
  | .consumer, k => (s.consumers[k]?).any fun c => c.pc = .returned

/-- A step of `lockless_queue_exit`. -/
def exit_step (s : Sys) : Option Sys :=
  match s.exit with
  | .stop .producer k =>
    match s.producers[k]? with
    | some p => some { s with
        producers := s.producers.set k { p with should_stop := true }, exit := .join .producer k }
    | none => some { s with exit := .stop .consumer 0 }
  | .stop .consumer k =>
    match s.consumers[k]? with
    | some c => some { s with
        consumers := s.consumers.set k { c with should_stop := true }, exit := .join .consumer k }
    | none => some { s with exit := .reset }
  | .join r k => if s.hasReturned r k then some { s with exit := .stop r (k + 1) } else none
  | .reset => some { s with demo_queue := s.demo_queue.reset, exit := .returned }
  | .returned => none

def step (s : Sys) : Action → Option Sys
  | .thread .producer k => do
    let p ← s.producers[k]?
    let (demo_queue, p') ← p.step s.demo_queue
    some { s with demo_queue, producers := s.producers.set k p' }
  | .thread .consumer k => do
    let c ← s.consumers[k]?
    let (demo_queue, c') ← c.step s.demo_queue
    some { s with demo_queue, consumers := s.consumers.set k c' }
  | .exit => s.exit_step

/-- The module has been loaded, with so many threads. -/
def init (producers consumers : Nat) : Sys where
  demo_queue := ⟨0, 0, fun _ => ⟨0, 0, []⟩⟩
  producers := (List.range producers).map fun k => ⟨BitVec.ofNat 32 (k + 1), 0, .loop, false⟩
  consumers := (List.range consumers).map fun k =>
    ⟨BitVec.ofNat 32 (k + 1), 0, ⟨0, 0, []⟩, .loop, false⟩
  exit := .stop .producer 0

end Sys

variable {s t : Sys} {k : Nat}

theorem producer_step_cases (h : s.step (.thread .producer k) = some t) :
    ∃ p p' f, s.producers[k]? = some p ∧ p.step s.demo_queue = some (f, p') ∧
      t = { s with demo_queue := f, producers := s.producers.set k p' } := by
  obtain ⟨p, hp, h⟩ := Option.bind_eq_some_iff.1 h
  obtain ⟨⟨f, p'⟩, hstep, h⟩ := Option.bind_eq_some_iff.1 h
  cases h
  exact ⟨p, p', f, hp, hstep, rfl⟩

theorem consumer_step_cases (h : s.step (.thread .consumer k) = some t) :
    ∃ c c' f, s.consumers[k]? = some c ∧ c.step s.demo_queue = some (f, c') ∧
      t = { s with demo_queue := f, consumers := s.consumers.set k c' } := by
  obtain ⟨c, hc, h⟩ := Option.bind_eq_some_iff.1 h
  obtain ⟨⟨f, c'⟩, hstep, h⟩ := Option.bind_eq_some_iff.1 h
  cases h
  exact ⟨c, c', f, hc, hstep, rfl⟩

end LinuxKernelProg.Sync.LocklessQueue
