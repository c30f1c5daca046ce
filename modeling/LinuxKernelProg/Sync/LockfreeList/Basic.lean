import Mathlib.Logic.Function.Basic
import LinuxKernelProg.Lib.Run
import LinuxKernelProg.Lib.RingSteps

/-!
# The lock-free list

`sync/part3/lockfree_list.c`: workers put nodes on `demo_list` and take nodes of their own off
again, without a lock; every load and store of a list pointer is a step. A node that was taken off
is freed by a callback, and the exit frees what is left once it has stopped the workers. Using an
object that is not live is a fault, which stops the system (`oops`).

Time is the number of steps taken: a read-side section carries the time of its first state, and a
grace period that started at `g` is over when every open section began later than `g`. The log lines
are left out.
-/

namespace LinuxKernelProg.Sync.LockfreeList

open LinuxKernelProg.Lib

/-- A `struct list_head *`. -/
inductive Ref where
  /-- `&demo_list` -/
  | demo_list
  /-- `&node->list` -/
  | node (n : Nat)
  /-- `LIST_POISON2` -/
  | poison
  deriving DecidableEq

/-- `struct list_node`. -/
structure Node where
  list : Link Ref
  data : Int
  thread_id : Int

/-- The list head, the live nodes and how many were allocated. -/
structure Mem where
  demo_list : Link Ref
  heap : Nat → Option Node
  next : Nat

namespace Mem

def init : Mem := ⟨⟨.demo_list, .demo_list⟩, fun _ => none, 0⟩

def link (m : Mem) : Ref → Option (Link Ref)
  | .demo_list => some m.demo_list
  | .node n => (m.heap n).map Node.list
  | .poison => none

def setLink (m : Mem) : Ref → Link Ref → Mem
  | .demo_list, l => { m with demo_list := l }
  | .node n, l =>
    { m with heap := Function.update m.heap n ((m.heap n).map fun b => { b with list := l }) }
  | .poison, _ => m

instance : LinkMem Mem Ref where
  link := link
  setLink := setLink
  link_setLink := by
    intro m a h l b
    cases a with
    | demo_list => cases b <;> simp [link, setLink]
    | node n =>
      cases b with
      | node k =>
        obtain ⟨nd, hnd⟩ := Option.isSome_iff_exists.1 (Option.isSome_map.symm.trans h)
        by_cases hk : k = n
        · subst hk
          simp [link, setLink, hnd]
        · simp [link, setLink, hk]
      | _ => simp [link, setLink]
    | poison => cases h

end Mem

/-- `create_node`, if `kmalloc` succeeds. -/
def create_node (m : Mem) (data thread_id : Int) : Mem × Nat :=
  let n := m.next
  ({ m with
    heap := Function.update m.heap n (some ⟨⟨.node n, .node n⟩, data, thread_id⟩),
    next := n + 1 }, n)

def kfree (m : Mem) (n : Nat) : Option Mem :=
  (m.heap n).map fun _ => { m with heap := Function.update m.heap n none }

/-! ## Going over the list -/

/-- Where `list_for_each_entry_rcu` is. -/
inductive Walk where
  | first
  /-- It has come to the cell. -/
  | cell (r : Ref)
  /-- It goes on behind the node. -/
  | next (n : Nat)
  deriving DecidableEq

/-- What a step of the loop comes to. -/
inductive Walk.Result where
  | go (w : Walk)
  /-- The body of the loop leaves it. -/
  | stop (n : Nat)
  | over

/-- A step of the loop; `stops` is the test in its body. -/
def Walk.step (m : Mem) (stops : Node → Bool) : Walk → Option Walk.Result
  | .first => some (.go (.cell m.demo_list.next))
  | .cell .demo_list => some .over
  | .cell (.node n) => (m.heap n).map fun node => if stops node then .stop n else .go (.next n)
  | .cell .poison => none
  | .next n => (m.heap n).map fun node => .go (.cell node.list.next)

/-- The test of a worker: `temp->thread_id == thread_id && temp->data % 2 == 0`. -/
def removes (thread_id : Int) (node : Node) : Bool :=
  node.thread_id = thread_id ∧ node.data.tmod 2 = 0

/-- `print_list` goes over the whole list. -/
def prints (_ : Node) : Bool := false

/-! ## The workers -/

inductive Pc where
  /-- The head of the loop. -/
  | test
  | create
  /-- In `list_add_rcu` of the new node. -/
  | add (n : Nat) (op : Insert Ref)
  /-- `i % 3 == 0 && i > 0` -/
  | check
  /-- In a section that began at `began`, on the way over the list. -/
  | scan (began : Nat) (w : Walk)
  /-- In `list_del_rcu` of the node. -/
  | del (began n : Nat) (op : Remove Ref)
  | call_rcu (began n : Nat)
  | unlock (began : Nat)
  /-- Behind the loop. -/
  | finish
  | print (began : Nat) (w : Walk)
  | returned
  deriving DecidableEq

structure Worker where
  thread_id : Int
  i : Nat
  pc : Pc
  /-- What `kthread_should_stop` returns. -/
  stop : Bool

/-- When the read-side section began that a worker is in. -/
def Pc.section? : Pc → Option Nat
  | .scan b _ => some b
  | .del b _ _ => some b
  | .call_rcu b _ => some b
  | .unlock b => some b
  | .print b _ => some b
  | _ => none

structure Shared where
  mem : Mem
  /-- The nodes queued by `call_rcu`, with the times of the queueing. -/
  callbacks : List (Nat × Nat)
  clock : Nat
  oops : Bool

namespace Shared

def init : Shared := ⟨Mem.init, [], 0, false⟩

def fault (sh : Shared) : Shared := { sh with oops := true }

def call_rcu (sh : Shared) (n : Nat) : Shared :=
  { sh with callbacks := sh.callbacks ++ [(n, sh.clock)] }

def tick (sh : Shared) : Shared := { sh with clock := sh.clock + 1 }

end Shared

/-- `i++` -/
def Worker.end_round (w : Worker) : Worker := { w with pc := .test, i := w.i + 1 }

/-- A step of `worker_thread_fn`; `alloc` says whether an allocation of the step succeeds. -/
def Worker.step (sh : Shared) (alloc : Bool) (w : Worker) : Option (Shared × Worker) :=
  match w.pc with
  | .test => some (sh, { w with pc := if w.i < 8 && !w.stop then .create else .finish })
  | .create =>
    if alloc then
      let (m, n) := create_node sh.mem (w.thread_id * 100 + w.i) w.thread_id
      some ({ sh with mem := m }, { w with pc := .add n .load })
    else some (sh, { w with pc := .check })
  | .add n op =>
    match op.step sh.mem (.node n) .demo_list with
    | some (m, some op) => some ({ sh with mem := m }, { w with pc := .add n op })
    | some (m, none) => some ({ sh with mem := m }, { w with pc := .check })
    | none => some (sh.fault, w)
  | .check =>
    if w.i % 3 = 0 ∧ 0 < w.i then some (sh, { w with pc := .scan (sh.clock + 1) .first })
    else some (sh, w.end_round)
  | .scan b walk =>
    match walk.step sh.mem (removes w.thread_id) with
    | some (.go walk) => some (sh, { w with pc := .scan b walk })
    | some (.stop n) => some (sh, { w with pc := .del b n .loadPrev })
    | some .over => some (sh, { w with pc := .unlock b })
    | none => some (sh.fault, w)
  | .del b n op =>
    match op.step sh.mem (.node n) .poison with
    | some (m, some op) => some ({ sh with mem := m }, { w with pc := .del b n op })
    | some (m, none) => some ({ sh with mem := m }, { w with pc := .call_rcu b n })
    | none => some (sh.fault, w)
  | .call_rcu b n =>
    match sh.mem.heap n with
    | some _ => some (sh.call_rcu n, { w with pc := .unlock b })
    | none => some (sh.fault, w)
  | .unlock _ => some (sh, w.end_round)
  | .finish =>
    some (sh, { w with pc := if w.thread_id = 1 then .print (sh.clock + 1) .first else .returned })
  | .print b walk =>
    match walk.step sh.mem prints with
    | some (.go walk) => some (sh, { w with pc := .print b walk })
    | some (.stop _) => some (sh, { w with pc := .returned })
    | some .over => some (sh, { w with pc := .returned })
    | none => some (sh.fault, w)
  | .returned => none

/-! ## The module -/

/-- Where `lockfree_list_exit` is. -/
inductive Exit where
  /-- `kthread_stop` of a worker comes next, and behind the last one `print_list`. -/
  | stop (k : Nat)
  /-- It waits until the worker has returned. -/
  | join (k : Nat)
  | print (began : Nat) (w : Walk)
  /-- `list_for_each_entry_safe` begins. -/
  | first
  /-- It has come to the cell. -/
  | cell (r : Ref)
  /-- It takes off the node; `temp` is the cell to go on with. -/
  | del (n : Nat) (temp : Ref) (op : Remove Ref)
  | sync (n : Nat) (temp : Ref)
  /-- It waits in `synchronize_rcu` since `gp`. -/
  | wait (n : Nat) (temp : Ref) (gp : Nat)
  | kfree (n : Nat) (temp : Ref)
  | returned
  deriving DecidableEq

def Exit.section? : Exit → Option Nat
  | .print b _ => some b
  | _ => none

structure Sys extends Shared where
  workers : List Worker
  exit : Exit

inductive Action where
  | worker (k : Nat) (alloc : Bool)
  | exit
  /-- A queued `free_node_rcu` runs. -/
  | callback (q : Nat × Nat)

namespace Sys

/-- Every open read-side section began after `g`. -/
def elapsed (s : Sys) (g : Nat) : Bool :=
  (s.workers.all fun w => w.pc.section?.all fun b => g < b) && s.exit.section?.all fun b => g < b

def hasReturned (s : Sys) (k : Nat) : Bool := (s.workers[k]?).all fun w => w.pc = .returned

def fault (s : Sys) : Sys := { s with toShared := s.toShared.fault }

/-- A step of `lockfree_list_exit`. -/
def exit_step (s : Sys) : Option Sys :=
  match s.exit with
  | .stop k =>
    match s.workers[k]? with
    | some w => some { s with workers := s.workers.set k { w with stop := true }, exit := .join k }
    | none => some { s with exit := .print (s.clock + 1) .first }
  | .join k => if s.hasReturned k then some { s with exit := .stop (k + 1) } else none
  | .print b walk =>
    match walk.step s.mem prints with
    | some (.go walk) => some { s with exit := .print b walk }
    | some (.stop _) => some { s with exit := .first }
    | some .over => some { s with exit := .first }
    | none => some s.fault
  | .first => some { s with exit := .cell s.mem.demo_list.next }
  | .cell .demo_list => some { s with exit := .returned }
  | .cell (.node n) =>
    match s.mem.heap n with
    | some node => some { s with exit := .del n node.list.next .loadPrev }
    | none => some s.fault
  | .cell .poison => some s.fault
  | .del n temp op =>
    match op.step s.mem (.node n) .poison with
    | some (m, some op) => some { s with mem := m, exit := .del n temp op }
    | some (m, none) => some { s with mem := m, exit := .sync n temp }
    | none => some s.fault
  | .sync n temp => some { s with exit := .wait n temp s.clock }
  | .wait n temp g => if s.elapsed g then some { s with exit := .kfree n temp } else none
  | .kfree n temp =>
    match LockfreeList.kfree s.mem n with
    | some m => some { s with mem := m, exit := .cell temp }
    | none => some s.fault
  | .returned => none

def callback_step (s : Sys) (q : Nat × Nat) : Option Sys :=
  if s.callbacks.contains q ∧ s.elapsed q.2 then
    let s := { s with callbacks := s.callbacks.erase q }
    match LockfreeList.kfree s.mem q.1 with
    | some m => some { s with mem := m }
    | none => some s.fault
  else none

def worker_step (s : Sys) (k : Nat) (alloc : Bool) : Option Sys := do
  let w ← s.workers[k]?
  let (sh, w) ← w.step s.toShared alloc
  some { s with toShared := sh, workers := s.workers.set k w }

def tick (s : Sys) : Sys := { s with toShared := s.toShared.tick }

def step (s : Sys) (a : Action) : Option Sys :=
  if s.oops then none
  else
    Option.map tick <|
      match a with
      | .worker k alloc => s.worker_step k alloc
      | .exit => s.exit_step
      | .callback q => s.callback_step q

/-- The module has been loaded. -/
def init (workers : Nat) : Sys where
  toShared := Shared.init
  workers := (List.range workers).map fun k => ⟨k + 1, 0, .test, false⟩
  exit := .stop 0

end Sys

end LinuxKernelProg.Sync.LockfreeList
