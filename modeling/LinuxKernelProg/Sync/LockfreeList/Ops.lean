import LinuxKernelProg.Lib.HalfRing
import LinuxKernelProg.Sync.LockfreeList.Basic

/-!
# The operations on the lock-free list

`list_add_rcu` and `list_del_rcu` as they are under way, apart from who is in them.
-/

namespace LinuxKernelProg.Sync.LockfreeList

open LinuxKernelProg.Lib
open LinkMem

/-- The list operation that somebody is in. -/
inductive Op where
  | idle
  | add (n : Nat) (op : Insert Ref)
  | del (n : Nat) (op : Remove Ref)
  deriving DecidableEq

/-- What comes to an end. -/
inductive Event where
  /-- `list_add_rcu` of the node. -/
  | added (n : Nat)
  /-- `list_del_rcu` of the node. -/
  | removed (n : Nat)
  deriving DecidableEq

namespace Op

def step (m : Mem) : Op → Option (Mem × Op)
  | .idle => none
  | .add n op => (op.step m (.node n) .demo_list).map fun r => (r.1, r.2.elim .idle (.add n))
  | .del n op => (op.step m (.node n) .poison).map fun r => (r.1, r.2.elim .idle (.del n))

def events (m : Mem) (op : Op) : List Event :=
  match op, op.step m with
  | .add n _, some (_, .idle) => [.added n]
  | .del n _, some (_, .idle) => [.removed n]
  | _, _ => []

/-- The next store finds the pointers that it goes by as they were loaded. -/
def Current (m : Mem) : Op → Prop
  | .idle => True
  | .add n op => op.Current m (.node n) .demo_list
  | .del n op => op.Current m (.node n)

instance (m : Mem) : DecidablePred (Current m) := fun op => by
  cases op <;> unfold Current <;> infer_instance

/-- Nothing has been done yet, or nothing is left to do. -/
def quiet : Op → Bool
  | .idle => true
  | .add _ op => op = .load
  | .del _ op => op = .loadPrev

def node : Op → Option Nat
  | .idle => none
  | .add n _ => some n
  | .del n _ => some n

/-- The node is not published yet. -/
def fresh : Op → Option Nat
  | .add _ (.back _) => none
  | .add n _ => some n
  | _ => none

/-- The node is passed over, and its `prev` pointer is not poisoned yet. -/
def poisons : Op → Option Nat
  | .del n .poison => some n
  | _ => none

/-- The node is published, and the node behind has not heard of it yet. -/
def publishes : Op → Option Nat
  | .add n (.back _) => some n
  | _ => none

/-- The first cell leads to the second one, which does not, or does no longer, lead back. -/
def late : Op → Option (Ref × Ref)
  | .add n (.back x) => some (.node n, x)
  | .del n (.forth _ x) => some (.node n, x)
  | _ => none

/-- The nodes that are shown, after a step. -/
def shown (ns : List Nat) : Op → List Nat
  | .add n (.publish _) => n :: ns
  | .del n (.forth _ _) => ns.erase n
  | _ => ns

/-- What comes to an end with the last step of an operation. -/
def ends : Op → List Event
  | .add n (.back _) => [.added n]
  | .del n .poison => [.removed n]
  | _ => []

/-- What an operation knows of its node. -/
def Ok (m : Mem) (ns : List Nat) : Op → Prop
  | .add n (.prev x) => n ∉ ns ∧ nextOf m (.node n) = some x
  | .add n (.publish x) => n ∉ ns ∧ nextOf m (.node n) = some x ∧
      prevOf m (.node n) = some .demo_list
  | .add n (.back _) => n ∈ ns
  | .add n _ => n ∉ ns
  | .del n .poison => n ∉ ns
  | _ => True

theorem node_of_fresh {op : Op} {n : Nat} (h : op.fresh = some n) : op.node = some n := by
  cases op with
  | add k op => cases op <;> cases h <;> rfl
  | _ => cases h

theorem node_of_poisons {op : Op} {n : Nat} (h : op.poisons = some n) : op.node = some n := by
  cases op with
  | del k op =>
    cases op <;> cases h
    rfl
  | _ => cases h

section

variable {op : Op} (h : op.quiet = true)
include h

theorem late_of_quiet : op.late = none := by
  cases op with
  | idle => rfl
  | add n op => cases op <;> first | rfl | cases h
  | del n op => cases op <;> first | rfl | cases h

theorem publishes_of_quiet : op.publishes = none := by
  cases op with
  | add n op => cases op <;> first | rfl | cases h
  | _ => rfl

theorem poisons_of_quiet : op.poisons = none := by
  cases op with
  | del n op => cases op <;> first | rfl | cases h
  | _ => rfl

end

theorem Ok.not_mem {m : Mem} {ns : List Nat} {op : Op} {n : Nat} (hok : op.Ok m ns)
    (h : op.fresh = some n) :
    n ∉ ns := by
  cases op with
  | add k op =>
    cases op <;> cases h
    · exact hok
    · exact hok
    · exact hok.1
    · exact hok.1
  | _ => cases h

/-- The steps that there are. -/
inductive Moves (m : Mem) : Op → Mem → Op → Prop
  | load {n x} (h : nextOf m .demo_list = some x) : Moves m (.add n .load) m (.add n (.next x))
  | next {n x m'} (h : setNext m (.node n) x = some m') :
      Moves m (.add n (.next x)) m' (.add n (.prev x))
  | prev {n x m'} (h : setPrev m (.node n) .demo_list = some m') :
      Moves m (.add n (.prev x)) m' (.add n (.publish x))
  | publish {n x m'} (h : setNext m .demo_list (.node n) = some m') :
    Moves m (.add n (.publish x)) m' (.add n (.back x))
  | addBack {n x m'} (h : setPrev m x (.node n) = some m') : Moves m (.add n (.back x)) m' .idle
  | loadPrev {n p} (h : prevOf m (.node n) = some p) :
      Moves m (.del n .loadPrev) m (.del n (.loadNext p))
  | loadNext {n p x} (h : nextOf m (.node n) = some x) :
      Moves m (.del n (.loadNext p)) m (.del n (.back p x))
  | delBack {n p x m'} (h : setPrev m x p = some m') :
      Moves m (.del n (.back p x)) m' (.del n (.forth p x))
  | forth {n p x m'} (h : setNext m p x = some m') :
      Moves m (.del n (.forth p x)) m' (.del n .poison)
  | poison {n m'} (h : setPrev m (.node n) .poison = some m') : Moves m (.del n .poison) m' .idle

theorem moves {m m' : Mem} {op op' : Op} (h : op.step m = some (m', op')) : Moves m op m' op' := by
  cases op with
  | idle => cases h
  | add n op =>
    obtain ⟨r, hr, h⟩ := Option.map_eq_some_iff.1 h
    unfold Insert.step at hr
    cases op <;> simp only at hr <;> obtain ⟨r', hr', rfl⟩ :=
      Option.map_eq_some_iff.1 hr <;> cases h
    · exact .load hr'
    · exact .next hr'
    · exact .prev hr'
    · exact .publish hr'
    · exact .addBack hr'
  | del n op =>
    obtain ⟨r, hr, h⟩ := Option.map_eq_some_iff.1 h
    unfold Remove.step at hr
    cases op <;> simp only at hr <;> obtain ⟨r', hr', rfl⟩ :=
      Option.map_eq_some_iff.1 hr <;> cases h
    · exact .loadPrev hr'
    · exact .loadNext hr'
    · exact .delBack hr'
    · exact .forth hr'
    · exact .poison hr'

theorem events_of_step {m m' : Mem} {op op' : Op} (h : op.step m = some (m', op')) :
    op.events m = op.ends := by
  unfold events
  rw [h]
  cases moves h <;> rfl

theorem node_of_step {m m' : Mem} {op op' : Op} {n : Nat} (h : op.step m = some (m', op'))
    (hn : op'.node = some n) : op.node = some n := by
  cases moves h <;> first | exact hn | cases hn

end Op

end LinuxKernelProg.Sync.LockfreeList
