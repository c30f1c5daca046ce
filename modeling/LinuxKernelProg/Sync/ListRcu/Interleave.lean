import LinuxKernelProg.Lib.Run
import LinuxKernelProg.Sync.ListRcu.Rep

/-!
# The RCU book list: calls in any interleaving

Any number of calls run at the same time, each as a thread. The atomic steps of an updater are its
scan, its allocation and copy, its store to the list under `books_lock`, and its reclamation; a
reader takes one pointer step at a time. Time is the number of steps taken: a read-side section
carries the time of its first state, and a grace period that started at `g` is over when every open
section began later than `g`. A fault stops the system (`oops`).

The fields of `Shared` from `unlinks` on are a record kept for the statements; no step reads them.
-/

namespace LinuxKernelProg.Sync.ListRcu

open LinuxKernelProg.Lib

/-- A reader with its local data: the lines `List_books` has printed, `ret` of `Is_borrowed`. -/
inductive Reader where
  | List_books (out : List Entry)
  | Is_borrowed (id ret : Int)

/-- The loop body of a reader. -/
def Reader.visit : Reader → Entry → Reader
  | .List_books out, b => .List_books (out ++ [b])
  | .Is_borrowed id ret, b => .Is_borrowed id (isBorrowedBody id b ret)

def Reader.result : Reader → Int
  | .List_books _ => 0
  | .Is_borrowed _ ret => ret

/-- What a thread was started to do. -/
inductive Op where
  | Add_book (id : Int) (name author : CString)
  | update (u : Update) (id : Int) (async : Bool)
  | Delete_book (id : Int) (async : Bool)
  | read (rd : Reader)

/-- Where a thread is. -/
inductive Pc where
  | start
  /-- `Add_book` holds a filled object that is not on the list yet. -/
  | stocked (new : Nat)
  /-- `Borrow_book` or `Return_book` has found `old_b` in a section that began at `began`. -/
  | found (old began : Nat)
  /-- It holds the copy `new_b` as well. -/
  | copied (old new began : Nat)
  /-- The updater has unlinked `old` and left its section. -/
  | retiring (old : Nat)
  /-- It waits in `synchronize_rcu` since `gp`. -/
  | waiting (old gp : Nat)
  /-- A reader is about to look at the cell `r`. -/
  | reading (r : Ref) (began : Nat) (rd : Reader)
  | done (ret : Int)

structure Thread where
  op : Op
  pc : Pc

/-- When the read-side section began that a thread is in. -/
def Pc.section? : Pc → Option Nat
  | .found _ b => some b
  | .copied _ _ b => some b
  | .reading _ b _ => some b
  | _ => none

structure Shared where
  mem : Mem
  /-- The objects queued by `call_rcu`, with the times of the queueing. -/
  callbacks : List (Nat × Nat)
  clock : Nat
  oops : Bool
  /-- The objects `list_replace_rcu` or `list_del_rcu` was applied to, and when; latest first. -/
  unlinks : List (Nat × Nat)
  /-- The objects `kfree` was applied to, latest first. -/
  frees : List Nat
  /-- The borrows and returns that returned 0, with the copy of the title; latest first. -/
  history : List (Nat × Update)
  /-- The copy of a title an object stands for, named by the object `Add_book` made. -/
  copyOf : Nat → Nat

namespace Shared

def init : Shared := ⟨Mem.init, [], 0, false, [], [], [], id⟩

def fault (sh : Shared) : Shared := { sh with oops := true }

/-- `list_add_rcu` under `books_lock`. -/
def add (sh : Shared) (n : Nat) : Shared :=
  match list_add_rcu sh.mem n with
  | some m => { sh with mem := m, copyOf := Function.update sh.copyOf n n }
  | none => sh.fault

/-- `list_replace_rcu` under `books_lock`. -/
def replace (sh : Shared) (u : Update) (old new : Nat) : Shared :=
  match list_replace_rcu sh.mem old new with
  | some m =>
    { sh with
      mem := m
      unlinks := (old, sh.clock) :: sh.unlinks
      history := (sh.copyOf old, u) :: sh.history
      copyOf := Function.update sh.copyOf new (sh.copyOf old) }
  | none => { sh.fault with unlinks := (old, sh.clock) :: sh.unlinks }

/-- `list_del_rcu` under `books_lock`. -/
def del (sh : Shared) (n : Nat) : Shared :=
  match list_del_rcu sh.mem n with
  | some m => { sh with mem := m, unlinks := (n, sh.clock) :: sh.unlinks }
  | none => { sh.fault with unlinks := (n, sh.clock) :: sh.unlinks }

def free (sh : Shared) (n : Nat) : Shared :=
  match kfree sh.mem n with
  | some m => { sh with mem := m, frees := n :: sh.frees }
  | none => { sh.fault with frees := n :: sh.frees }

end Shared

/-- One step of a thread; `none` when it has to wait or is done. `elapsed g` says that a grace
period that started at `g` is over, `alloc` whether an allocation of the step succeeds. -/
def Thread.step (sh : Shared) (elapsed : Nat → Bool) (alloc : Bool) (th : Thread) :
    Option (Shared × Pc) :=
  match th.op, th.pc with
  | .Add_book id name author, .start =>
    if alloc then
      let (m, n) := kzalloc sh.mem
      some ({ sh with mem := fill_book m n id name author }, .stocked n)
    else
      some (sh, .done 0)
  | .Add_book _ _ _, .stocked n => some (sh.add n, .done 0)
  | .update u id _, .start =>
    match lookup u sh.mem id with
    | some (.found n) => some (sh, .found n (sh.clock + 1))
    | some _ => some (sh, .done (-1))
    | none => some (sh.fault, .start)
  | .update u _ _, .found old began =>
    if alloc then
      let (m, new) := kzalloc sh.mem
      match copy_book u m old new with
      | some m => some ({ sh with mem := m }, .copied old new began)
      | none => some (sh.fault, .found old began)
    else
      some (sh, .done (-1))
  | .update u _ _, .copied old new _ => some (sh.replace u old new, .retiring old)
  | .Delete_book id _, .start =>
    match find_book sh.mem id with
    | some (some n) => some (sh.del n, .retiring n)
    | some none => some (sh, .done 0)
    | none => some (sh.fault, .start)
  | .update _ _ async, .retiring old | .Delete_book _ async, .retiring old =>
    if async then
      some ({ sh with callbacks := sh.callbacks ++ [(old, sh.clock)] }, .done 0)
    else
      some (sh, .waiting old sh.clock)
  | .update _ _ _, .waiting old gp | .Delete_book _ _, .waiting old gp =>
    if elapsed gp then some (sh.free old, .done 0) else none
  | .read rd, .start => some (sh, .reading sh.mem.books.next (sh.clock + 1) rd)
  | .read _, .reading .books _ rd => some (sh, .done rd.result)
  | .read _, .reading (.book n) began rd =>
    match sh.mem.heap n with
    | some b => some (sh, .reading b.node.next began (rd.visit b.toEntry))
    | none => some (sh.fault, .reading (.book n) began rd)
  | .read _, .reading r began rd => some (sh.fault, .reading r began rd)
  | _, _ => none

structure Sys extends Shared where
  threads : List Thread

namespace Sys

def init : Sys := ⟨Shared.init, []⟩

/-- Every open read-side section began after `g`. -/
def elapsed (s : Sys) (g : Nat) : Bool :=
  s.threads.all fun th => th.pc.section?.all fun b => g < b

end Sys

inductive Action where
  /-- Somebody calls a function of the module. -/
  | spawn (op : Op)
  /-- The thread takes a step; `alloc` is what the allocator answers if it asks. -/
  | run (t : Nat) (alloc : Bool)
  /-- A queued `Reclaim_callback` runs. -/
  | callback (q : Nat × Nat)

def Shared.tick (sh : Shared) : Shared := { sh with clock := sh.clock + 1 }

def Sys.step (s : Sys) (a : Action) : Option Sys :=
  if s.oops then none
  else
    match a with
    | .spawn op => some ⟨s.tick, s.threads ++ [⟨op, .start⟩]⟩
    | .run t alloc => do
      let th ← s.threads[t]?
      let (sh, pc) ← th.step s.toShared s.elapsed alloc
      some ⟨sh.tick, s.threads.set t { th with pc := pc }⟩
    | .callback q =>
      if q ∈ s.callbacks ∧ s.elapsed q.2 then
        some ⟨({ s.toShared with callbacks := s.callbacks.erase q }.free q.1).tick, s.threads⟩
      else none

/-- The object a step of a thread applies `list_replace_rcu` or `list_del_rcu` to. -/
def Thread.applies (sh : Shared) (th : Thread) : Option Nat :=
  match th.op, th.pc with
  | .update _ _ _, .copied old _ _ => some old
  | .Delete_book id _, .start => (find_book sh.mem id).join
  | _, _ => none

def Sys.applies (s : Sys) : Action → Option Nat
  | .run t _ => s.threads[t]?.bind fun th => th.applies s.toShared
  | _ => none

/-- The objects on the list, read off by its `next` pointers. -/
def nodes (m : Mem) : Option (List Nat) :=
  list_for_each_entry m (fun n _ ns => .yield (ns ++ [n])) (m.next + 1) m.books.next []

/-- The object is on the list. -/
def OnList (m : Mem) (n : Nat) : Prop := ∃ ns, nodes m = some ns ∧ n ∈ ns

/-- The borrows and returns of one copy, latest first. -/
def opsOn (h : List (Nat × Update)) (c : Nat) : List Update :=
  h.filterMap fun p => if p.1 = c then some p.2 else none

/-! ## Conditions on a step -/

/-- Between the scan of a `Borrow_book` or `Return_book` and its `list_replace_rcu` no call has
unlinked the object the scan found. -/
def Undisturbed (s : Sys) : Action → Prop
  | .run t _ =>
    match s.threads[t]? with
    | some ⟨.update _ _ _, .copied old _ began⟩ => ∀ p ∈ s.unlinks, p.1 = old → p.2 < began
    | _ => True
  | _ => True

def Op.updates : Op → Bool
  | .read _ => false
  | _ => true

def Pc.isDone : Pc → Bool
  | .done _ => true
  | _ => false

/-- An updater is only called when no other one is in progress. -/
def Serial (s : Sys) : Action → Prop
  | .spawn op => op.updates → ∀ th ∈ s.threads, th.op.updates → th.pc.isDone
  | _ => True

instance Serial.decidable (s : Sys) : ∀ a, Decidable (Serial s a)
  | .spawn op =>
    inferInstanceAs (Decidable (op.updates → ∀ th ∈ s.threads, th.op.updates → th.pc.isDone))
  | .run _ _ => inferInstanceAs (Decidable True)
  | .callback _ => inferInstanceAs (Decidable True)

/-- The step does not store to the list. -/
def Quiet (s : Sys) (a : Action) : Prop :=
  s.applies a = none ∧
    match a with
    | .run t _ => ∀ th, s.threads[t]? = some th → ∀ n, th.pc ≠ .stocked n
    | _ => True

end LinuxKernelProg.Sync.ListRcu
