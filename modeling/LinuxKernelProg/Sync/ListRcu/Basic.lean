import Mathlib.Logic.Function.Basic
import LinuxKernelProg.Lib.CString
import LinuxKernelProg.Lib.Ring

/-!
# The RCU book list: data model and operations

`sync/part3/list_rcu.c` keeps books on the kernel list `books` and updates them by copy and
replace. A `struct book` object is named by the order of its allocation, so a freed object is
never confused with a later one; reading, writing or freeing an object that is not live is a
fault (`none`). A scan may take one step more than objects were ever allocated, and running out of
steps is a fault as well: the specifications show that neither happens.

The list primitives of `<linux/rculist.h>` are the operations of `LinkMem` on this memory. The
`rcu` member of `struct book` carries no data the module reads and is left out, and so are the
log lines of the updaters.
-/

namespace LinuxKernelProg.Sync.ListRcu

open LinuxKernelProg.Lib

/-- A `struct list_head *` as it occurs in the module. -/
inductive Ref where
  /-- `&books` -/
  | books
  /-- `&b->node` -/
  | book (n : Nat)
  /-- `LIST_POISON2` -/
  | poison
  | null
deriving DecidableEq

/-- The data members of `struct book`. -/
structure Entry where
  id : Int
  name : Fin 64 → UInt8
  author : Fin 64 → UInt8
  borrow : Int

/-- `struct book`. -/
structure Book extends Entry where
  node : Link Ref

/-- The memory of the module: the list head, the live objects and how many were allocated. -/
structure Mem where
  books : Link Ref
  heap : Nat → Option Book
  next : Nat

namespace Mem

/-- `LIST_HEAD(books)`, nothing allocated. -/
def init : Mem := ⟨⟨.books, .books⟩, fun _ => none, 0⟩

def link (m : Mem) : Ref → Option (Link Ref)
  | .books => some m.books
  | .book n => (m.heap n).map Book.node
  | .poison => none
  | .null => none

def setLink (m : Mem) : Ref → Link Ref → Mem
  | .books, l => { m with books := l }
  | .book n, l =>
    { m with heap := Function.update m.heap n ((m.heap n).map fun b => { b with node := l }) }
  | .poison, _ => m
  | .null, _ => m

instance : LinkMem Mem Ref where
  link := link
  setLink := setLink
  link_setLink := by
    intro m a h l b
    cases a <;> simp only [link, Option.isSome_none, Bool.false_eq_true] at h <;>
      cases b <;> simp only [link, setLink, reduceCtorEq, ↓reduceIte, Ref.book.injEq]
    rename_i n k
    obtain ⟨x, hx⟩ := Option.isSome_iff_exists.1 (by simpa using h)
    by_cases hk : k = n
    · subst hk
      simp [hx]
    · simp [hk]

/-- A fresh object with the contents `b`. -/
def alloc (m : Mem) (b : Book) : Mem :=
  { m with heap := Function.update m.heap m.next (some b), next := m.next + 1 }

/-- The data members of a live object. -/
def entry (m : Mem) (n : Nat) : Option Entry := (m.heap n).map Book.toEntry

end Mem

/-! ## Kernel services -/

/-- `kzalloc(sizeof(struct book), ...)` when it succeeds: a fresh object of zero bytes. -/
def kzalloc (m : Mem) : Mem × Nat :=
  (m.alloc ⟨⟨0, fun _ => 0, fun _ => 0, 0⟩, .null, .null⟩, m.next)

def kfree (m : Mem) (n : Nat) : Option Mem :=
  (m.heap n).map fun _ => { m with heap := Function.update m.heap n none }

/-- `strncpy(dst, src, 64)`: at most 64 bytes of the string, the rest filled with NUL. -/
def strncpy (src : CString) : Fin 64 → UInt8 := fun i => src.bytes.getD i 0

def list_add_rcu (m : Mem) (n : Nat) : Option Mem :=
  LinkMem.insertAfter m (.book n) .books

def list_replace_rcu (m : Mem) (old new : Nat) : Option Mem :=
  LinkMem.replaceCell m (.book old) (.book new) .poison

def list_del_rcu (m : Mem) (n : Nat) : Option Mem :=
  LinkMem.removeCell m (.book n) .poison

/-- The loop of `list_for_each_entry(b, &books, node)` and of its RCU form from the cell `r` on:
`body` ends it with `.done` (a `break` or a `return`) or goes on with `.yield`. -/
def list_for_each_entry {β : Type} (m : Mem) (body : Nat → Book → β → ForInStep β) :
    Nat → Ref → β → Option β
  | 0, _, _ => none
  | _ + 1, .books, x => some x
  | fuel + 1, .book n, x => do
    let b ← m.heap n
    match body n b x with
    | .done y => some y
    | .yield y => list_for_each_entry m body fuel b.node.next y
  | _ + 1, .poison, _ => none
  | _ + 1, .null, _ => none

/-! ## The steps of the updaters -/

/-- Lines 47-50 of `Add_book` on the new object. -/
def fill_book (m : Mem) (n : Nat) (id : Int) (name author : CString) : Mem :=
  { m with heap := Function.update m.heap n ((m.heap n).map fun b =>
      { b with id := id, name := strncpy name, author := strncpy author, borrow := 0 }) }

/-- `Borrow_book` and `Return_book` differ in the flag they refuse and in the one they write. -/
inductive Update where
  | Borrow
  | Return
deriving DecidableEq

/-- The test that makes the scan return -1: `if(b->borrow)`, `if(!b->borrow)`. -/
def Update.refuses : Update → Entry → Bool
  | .Borrow, b => b.borrow != 0
  | .Return, b => b.borrow == 0

/-- `new_b->borrow = 1`, `new_b->borrow = 0`. -/
def Update.flag : Update → Int
  | .Borrow => 1
  | .Return => 0

/-- The flag that passes the test, of a book that was filled or copied. -/
def Update.wants : Update → Int
  | .Borrow => 0
  | .Return => 1

/-- What the scan of `Borrow_book` or `Return_book` ends with. -/
inductive Lookup where
  /-- the scan ends with `old_b` still NULL -/
  | absent
  /-- the first book with the id has the wrong flag -/
  | refused
  /-- `old_b` -/
  | found (n : Nat)
deriving DecidableEq

/-- Lines 67-77 of `Borrow_book`, 146-156 of `Return_book`. -/
def lookup (u : Update) (m : Mem) (id : Int) : Option Lookup :=
  list_for_each_entry m
    (fun n b x =>
      if b.id = id then .done (if u.refuses b.toEntry then .refused else .found n) else .yield x)
    (m.next + 1) m.books.next .absent

/-- Lines 90-91: `memcpy(new_b, old_b, sizeof(struct book))` and the new flag. -/
def copy_book (u : Update) (m : Mem) (old new : Nat) : Option Mem :=
  (m.heap old).map fun b =>
    { m with heap := Function.update m.heap new (some { b with borrow := u.flag }) }

/-- Lines 192-193 of `Delete_book`. -/
def find_book (m : Mem) (id : Int) : Option (Option Nat) :=
  list_for_each_entry m (fun n b x => if b.id = id then .done (some n) else .yield x)
    (m.next + 1) m.books.next none

/-! ## The readers -/

/-- The body of the loop of `Is_borrowed`; it has no `break`. -/
def isBorrowedBody (id : Int) (b : Entry) (ret : Int) : Int :=
  if b.id = id then b.borrow else ret

/-- `Is_borrowed`. `ret` is what the uninitialised local holds on entry. -/
def Is_borrowed (m : Mem) (id ret : Int) : Option Int :=
  list_for_each_entry m (fun _ b ret => .yield (isBorrowedBody id b.toEntry ret))
    (m.next + 1) m.books.next ret

/-- `List_books`, as the list of the lines it prints. -/
def List_books (m : Mem) : Option (List Entry) :=
  list_for_each_entry m (fun _ b out => .yield (out ++ [b.toEntry])) (m.next + 1) m.books.next []

/-! ## Calls run to completion

`callbacks` are the objects queued with `call_rcu` whose `Reclaim_callback` is still to run.
`handed` is a record kept for the statements: the objects the updaters have handed to `kfree` or
`call_rcu`, latest first. -/

structure State where
  mem : Mem
  callbacks : List Nat
  handed : List Nat

def State.init : State := ⟨Mem.init, [], []⟩

/-- Lines 99-104: hand the unlinked book over, by `call_rcu` or by `synchronize_rcu` and `kfree`.
No reader is running, so `synchronize_rcu` returns at once. -/
def retire (async : Bool) (s : State) (old : Nat) : Option State :=
  if async then
    some { s with callbacks := s.callbacks ++ [old], handed := old :: s.handed }
  else
    (kfree s.mem old).map fun m => { s with mem := m, handed := old :: s.handed }

/-- `alloc` says whether `kzalloc` succeeds. -/
def Add_book (id : Int) (name author : CString) (alloc : Bool) (s : State) : Option State :=
  if alloc then
    let (m, n) := kzalloc s.mem
    (list_add_rcu (fill_book m n id name author) n).map fun m => { s with mem := m }
  else
    some s

/-- The common text of `Borrow_book` and `Return_book`. -/
def update_book (u : Update) (id : Int) (async alloc : Bool) (s : State) :
    Option (State × Int) := do
  match ← lookup u s.mem id with
  | .absent => return (s, -1)
  | .refused => return (s, -1)
  | .found old =>
    if alloc then
      let (m, new) := kzalloc s.mem
      let m ← copy_book u m old new
      let m ← list_replace_rcu m old new
      let s ← retire async { s with mem := m } old
      return (s, 0)
    else
      return (s, -1)

def Borrow_book := update_book .Borrow

def Return_book := update_book .Return

def Delete_book (id : Int) (async : Bool) (s : State) : Option State := do
  match ← find_book s.mem id with
  | some n =>
    let m ← list_del_rcu s.mem n
    retire async { s with mem := m } n
  | none => return s

/-- `Reclaim_callback` for the object that was queued first, if one is queued. -/
def Reclaim_callback (s : State) : Option State :=
  match s.callbacks with
  | [] => some s
  | n :: ns => (kfree s.mem n).map fun m => { s with mem := m, callbacks := ns }

/-- A call with its arguments and with what the allocator answers; callbacks run in between. -/
inductive Call where
  | Add_book (id : Int) (name author : CString) (alloc : Bool)
  | Borrow_book (id : Int) (async alloc : Bool)
  | Return_book (id : Int) (async alloc : Bool)
  | Delete_book (id : Int) (async : Bool)
  | Reclaim_callback

/-- One call, with its return value when it has one. -/
def State.call (s : State) : Call → Option (State × Option Int)
  | .Add_book id name author alloc => (Add_book id name author alloc s).map fun s => (s, none)
  | .Borrow_book id async alloc =>
    (Borrow_book id async alloc s).map fun p => (p.1, some p.2)
  | .Return_book id async alloc =>
    (Return_book id async alloc s).map fun p => (p.1, some p.2)
  | .Delete_book id async => (Delete_book id async s).map fun s => (s, none)
  | .Reclaim_callback => (ListRcu.Reclaim_callback s).map fun s => (s, none)

/-- The calls in order, with their return values. -/
def State.calls : State → List Call → Option (State × List (Option Int))
  | s, [] => some (s, [])
  | s, c :: cs => do
    let (s, r) ← s.call c
    let (s, rs) ← State.calls s cs
    return (s, r :: rs)

end LinuxKernelProg.Sync.ListRcu
