import LinuxKernelProg.Lib.Ledger
import LinuxKernelProg.Lib.Text
import LinuxKernelProg.Sync.ListRcu.Interleave

/-!
# The RCU book list: the module from its loading to its unloading

`list_rcu_example_init` makes all the calls, one after the other, in `Test_example(0)` and then in
`Test_example(1)`; callbacks run at any time in between. `list_rcu_example_exit` returns at once.
The module owes a callback for each book that a call with `async` takes off the list.
-/

namespace LinuxKernelProg.Sync.ListRcu

open LinuxKernelProg.Lib

def BOOK1 : CString := ⟨str "BOOK1", by decide⟩

def BOOK2 : CString := ⟨str "BOOK2", by decide⟩

def BOOK3 : CString := ⟨str "BOOK3", by decide⟩

def xyz : CString := ⟨str "xyz", by decide⟩

def zbc : CString := ⟨str "zbc", by decide⟩

def rubini : CString := ⟨str "rubini", by decide⟩

/-- The calls of `Test_example`, each by what the uninitialised local of `Is_borrowed` holds. -/
def Test_example (async : Bool) : List (Int → Op) := [
  fun _ => .Add_book 102 BOOK1 xyz,
  fun _ => .Add_book 114 BOOK2 zbc,
  fun _ => .read (.List_books []),
  fun _ => .update .Borrow 114 async,
  fun ret => .read (.Is_borrowed 114 ret),
  fun _ => .Add_book 119 BOOK3 rubini,
  fun _ => .read (.List_books []),
  fun _ => .update .Return 114 async,
  fun ret => .read (.Is_borrowed 114 ret),
  fun _ => .Delete_book 114 async,
  fun _ => .read (.List_books []),
  fun _ => .Delete_book 119 async,
  fun _ => .Delete_book 102 async,
  fun _ => .read (.List_books [])]

/-- The module with the calls that `list_rcu_example_init` has still to make. -/
structure Loaded where
  sys : Sys
  calls : List (Int → Op)
  /-- `list_rcu_example_exit` has returned. -/
  returned : Bool

namespace Loaded

inductive Action where
  /-- The next call is made. -/
  | call (ret : Int)
  /-- The call `t` takes a step; `alloc` is what the allocator answers if it asks. -/
  | run (t : Nat) (alloc : Bool)
  | callback (q : Nat × Nat)
  | exit

/-- Every call that was made has returned. -/
def idle (s : Loaded) : Bool := s.sys.threads.all fun th => th.pc.isDone

def step (s : Loaded) : Action → Option Loaded
  | .call ret =>
    match s.calls with
    | [] => none
    | op :: ops =>
      if s.idle then (s.sys.step (.spawn (op ret))).map fun sys =>
        { s with sys := sys, calls := ops }
      else none
  | .run t alloc => (s.sys.step (.run t alloc)).map fun sys => { s with sys := sys }
  | .callback q => (s.sys.step (.callback q)).map fun sys => { s with sys := sys }
  | .exit =>
    if s.calls.isEmpty && s.idle && !s.sys.oops then some { s with returned := true } else none

def init : Loaded := ⟨Sys.init, Test_example false ++ Test_example true, false⟩

end Loaded

def Op.async : Op → Bool
  | .update _ _ async => async
  | .Delete_book _ async => async
  | _ => false

/-- A callback is owed for a book that a call with `async` takes off the list. -/
def Thread.owes (sh : Shared) (th : Thread) : Bool := th.op.async && (th.applies sh).isSome

/-- A book is off the list that will be queued. -/
def Thread.hand (th : Thread) : Bool :=
  match th.pc with
  | .retiring _ => th.op.async
  | _ => false

def unload : Unload (Nat × Nat) where
  State := Loaded
  Action := Loaded.Action
  step := Loaded.step
  init := Loaded.init
  returned := Loaded.returned
  pending s := s.sys.callbacks
  callback
    | .callback _ => true
    | _ => false
  owes s
    | .run t _ => (s.sys.threads[t]?).any fun th => th.owes s.sys.toShared
    | _ => false

namespace Shared

variable (sh : Shared) (u : Update) (n k : Nat)

theorem add_callbacks : (sh.add n).callbacks = sh.callbacks := by
  unfold Shared.add
  split <;> rfl

theorem replace_callbacks : (sh.replace u n k).callbacks = sh.callbacks := by
  unfold Shared.replace
  split <;> rfl

theorem del_callbacks : (sh.del n).callbacks = sh.callbacks := by
  unfold Shared.del
  split <;> rfl

theorem free_callbacks : (sh.free n).callbacks = sh.callbacks := by
  unfold Shared.free
  split <;> rfl

end Shared

variable {sh sh' : Shared} {elapsed : Nat → Bool} {alloc : Bool} {th : Thread} {pc' : Pc}

theorem thread_due (h : th.step sh elapsed alloc = some (sh', pc')) :
    sh'.callbacks.length + (Thread.hand ⟨th.op, pc'⟩).toNat =
      sh.callbacks.length + th.hand.toNat + (th.owes sh).toNat := by
  obtain ⟨op, pc⟩ := th
  unfold Thread.step at h
  simp only at h
  split at h
  case h_1 id name author =>
    split at h <;> cases h <;> rfl
  case h_2 id name author n =>
    cases h
    rw [sh.add_callbacks]
    rfl
  case h_3 u id async =>
    split at h <;> cases h <;> simp [Thread.hand, Thread.owes, Thread.applies, Shared.fault]
  case h_4 u id async old b =>
    split at h
    · split at h <;> cases h <;> simp [Thread.hand, Thread.owes, Thread.applies, Shared.fault]
    · cases h
      simp [Thread.hand, Thread.owes, Thread.applies]
  case h_5 u id async old new b =>
    cases h
    rw [sh.replace_callbacks]
    simp [Thread.hand, Thread.owes, Thread.applies]
  case h_6 id async =>
    split at h
    · next n hfind =>
      cases h
      rw [sh.del_callbacks]
      simp [Thread.hand, Thread.owes, Thread.applies, hfind]
    · next hfind =>
      cases h
      simp [Thread.hand, Thread.owes, Thread.applies, hfind]
    · next hfind =>
      cases h
      simp [Thread.hand, Thread.owes, Thread.applies, hfind, Shared.fault]
  case h_7 u id async old | h_8 id async old =>
    cases async <;> cases h
    · rfl
    · change (sh.callbacks ++ [(old, sh.clock)]).length + 0 = sh.callbacks.length + 1 + 0
      rw [List.length_append]
      rfl
  case h_9 u id async old gp | h_10 id async old gp =>
    split at h
    · cases h
      rw [sh.free_callbacks]
      simp [Thread.hand, Thread.owes, Thread.applies]
    · cases h
  case h_11 rd | h_12 rd0 b rd =>
    cases h
    rfl
  case h_13 rd0 n b rd =>
    split at h <;> cases h <;> rfl
  case h_14 rd0 r b rd _ _ =>
    cases h
    rfl
  case h_15 => cases h

/-! ## The account -/

/-- How many books are off the list that will be queued. -/
def hands (ths : List Thread) : Nat := ths.countP Thread.hand

/-- A step of the book list, by a call or by a callback. -/
theorem run_due {s s' : Sys} {t : Nat} (h : s.step (.run t alloc) = some s') :
    s'.callbacks.length + hands s'.threads =
      s.callbacks.length + hands s.threads +
        ((s.threads[t]?).any fun th => th.owes s.toShared).toNat := by
  unfold Sys.step at h
  split at h
  · cases h
  obtain ⟨th, hth, h⟩ := Option.bind_eq_some_iff.1 h
  obtain ⟨⟨sh, pc⟩, hstep, h⟩ := Option.bind_eq_some_iff.1 h
  cases h
  have hdue := thread_due hstep
  have hhands := countP_set_add hth Thread.hand { th with pc := pc }
  rw [hth, Option.any_some]
  change sh.callbacks.length + hands (s.threads.set t { th with pc := pc }) = _
  unfold hands
  omega

theorem callback_due {s s' : Sys} {q : Nat × Nat} (h : s.step (.callback q) = some s') :
    s'.callbacks.length + 1 = s.callbacks.length ∧ s'.threads = s.threads := by
  unfold Sys.step at h
  split at h
  · cases h
  simp only at h
  split at h
  · next hq =>
    cases h
    refine ⟨?_, rfl⟩
    change (Shared.free _ _).callbacks.length + 1 = _
    rw [Shared.free_callbacks]
    exact List.length_erase_add_one hq.1
  · cases h

theorem spawn_due {s s' : Sys} {op : Op} (h : s.step (.spawn op) = some s') :
    s'.callbacks = s.callbacks ∧ hands s'.threads = hands s.threads := by
  unfold Sys.step at h
  split at h
  · cases h
  cases h
  refine ⟨rfl, ?_⟩
  unfold hands
  rw [List.countP_append]
  rfl

/-- No call is in progress when the exit function returns. -/
theorem hands_of_idle {s : Loaded} (h : s.idle = true) : hands s.sys.threads = 0 := by
  refine List.countP_eq_zero.2 fun th hth => ?_
  have hdone := List.all_eq_true.1 h th hth
  obtain ⟨op, pc⟩ := th
  cases pc with
  | done ret => exact Bool.false_ne_true
  | _ => nomatch hdone

theorem call_cases {s t : Loaded} {ret : Int} (h : s.step (.call ret) = some t) :
    ∃ op ops sys, s.sys.step (.spawn op) = some sys ∧ t = { s with sys := sys, calls := ops } := by
  simp only [Loaded.step] at h
  split at h
  · cases h
  · next op ops hcalls =>
    split at h
    · obtain ⟨sys, hsys, rfl⟩ := Option.map_eq_some_iff.1 h
      exact ⟨op ret, ops, sys, hsys, rfl⟩
    · cases h

theorem exit_cases {s t : Loaded} (h : s.step .exit = some t) :
    s.idle = true ∧ t = { s with returned := true } := by
  simp only [Loaded.step] at h
  split at h
  · next hexit =>
    rw [Bool.and_eq_true, Bool.and_eq_true] at hexit
    exact ⟨hexit.1.2, (Option.some.inj h).symm⟩
  · cases h

def account : unload.Account where
  Inv s := s.returned = true → s.idle = true
  hand s := hands s.sys.threads
  inv_init := nofun
  due_init := rfl
  step_inv := by
    intro s a t _ hret h
    cases a with
    | call ret =>
      obtain ⟨op, ops, sys, -, rfl⟩ := call_cases h
      exact fun hret' => absurd hret' (Bool.eq_false_iff.1 hret)
    | run k alloc =>
      obtain ⟨sys, -, rfl⟩ := Option.map_eq_some_iff.1 h
      exact fun hret' => absurd hret' (Bool.eq_false_iff.1 hret)
    | callback q =>
      obtain ⟨sys, -, rfl⟩ := Option.map_eq_some_iff.1 h
      exact fun hret' => absurd hret' (Bool.eq_false_iff.1 hret)
    | exit =>
      obtain ⟨hidle, rfl⟩ := exit_cases h
      exact fun _ => hidle
  step_due := by
    intro s a t _ _ h
    cases a with
    | call ret =>
      obtain ⟨op, ops, sys, hsys, rfl⟩ := call_cases h
      obtain ⟨hcallbacks, hthreads⟩ := spawn_due hsys
      change sys.callbacks.length + hands sys.threads = s.sys.callbacks.length + hands s.sys.threads
      rw [hcallbacks, hthreads]
    | run k alloc =>
      obtain ⟨sys, hsys, rfl⟩ := Option.map_eq_some_iff.1 h
      exact run_due hsys
    | callback q =>
      obtain ⟨sys, hsys, rfl⟩ := Option.map_eq_some_iff.1 h
      obtain ⟨hlength, hthreads⟩ := callback_due hsys
      change sys.callbacks.length + hands sys.threads + 1 =
        s.sys.callbacks.length + hands s.sys.threads
      rw [hthreads]
      omega
    | exit =>
      obtain ⟨-, rfl⟩ := exit_cases h
      rfl
  hand_returned := fun hs hret => hands_of_idle (hs hret)

end LinuxKernelProg.Sync.ListRcu
