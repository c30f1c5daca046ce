import LinuxKernelProg.Lib.Kthread
import LinuxKernelProg.Sync.KrefExample
import LinuxKernelProg.Sync.RefcountExample

/-!
# Stopping the threads of the reference count examples

What the steps of `kref_example.c` and `refcount_example.c` do to the threads that their exit
functions stop. A thread leaves by itself when its rounds are over: five in `worker_thread`, eight
in `user_thread_fn`.
-/

namespace LinuxKernelProg.Sync

open LinuxKernelProg.Lib

/-! ## `kref_example.c` -/

namespace KrefExample

/-- The loop has run to its bound, and nobody has asked the thread to stop. -/
def Worker.leaves (w : Worker) : Bool :=
  match w.pc with
  | .loop i => 5 ≤ i && !w.should_stop
  | _ => false

def Worker.task (w : Worker) : Task := ⟨w.should_stop, w.pc = .exited⟩

/-- The thread that a step stops. -/
def Sys.stops (s : Sys) : Action → Option Nat
  | .main _ =>
    match s.main with
    | .stop _ i => (s.workers[i]?).map fun _ => i
    | _ => none
  | .worker _ => none

/-- The thread that leaves in a step. -/
def Sys.leaves (s : Sys) : Action → Option Nat
  | .main _ => none
  | .worker t => (s.workers[t]?).bind fun w => if w.leaves then some t else none

def threads : Kthreads where
  State := Sys
  Action := Action
  step := Sys.step
  init := .init
  tasks s := s.workers.map Worker.task
  stops := Sys.stops
  leaves := Sys.leaves

/-- The thread has still to be stopped, if there is one. -/
def Main.toStop : Main → Nat → Prop
  | .create, _ => True
  | .no_object, _ => True
  | .run _, _ => True
  | .loaded, _ => True
  | .stop _ i, t => i ≤ t
  | .wait _ i, t => i < t
  | _, _ => False

/-- Only a thread that `kthread_stop` was called for is asked to stop. -/
def AskedInv (s : Sys) : Prop :=
  ∀ (t : Nat) w, s.workers[t]? = some w → s.main.toStop t → w.should_stop = false

variable {s t : Sys} {sh sh' : Shared} {w w' : Worker}

theorem Worker.step_leaves (h : w.step sh = some (sh', w')) : w'.should_stop = w.should_stop ∧
    w.pc ≠ .exited ∧ (decide (w'.pc = .exited) && !w.should_stop) = w.leaves := by
  obtain ⟨id, should_stop, pc⟩ := w
  unfold Worker.step at h
  cases pc <;> simp only at h
  case created =>
    cases h
    cases should_stop <;> exact ⟨rfl, nofun, rfl⟩
  case loop i =>
    cases h
    refine ⟨rfl, nofun, ?_⟩
    unfold leaves
    by_cases hi : i < 5
    · cases should_stop <;> simp [hi, Nat.not_le.2 hi]
    · cases should_stop <;> simp [hi, Nat.not_lt.1 hi]
  case test i =>
    cases h
    cases sh.global_obj <;> exact ⟨rfl, nofun, rfl⟩
  case get i => split at h <;> cases h <;> exact ⟨rfl, nofun, rfl⟩
  case load i =>
    cases h
    cases sh.global_obj <;> exact ⟨rfl, nofun, rfl⟩
  case put i =>
    cases h
    cases sh.refcount.dec_and_test.2 <;> exact ⟨rfl, nofun, rfl⟩
  case oops => cases h
  case exited => cases h
  all_goals
    cases h
    exact ⟨rfl, nofun, rfl⟩

theorem Path.toStop_stop {p : Path} {i j : Nat} (h : (p.stop i).toStop j) : i ≤ j := by
  unfold Path.stop at h
  split at h
  · exact h
  · cases p <;> cases h

theorem Path.not_toStop_after_put {p : Path} {j : Nat} : ¬ p.after_put.toStop j := by
  cases p <;> exact id

/-- What a step of the module does to the threads: it stops one, it makes one, or it leaves them
alone. -/
theorem main_step_cases {ok : Bool} (h : s.main_step ok = some t) :
    (∃ p i w, s.main = .stop p i ∧ s.workers[i]? = some w ∧ t.main = .wait p i ∧
        t.workers = s.workers.set i { w with should_stop := true }) ∨
      ((∀ p i, s.main = .stop p i → s.workers[i]? = none) ∧
        (∀ j, t.main.toStop j → s.main.toStop j) ∧
        (t.workers = s.workers ∨ ∃ id, t.workers = s.workers ++ [⟨id, false, .created⟩])) := by
  unfold Sys.main_step at h
  cases hmain : s.main <;> simp only [hmain] at h
  case create =>
    split at h <;> cases h <;> exact .inr ⟨nofun, fun _ _ => trivial, .inl rfl⟩
  case run n =>
    split at h <;> cases h
    · exact .inr ⟨nofun, fun _ _ => trivial, .inr ⟨_, rfl⟩⟩
    · exact .inr ⟨nofun, fun _ _ => trivial, .inl rfl⟩
  case loaded =>
    cases h
    exact .inr ⟨nofun, fun _ _ => trivial, .inl rfl⟩
  case stop p i =>
    split at h <;> cases h
    case h_1 w hw => exact .inl ⟨p, i, w, rfl, hw, rfl, rfl⟩
    case h_2 hw =>
      refine .inr ⟨fun q k hq => ?_, fun j hj => Nat.le_of_succ_le (Path.toStop_stop hj), .inl rfl⟩
      cases hq
      exact hw
  case wait p i =>
    obtain ⟨w, -, h⟩ := Option.bind_eq_some_iff.1 h
    split at h <;> cases h
    exact .inr ⟨nofun, fun j hj => Path.toStop_stop hj, .inl rfl⟩
  case test =>
    cases h
    refine .inr ⟨nofun, fun j hj => ?_, .inl rfl⟩
    cases hobj : s.global_obj <;> rw [hobj] at hj <;> exact hj
  case put p =>
    split at h <;> cases h
    · refine .inr ⟨nofun, fun j hj => ?_, .inl rfl⟩
      cases hlast : s.refcount.dec_and_test.2 <;> simp only [hlast] at hj
      · exact absurd hj Path.not_toStop_after_put
      · exact hj
    · exact .inr ⟨nofun, fun _ hj => hj, .inl rfl⟩
  case release p =>
    cases h
    exact .inr ⟨nofun, fun _ hj => absurd hj Path.not_toStop_after_put, .inl rfl⟩
  case clear =>
    cases h
    exact .inr ⟨nofun, fun _ hj => hj, .inl rfl⟩
  all_goals cases h

theorem worker_step_cases {k : Nat} (h : s.step (.worker k) = some t) :
    ∃ sh w w', s.workers[k]? = some w ∧ w.step s.toShared = some (sh, w') ∧
      t.workers = s.workers.set k w' ∧ t.main = s.main := by
  obtain ⟨w, hw, h⟩ := Option.bind_eq_some_iff.1 h
  obtain ⟨⟨sh, w'⟩, hstep, h⟩ := Option.bind_eq_some_iff.1 h
  cases h
  exact ⟨sh, w, w', hw, hstep, rfl, rfl⟩

theorem AskedInv.step {a : Action} (hs : AskedInv s) (h : s.step a = some t) : AskedInv t := by
  intro j v hv htoStop
  cases a with
  | worker k =>
    obtain ⟨sh, w, w', hw, hstep, hworkers, hmain⟩ := worker_step_cases h
    rw [hworkers] at hv
    rw [hmain] at htoStop
    rcases getElem?_set_cases hv with ⟨rfl, rfl⟩ | ⟨-, hv⟩
    · rw [(Worker.step_leaves hstep).1]
      exact hs j w hw htoStop
    · exact hs j v hv htoStop
  | main ok =>
    rcases main_step_cases h with
        ⟨p, i, w, hmain, hw, ht, hworkers⟩ | ⟨-, hle, hworkers | ⟨id, hworkers⟩⟩
    · rw [hworkers] at hv
      rw [ht] at htoStop
      have hij : i < j := htoStop
      rw [List.getElem?_set_ne (Nat.ne_of_lt hij)] at hv
      refine hs j v hv ?_
      rw [hmain]
      exact Nat.le_of_lt hij
    · rw [hworkers] at hv
      exact hs j v hv (hle j htoStop)
    · rw [hworkers] at hv
      by_cases hj : j < s.workers.length
      · rw [List.getElem?_append_left hj] at hv
        exact hs j v hv (hle j htoStop)
      · rw [List.getElem?_append_right (Nat.not_lt.1 hj), List.getElem?_singleton] at hv
        split at hv <;> cases hv
        rfl

theorem task_getElem? {k : Nat} (hw : s.workers[k]? = some w) :
    (threads.tasks s)[k]? = some w.task :=
  (List.getElem?_map ..).trans (congrArg _ hw)

theorem tasks_set {k : Nat} (h : t.workers = s.workers.set k w) :
    threads.tasks t = (threads.tasks s).set k w.task :=
  (congrArg _ h).trans List.map_set

theorem effect {a : Action} (hs : AskedInv s) (h : s.step a = some t) : threads.Effect s a t := by
  cases a with
  | worker k =>
    obtain ⟨sh, w, w', hw, hstep, hworkers, -⟩ := worker_step_cases h
    obtain ⟨hstop, hpc, hleaves⟩ := Worker.step_leaves hstep
    refine .work k w.should_stop (decide (w'.pc = .exited)) rfl ?_ ?_ ?_
    · rw [hleaves]
      exact (congrArg (Option.bind · _) hw).trans rfl
    · rw [task_getElem? hw, Worker.task, decide_eq_false hpc]
    · rw [tasks_set hworkers, Worker.task, hstop]
  | main ok =>
    rcases main_step_cases h with ⟨p, i, w, hmain, hw, ht, hworkers⟩ | ⟨hnone, -, hworkers⟩
    · have hfresh := hs i w hw (by rw [hmain]; exact Nat.le_refl i)
      refine .stop i (decide (w.pc = .exited)) ?_ rfl ?_ (tasks_set hworkers)
      · change s.stops (.main ok) = some i
        unfold Sys.stops
        simp only [hmain, hw, Option.map_some]
      · rw [task_getElem? hw, Worker.task, hfresh]
    · have hstops : s.stops (.main ok) = none := by
        unfold Sys.stops
        simp only
        split
        · next p i hmain => rw [hnone p i hmain, Option.map_none]
        · rfl
      rcases hworkers with hworkers | ⟨id, hworkers⟩
      · exact .other hstops rfl (congrArg (List.map Worker.task) hworkers)
      · exact .make hstops rfl ((congrArg (List.map Worker.task) hworkers).trans List.map_append)

def account : threads.Account where
  Inv := AskedInv
  inv_init := nofun
  inv_step hs h := hs.step h
  returned_init := nofun
  effect := effect

end KrefExample

/-! ## `refcount_example.c` -/

namespace RefcountExample

/-- Where `refcount_example_exit` is. -/
inductive Exit where
  /-- `kthread_stop` of a thread comes next, and behind the last one the teardown. -/
  | stop (k : Nat)
  /-- It waits until the thread has returned. -/
  | join (k : Nat)
  /-- In its last block. -/
  | teardown
  deriving DecidableEq

/-- The module, with what `kthread_should_stop()` returns to each of the threads. -/
structure Loaded extends Sys where
  should_stop : List Bool
  exit : Exit

inductive Event where
  | user (t : Nat)
  | exit

namespace Loaded

/-- A step of `refcount_example_exit`. -/
def exit_step (s : Loaded) : Option Loaded :=
  match s.exit with
  | .stop k =>
    if k < s.users.length then some { s with
      should_stop := s.should_stop.set k true, exit := .join k }
    else some { s with exit := .teardown }
  | .join k =>
    if (s.users[k]?).any fun u => u.pc = .exited then some { s with exit := .stop (k + 1) }
    else none
  | .teardown => (s.toSys.step .exit).map fun sys => { s with toSys := sys }

def step (s : Loaded) : Event → Option Loaded
  | .user t => do
    let stop ← s.should_stop[t]?
    let sys ← s.toSys.step (.user t stop)
    some { s with toSys := sys }
  | .exit => s.exit_step

/-- The module has been loaded, with these threads. -/
def init (thread_ids : List (BitVec 32)) : Loaded where
  toSys := ⟨.init, thread_ids.map fun id => ⟨id, 0, .loop⟩, .lock⟩
  should_stop := thread_ids.map fun _ => false
  exit := .stop 0

/-- The thread that a step stops. -/
def stops (s : Loaded) : Event → Option Nat
  | .exit =>
    match s.exit with
    | .stop k => if k < s.users.length then some k else none
    | _ => none
  | .user _ => none

def tasks (s : Loaded) : List Task :=
  List.zipWith (fun stop u => ⟨stop, decide (u.pc = .exited)⟩) s.should_stop s.users

end Loaded

/-- The loop has run to its bound, and nobody has asked the thread to stop. -/
def User.leaves (stop : Bool) (u : User) : Bool := u.pc = .loop && 8 ≤ u.operations && !stop

def threads (thread_ids : List (BitVec 32)) : Kthreads where
  State := Loaded
  Action := Event
  step := Loaded.step
  init := .init thread_ids
  tasks := Loaded.tasks
  stops := Loaded.stops
  leaves s
    | .exit => none
    | .user t => (s.should_stop[t]?).bind fun stop =>
      (s.users[t]?).bind fun u => if u.leaves stop then some t else none

variable {s t : Loaded} {sh sh' : Shared} {u u' : User} {stop : Bool} {k : Nat}

/-- Each thread has its flag, and only those that `kthread_stop` was called for are asked to
stop. -/
structure Asked (s : Loaded) : Prop where
  length : s.should_stop.length = s.users.length
  fresh : ∀ (k j : Nat), s.exit = .stop k ∧ k ≤ j ∨ s.exit = .join k ∧ k < j →
    ∀ stop, s.should_stop[j]? = some stop → stop = false

theorem User.step_leaves (h : u.step sh stop = some (sh', u')) :
    u.pc ≠ .exited ∧ (decide (u'.pc = .exited) && !stop) = u.leaves stop := by
  obtain ⟨id, operations, pc⟩ := u
  unfold User.step at h
  cases pc <;> simp only at h
  case loop =>
    cases h
    refine ⟨nofun, ?_⟩
    unfold User.leaves
    by_cases hi : operations < 8
    · cases stop <;> simp [hi, Nat.not_le.2 hi]
    · cases stop <;> simp [hi, Nat.not_lt.1 hi]
  case lock =>
    split at h <;> cases h
    exact ⟨nofun, rfl⟩
  case read =>
    cases h
    cases sh.shared_resource <;> exact ⟨nofun, rfl⟩
  case unlock res =>
    cases h
    cases res <;> exact ⟨nofun, rfl⟩
  case use =>
    cases h
    cases sh.active <;> exact ⟨nofun, rfl⟩
  case put =>
    cases h
    cases sh.refcount.dec_and_test.2 <;> exact ⟨nofun, rfl⟩
  case exited => cases h
  all_goals
    cases h
    exact ⟨nofun, rfl⟩

theorem user_step_cases (h : s.step (.user k) = some t) :
    ∃ stop u u' sh, s.should_stop[k]? = some stop ∧
    s.users[k]? = some u ∧ u.step s.toShared stop = some (sh, u') ∧ t.should_stop = s.should_stop ∧
    t.users = s.users.set k u' ∧ t.exit = s.exit := by
  obtain ⟨stop, hstop, h⟩ := Option.bind_eq_some_iff.1 h
  obtain ⟨sys, hsys, h⟩ := Option.bind_eq_some_iff.1 h
  cases h
  obtain ⟨u, hu, hsys⟩ := Option.bind_eq_some_iff.1 hsys
  obtain ⟨⟨sh, u'⟩, hstep, hsys⟩ := Option.bind_eq_some_iff.1 hsys
  cases hsys
  exact ⟨stop, u, u', sh, hstop, hu, hstep, rfl, rfl, rfl⟩

/-- What the exit does to the threads: it stops one, or it leaves them alone. -/
theorem exit_step_cases (h : s.exit_step = some t) : t.users = s.users ∧
    ((∃ k, s.exit = .stop k ∧ k < s.users.length ∧ t.exit = .join k ∧
      t.should_stop = s.should_stop.set k true) ∨
      ((∀ k, s.exit = .stop k → ¬ k < s.users.length) ∧ t.should_stop = s.should_stop ∧
        (t.exit = .teardown ∨ ∃ k, s.exit = .join k ∧ t.exit = .stop (k + 1)))) := by
  unfold Loaded.exit_step at h
  cases hexit : s.exit <;> simp only [hexit] at h
  case stop k =>
    split at h <;> cases h
    case isTrue hk => exact ⟨rfl, .inl ⟨k, rfl, hk, rfl, rfl⟩⟩
    case isFalse hk =>
      refine ⟨rfl, .inr ⟨fun j hj => ?_, rfl, .inl rfl⟩⟩
      cases hj
      exact hk
  case join k =>
    split at h <;> cases h
    exact ⟨rfl, .inr ⟨nofun, rfl, .inr ⟨k, rfl, rfl⟩⟩⟩
  case teardown =>
    obtain ⟨sys, hsys, rfl⟩ := Option.map_eq_some_iff.1 h
    obtain ⟨⟨sh, ex⟩, -, hsys⟩ := Option.bind_eq_some_iff.1 hsys
    cases hsys
    exact ⟨rfl, .inr ⟨nofun, rfl, .inl rfl⟩⟩

theorem Asked.step {a : Event} (hs : Asked s) (h : s.step a = some t) : Asked t := by
  cases a with
  | user k =>
    obtain ⟨stop, u, u', sh, -, -, -, hstop, husers, hexit⟩ := user_step_cases h
    refine ⟨?_, ?_⟩
    · rw [hstop, husers, List.length_set]
      exact hs.length
    · rw [hstop, hexit]
      exact hs.fresh
  | exit =>
    rcases exit_step_cases h with ⟨husers, ⟨k, hexit, hk, ht, hstop⟩ | ⟨-, hstop, ht⟩⟩
    · refine ⟨?_, fun i j hij stop hj => ?_⟩
      · rw [hstop, husers, List.length_set]
        exact hs.length
      · rw [ht] at hij
        rcases hij with ⟨hcon, -⟩ | ⟨heq, hlt⟩
        · cases hcon
        · cases heq
          rw [hstop, List.getElem?_set_ne (Nat.ne_of_lt hlt)] at hj
          exact hs.fresh k j (.inl ⟨hexit, Nat.le_of_lt hlt⟩) stop hj
    · refine ⟨?_, fun i j hij stop hj => ?_⟩
      · rw [hstop, husers]
        exact hs.length
      · rw [hstop] at hj
        rcases ht with ht | ⟨k, hexit, ht⟩
        · rw [ht] at hij
          rcases hij with ⟨hcon, -⟩ | ⟨hcon, -⟩ <;> cases hcon
        · rw [ht] at hij
          rcases hij with ⟨heq, hle⟩ | ⟨hcon, -⟩
          · cases heq
            exact hs.fresh k j (.inr ⟨hexit, hle⟩) stop hj
          · cases hcon

theorem zipWith_set {α β γ : Type} (f : α → β → γ) {l : List α} {l' : List β} {k : Nat} {a : α}
    {b : β} (ha : l[k]? = some a) :
    List.zipWith f l (l'.set k b) = (List.zipWith f l l').set k (f a b) := by
  induction l generalizing l' k with
  | nil => cases ha
  | cons c l ih =>
    cases l' with
    | nil => rfl
    | cons d l' =>
      cases k with
      | zero =>
        cases ha
        rfl
      | succ k => exact congrArg (f c d :: ·) (ih ha)

theorem set_zipWith {α β γ : Type} (f : α → β → γ) {l : List α} {l' : List β} {k : Nat} {a : α}
    {b : β} (hb : l'[k]? = some b) :
    List.zipWith f (l.set k a) l' = (List.zipWith f l l').set k (f a b) := by
  rw [List.zipWith_comm, zipWith_set _ hb, List.zipWith_comm]

theorem effect {thread_ids : List (BitVec 32)} {a : Event} (hs : Asked s) (h : s.step a = some t) :
    (threads thread_ids).Effect s a t := by
  cases a with
  | user k =>
    obtain ⟨stop, u, u', sh, hstop, hu, hstep, hstop', husers, -⟩ := user_step_cases h
    obtain ⟨hpc, hleaves⟩ := User.step_leaves hstep
    refine .work k stop (decide (u'.pc = .exited)) rfl ?_ ?_ ?_
    · rw [hleaves]
      change (s.should_stop[k]?).bind _ = _
      rw [hstop, Option.bind_some, hu, Option.bind_some]
    · change s.tasks[k]? = _
      rw [Loaded.tasks, List.getElem?_zipWith, hstop, hu]
      simp only [decide_eq_false hpc]
    · change t.tasks = s.tasks.set k _
      rw [Loaded.tasks, hstop', husers]
      exact zipWith_set _ hstop
  | exit =>
    rcases exit_step_cases h with ⟨husers, ⟨k, hexit, hk, ht, hstop⟩ | ⟨hnone, hstop, ht⟩⟩
    · have hflag := List.getElem?_eq_getElem (l := s.should_stop) (hs.length ▸ hk)
      have hu := List.getElem?_eq_getElem hk
      have hfresh := hs.fresh k k (.inl ⟨hexit, Nat.le_refl k⟩) _ hflag
      rw [hfresh] at hflag
      refine .stop k (decide (s.users[k].pc = .exited)) ?_ rfl ?_ ?_
      · change s.stops .exit = some k
        unfold Loaded.stops
        simp only [hexit, if_pos hk]
      · change s.tasks[k]? = _
        rw [Loaded.tasks, List.getElem?_zipWith, hflag, hu]
      · change t.tasks = s.tasks.set k _
        rw [Loaded.tasks, hstop, husers]
        exact set_zipWith _ hu
    · refine .other ?_ rfl ?_
      · change s.stops .exit = none
        unfold Loaded.stops
        simp only
        split
        · next k hexit => exact if_neg (hnone k hexit)
        · rfl
      · change t.tasks = s.tasks
        rw [Loaded.tasks, hstop, husers]
        rfl

def account (thread_ids : List (BitVec 32)) : (threads thread_ids).Account where
  Inv := Asked
  inv_init := by
    refine ⟨?_, fun k j _ stop hstop => ?_⟩
    · change (List.map _ _).length = (List.map _ _).length
      rw [List.length_map, List.length_map]
    · obtain ⟨id, -, hid⟩ := List.mem_map.1 (List.mem_of_getElem? hstop)
      exact hid.symm
  inv_step hs h := hs.step h
  returned_init x hx := by
    obtain ⟨k, hk⟩ := List.mem_iff_getElem?.1 hx
    change (Loaded.tasks (.init thread_ids))[k]? = some x at hk
    rw [Loaded.tasks, List.getElem?_zipWith, Loaded.init, List.getElem?_map,
      List.getElem?_map] at hk
    cases hid : thread_ids[k]? with
    | none =>
      rw [hid] at hk
      cases hk
    | some id =>
      rw [hid] at hk
      cases hk
      rfl
  effect := effect

end RefcountExample

end LinuxKernelProg.Sync
