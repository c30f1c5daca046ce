import LinuxKernelProg.Lib.Kthread
import LinuxKernelProg.Sync.LocklessQueue.Basic
import LinuxKernelProg.Sync.LockfreeList.Unload

/-!
# Stopping the threads of the lock-free examples

What the steps of `lockless_queue.c` and `lockfree_list.c` do to the threads that their exit
functions stop. A producer leaves by itself after 20 items, a consumer when it has got 25, and a
worker of the list after eight rounds, the first one only when it has printed the list.
-/

namespace LinuxKernelProg.Sync

open LinuxKernelProg.Lib

/-! ## `lockless_queue.c` -/

namespace LocklessQueue

/-- The loop has run to its bound, and nobody has asked the thread to stop. -/
def Producer.leaves (p : Producer) : Bool := p.pc = .loop && 20 ≤ p.i && !p.should_stop

def Consumer.leaves (c : Consumer) : Bool := c.pc = .loop && 25 ≤ c.consumed_count && !c.should_stop

def Producer.task (p : Producer) : Task := ⟨p.should_stop, p.pc = .returned⟩

def Consumer.task (c : Consumer) : Task := ⟨c.should_stop, c.pc = .returned⟩

namespace Sys

/-- The threads, producers first. -/
def tasks (s : Sys) : List Task := s.producers.map Producer.task ++ s.consumers.map Consumer.task

/-- The place of a thread among all of them. -/
def place (s : Sys) : Role → Nat → Nat
  | .producer, k => k
  | .consumer, k => s.producers.length + k

/-- The thread that a step stops. -/
def stops (s : Sys) : Action → Option Nat
  | .exit =>
    match s.exit with
    | .stop .producer k => (s.producers[k]?).map fun _ => s.place .producer k
    | .stop .consumer k => (s.consumers[k]?).map fun _ => s.place .consumer k
    | _ => none
  | .thread _ _ => none

/-- The thread that leaves in a step. -/
def leaves (s : Sys) : Action → Option Nat
  | .thread .producer k => (s.producers[k]?).bind fun p =>
      if p.leaves then some (s.place .producer k) else none
  | .thread .consumer k => (s.consumers[k]?).bind fun c =>
      if c.leaves then some (s.place .consumer k) else none
  | .exit => none

end Sys

def threads (producers consumers : Nat) : Kthreads where
  State := Sys
  Action := Action
  step := Sys.step
  init := .init producers consumers
  tasks := Sys.tasks
  stops := Sys.stops
  leaves := Sys.leaves

/-- The thread has still to be stopped, if there is one. -/
def Exit.toStop : Exit → Role → Nat → Prop
  | .stop .producer i, .producer, k => i ≤ k
  | .join .producer i, .producer, k => i < k
  | .stop .producer _, .consumer, _ => True
  | .join .producer _, .consumer, _ => True
  | .stop .consumer i, .consumer, k => i ≤ k
  | .join .consumer i, .consumer, k => i < k
  | _, _, _ => False

/-- Only those that `kthread_stop` was called for are asked to stop. -/
structure Asked (s : Sys) : Prop where
  producers : ∀ (k : Nat) p, s.producers[k]? = some p → s.exit.toStop .producer k →
    p.should_stop = false
  consumers : ∀ (k : Nat) c, s.consumers[k]? = some c → s.exit.toStop .consumer k →
    c.should_stop = false

variable {s t : Sys} {f f' : Queue} {p p' : Producer} {c c' : Consumer} {k : Nat}

theorem Producer.step_leaves (h : p.step f = some (f', p')) : p'.should_stop = p.should_stop ∧
    p.pc ≠ .returned ∧ (decide (p'.pc = .returned) && !p.should_stop) = p.leaves := by
  obtain ⟨id, i, pc, should_stop⟩ := p
  unfold Producer.step at h
  cases pc <;> simp only at h
  case loop =>
    cases h
    refine ⟨rfl, nofun, ?_⟩
    unfold leaves
    by_cases hi : i < 20
    · cases should_stop <;> simp [hi, Nat.not_le.2 hi]
    · cases should_stop <;> simp [hi, Nat.not_lt.1 hi]
  case full =>
    cases h
    cases f.is_full <;> exact ⟨rfl, nofun, rfl⟩
  case returned => cases h
  all_goals
    cases h
    exact ⟨rfl, nofun, rfl⟩

theorem Consumer.step_leaves (h : c.step f = some (f', c')) : c'.should_stop = c.should_stop ∧
    c.pc ≠ .returned ∧ (decide (c'.pc = .returned) && !c.should_stop) = c.leaves := by
  obtain ⟨id, n, x, pc, should_stop⟩ := c
  unfold Consumer.step at h
  cases pc <;> simp only at h
  case loop =>
    cases h
    refine ⟨rfl, nofun, ?_⟩
    unfold leaves
    by_cases hi : n < 25
    · cases should_stop <;> simp [hi, Nat.not_le.2 hi]
    · cases should_stop <;> simp [hi, Nat.not_lt.1 hi]
  case empty =>
    cases h
    cases f.is_empty <;> exact ⟨rfl, nofun, rfl⟩
  case returned => cases h
  all_goals
    cases h
    exact ⟨rfl, nofun, rfl⟩

/-- What the exit does to the threads: it stops a producer or a consumer, or it leaves them
alone. -/
theorem exit_step_cases (h : s.exit_step = some t) :
    (∃ k p, s.exit = .stop .producer k ∧ s.producers[k]? = some p ∧ t.exit = .join .producer k ∧
        t.producers = s.producers.set k { p with should_stop := true } ∧
          t.consumers = s.consumers) ∨
      (∃ k c, s.exit = .stop .consumer k ∧ s.consumers[k]? = some c ∧ t.exit = .join .consumer k ∧
        t.producers = s.producers ∧
          t.consumers = s.consumers.set k { c with should_stop := true }) ∨
      (s.stops .exit = none ∧ t.producers = s.producers ∧ t.consumers = s.consumers ∧
        ∀ r k, t.exit.toStop r k → s.exit.toStop r k) := by
  unfold Sys.exit_step at h
  unfold Sys.stops
  cases hexit : s.exit <;> simp only [hexit] at h
  case stop r k =>
    cases r with
    | producer =>
      simp only at h
      split at h <;> cases h
      case h_1 p hp => exact .inl ⟨k, p, rfl, hp, rfl, rfl, rfl⟩
      case h_2 hk =>
        refine .inr (.inr ⟨by simp only [hk, Option.map_none], rfl, rfl, fun r j hj => ?_⟩)
        cases r with
        | producer => cases hj
        | consumer => trivial
    | consumer =>
      simp only at h
      split at h <;> cases h
      case h_1 c hc => exact .inr (.inl ⟨k, c, rfl, hc, rfl, rfl, rfl⟩)
      case h_2 hk => exact .inr (.inr ⟨by simp only [hk, Option.map_none], rfl, rfl, nofun⟩)
  case join r k =>
    split at h <;> cases h
    refine .inr (.inr ⟨rfl, rfl, rfl, fun r' j hj => ?_⟩)
    cases r <;> cases r' <;> exact hj
  case reset =>
    cases h
    exact .inr (.inr ⟨rfl, rfl, rfl, nofun⟩)
  case returned => cases h

theorem Asked.step {a : Action} (hs : Asked s) (h : s.step a = some t) : Asked t := by
  cases a with
  | thread r k =>
    cases r with
    | producer =>
      obtain ⟨p, p', f, hp, hstep, rfl⟩ := producer_step_cases h
      refine ⟨fun j q hj hstop => ?_, hs.consumers⟩
      rcases getElem?_set_cases hj with ⟨rfl, rfl⟩ | ⟨-, hj⟩
      · rw [(Producer.step_leaves hstep).1]
        exact hs.producers j p hp hstop
      · exact hs.producers j q hj hstop
    | consumer =>
      obtain ⟨c, c', f, hc, hstep, rfl⟩ := consumer_step_cases h
      refine ⟨hs.producers, fun j q hj hstop => ?_⟩
      rcases getElem?_set_cases hj with ⟨rfl, rfl⟩ | ⟨-, hj⟩
      · rw [(Consumer.step_leaves hstep).1]
        exact hs.consumers j c hc hstop
      · exact hs.consumers j q hj hstop
  | exit =>
    obtain ⟨k, p, hexit, hp, ht, hproducers, hconsumers⟩ | ⟨k, c, hexit, hc, ht,
      hproducers, hconsumers⟩ |
      ⟨-, hproducers, hconsumers, hle⟩ := exit_step_cases h
    · refine ⟨fun j q hj hstop => ?_, fun j q hj _ => ?_⟩
      · rw [ht] at hstop
        have hlt : k < j := hstop
        rw [hproducers, List.getElem?_set_ne (Nat.ne_of_lt hlt)] at hj
        exact hs.producers j q hj (by rw [hexit]; exact Nat.le_of_lt hlt)
      · rw [hconsumers] at hj
        exact hs.consumers j q hj (by rw [hexit]; trivial)
    · refine ⟨fun j q _ hstop => ?_, fun j q hj hstop => ?_⟩
      · rw [ht] at hstop
        cases hstop
      · rw [ht] at hstop
        have hlt : k < j := hstop
        rw [hconsumers, List.getElem?_set_ne (Nat.ne_of_lt hlt)] at hj
        exact hs.consumers j q hj (by rw [hexit]; exact Nat.le_of_lt hlt)
    · refine ⟨fun j q hj hstop => ?_, fun j q hj hstop => ?_⟩
      · rw [hproducers] at hj
        exact hs.producers j q hj (hle _ _ hstop)
      · rw [hconsumers] at hj
        exact hs.consumers j q hj (hle _ _ hstop)

theorem tasks_producer (hp : s.producers[k]? = some p) :
    s.tasks[s.place .producer k]? = some p.task := by
  have hlt := (List.getElem?_eq_some_iff.1 hp).1
  rw [Sys.tasks, Sys.place, List.getElem?_append_left (by rwa [List.length_map]), List.getElem?_map,
    hp, Option.map_some]

theorem tasks_consumer (hc : s.consumers[k]? = some c) :
    s.tasks[s.place .consumer k]? = some c.task := by
  rw [Sys.tasks, Sys.place,
    List.getElem?_append_right (by rw [List.length_map]; exact Nat.le_add_right _ k),
    List.length_map, Nat.add_sub_cancel_left, List.getElem?_map, hc, Option.map_some]

theorem tasks_set_producer (hp : s.producers[k]? = some p)
    (hproducers : t.producers = s.producers.set k p') (hconsumers : t.consumers = s.consumers) :
    t.tasks = s.tasks.set (s.place .producer k) p'.task := by
  have hlt := (List.getElem?_eq_some_iff.1 hp).1
  rw [Sys.tasks, Sys.tasks, Sys.place, hproducers, hconsumers, List.map_set,
    List.set_append_left _ _ (by rwa [List.length_map])]

theorem tasks_set_consumer (hproducers : t.producers = s.producers)
    (hconsumers : t.consumers = s.consumers.set k c') :
    t.tasks = s.tasks.set (s.place .consumer k) c'.task := by
  rw [Sys.tasks, Sys.tasks, Sys.place, hproducers, hconsumers, List.map_set,
    List.set_append_right _ _ (by rw [List.length_map]; exact Nat.le_add_right _ k),
      List.length_map,
    Nat.add_sub_cancel_left]

theorem effect {producers consumers : Nat} {a : Action} (hs : Asked s) (h : s.step a = some t) :
    (threads producers consumers).Effect s a t := by
  cases a with
  | thread r k =>
    cases r with
    | producer =>
      obtain ⟨p, p', f, hp, hstep, rfl⟩ := producer_step_cases h
      obtain ⟨hstop, hpc, hleaves⟩ := Producer.step_leaves hstep
      refine .work (s.place .producer k) p.should_stop (decide (p'.pc = .returned)) rfl ?_ ?_ ?_
      · rw [hleaves]
        change (s.producers[k]?).bind _ = _
        rw [hp, Option.bind_some]
      · rw [← decide_eq_false hpc]
        exact tasks_producer hp
      · rw [← hstop]
        exact tasks_set_producer hp rfl rfl
    | consumer =>
      obtain ⟨c, c', f, hc, hstep, rfl⟩ := consumer_step_cases h
      obtain ⟨hstop, hpc, hleaves⟩ := Consumer.step_leaves hstep
      refine .work (s.place .consumer k) c.should_stop (decide (c'.pc = .returned)) rfl ?_ ?_ ?_
      · rw [hleaves]
        change (s.consumers[k]?).bind _ = _
        rw [hc, Option.bind_some]
      · rw [← decide_eq_false hpc]
        exact tasks_consumer hc
      · rw [← hstop]
        exact tasks_set_consumer rfl rfl
  | exit =>
    obtain ⟨k, p, hexit, hp, -, hproducers, hconsumers⟩ | ⟨k, c, hexit, hc, -,
      hproducers, hconsumers⟩ |
      ⟨hnone, hproducers, hconsumers, -⟩ := exit_step_cases h
    · have hfresh := hs.producers k p hp (by rw [hexit]; exact Nat.le_refl k)
      refine .stop (s.place .producer k) (decide (p.pc = .returned)) ?_ rfl ?_ ?_
      · change s.stops .exit = _
        unfold Sys.stops
        simp only [hexit, hp, Option.map_some]
      · rw [← hfresh]
        exact tasks_producer hp
      · exact tasks_set_producer hp hproducers hconsumers
    · have hfresh := hs.consumers k c hc (by rw [hexit]; exact Nat.le_refl k)
      refine .stop (s.place .consumer k) (decide (c.pc = .returned)) ?_ rfl ?_ ?_
      · change s.stops .exit = _
        unfold Sys.stops
        simp only [hexit, hc, Option.map_some]
      · rw [← hfresh]
        exact tasks_consumer hc
      · exact tasks_set_consumer hproducers hconsumers
    · refine .other hnone rfl ?_
      change t.tasks = s.tasks
      rw [Sys.tasks, Sys.tasks, hproducers, hconsumers]

theorem producer_init {producers consumers : Nat}
    (hp : p ∈ (Sys.init producers consumers).producers) :
    p.pc = .loop ∧ p.should_stop = false := by
  obtain ⟨k, -, rfl⟩ := List.mem_map.1 hp
  exact ⟨rfl, rfl⟩

theorem consumer_init {producers consumers : Nat}
    (hc : c ∈ (Sys.init producers consumers).consumers) :
    c.pc = .loop ∧ c.should_stop = false := by
  obtain ⟨k, -, rfl⟩ := List.mem_map.1 hc
  exact ⟨rfl, rfl⟩

def account (producers consumers : Nat) : (threads producers consumers).Account where
  Inv := Asked
  inv_init := ⟨fun _ _ hp _ => (producer_init (List.mem_of_getElem? hp)).2,
    fun _ _ hc _ => (consumer_init (List.mem_of_getElem? hc)).2⟩
  inv_step hs h := hs.step h
  returned_init x hx := by
    rcases List.mem_append.1 hx with hx | hx
    · obtain ⟨p, hp, rfl⟩ := List.mem_map.1 hx
      rw [Producer.task, (producer_init hp).1]
      rfl
    · obtain ⟨c, hc, rfl⟩ := List.mem_map.1 hx
      rw [Consumer.task, (consumer_init hc).1]
      rfl
  effect := effect

end LocklessQueue

/-! ## `lockfree_list.c` -/

namespace LockfreeList

/-- `worker_thread_fn` returns in its next step. -/
def Worker.ends (sh : Shared) (w : Worker) : Bool :=
  match w.pc with
  | .finish => w.thread_id ≠ 1
  | .print _ walk =>
    match walk.step sh.mem prints with
    | some (.stop _) => true
    | some .over => true
    | _ => false
  | _ => false

/-- The rounds are over, and nobody has asked the thread to stop. -/
def Worker.leaves (sh : Shared) (w : Worker) : Bool := w.ends sh && 8 ≤ w.i && !w.stop

def Worker.task (w : Worker) : Task := ⟨w.stop, w.pc = .returned⟩

namespace Sys

/-- The thread that a step stops. -/
def stops (s : Sys) : Action → Option Nat
  | .exit =>
    match s.exit with
    | .stop k => (s.workers[k]?).map fun _ => k
    | _ => none
  | _ => none

/-- The thread that leaves in a step. -/
def leaves (s : Sys) : Action → Option Nat
  | .worker k _ => (s.workers[k]?).bind fun w => if w.leaves s.toShared then some k else none
  | _ => none

end Sys

def threads (workers : Nat) : Kthreads where
  State := Sys
  Action := Action
  step := Sys.step
  init := .init workers
  tasks s := s.workers.map Worker.task
  stops := Sys.stops
  leaves := Sys.leaves

/-- Behind the loop. -/
def Pc.behind : Pc → Bool
  | .finish => true
  | .print _ _ => true
  | _ => false

/-- The thread has still to be stopped, if there is one. -/
def Exit.toStop : Exit → Nat → Prop
  | .stop i, k => i ≤ k
  | .join i, k => i < k
  | _, _ => False

/-- Only those that `kthread_stop` was called for are asked to stop, and a worker that nobody has
asked leaves its loop after eight rounds. -/
structure Asked (s : Sys) : Prop where
  fresh : ∀ (k : Nat) w, s.workers[k]? = some w → s.exit.toStop k → w.stop = false
  rounds : ∀ w ∈ s.workers, w.pc.behind = true → w.stop = false → 8 ≤ w.i

variable {s t : Sys} {sh sh' : Shared} {alloc : Bool} {w w' : Worker} {k : Nat}

theorem Worker.step_ends (h : w.step sh alloc = some (sh', w')) :
    w'.stop = w.stop ∧ w.pc ≠ .returned ∧
    decide (w'.pc = .returned) = w.ends sh ∧ (w.ends sh = true → w.pc.behind = true) ∧
      (w'.pc.behind = true → w.stop = false → (w.pc.behind = true → 8 ≤ w.i) → 8 ≤ w'.i) := by
  obtain ⟨id, i, pc, stop⟩ := w
  unfold Worker.step at h
  unfold ends
  cases pc <;> simp only at h
  case test =>
    cases h
    refine ⟨rfl, nofun, ?_, nofun, ?_⟩
    · split <;> rfl
    · intro hbehind hstop _
      simp only at hstop
      by_cases hi : i < 8
      · simp [hi, hstop] at hbehind
        cases hbehind
      · exact Nat.not_lt.1 hi
  case finish =>
    cases h
    refine ⟨rfl, nofun, ?_, fun _ => rfl, fun _ _ h8 => h8 rfl⟩
    by_cases hid : id = 1 <;> simp [hid]
  case print b walk =>
    refine ⟨?_, nofun, ?_, fun _ => rfl, fun _ _ h8 => ?_⟩
    · split at h <;> cases h <;> rfl
    · split at h <;> cases h <;> simp only [*] <;> rfl
    · split at h <;> cases h <;> exact h8 rfl
  case unlock b =>
    cases h
    exact ⟨rfl, nofun, rfl, nofun, nofun⟩
  case returned => cases h
  all_goals split at h <;> cases h <;> exact ⟨rfl, nofun, rfl, nofun, nofun⟩

theorem worker_step_cases (h : s.worker_step k alloc = some t) : ∃ sh w w', s.workers[k]? = some w ∧
    w.step s.toShared alloc = some (sh, w') ∧ t.workers = s.workers.set k w' ∧ t.exit = s.exit := by
  obtain ⟨w, hw, h⟩ := Option.bind_eq_some_iff.1 h
  obtain ⟨⟨sh, w'⟩, hstep, h⟩ := Option.bind_eq_some_iff.1 h
  cases h
  exact ⟨sh, w, w', hw, hstep, rfl, rfl⟩

/-- Behind the last `kthread_stop` the exit stops no thread. -/
theorem exit_step_toStop (h : s.exit_step = some t)
    (hstop : ∀ k, s.exit = .stop k → s.workers[k]? = none) (hjoin : ∀ k, s.exit ≠ .join k)
    (k : Nat) : ¬ t.exit.toStop k := by
  unfold Sys.exit_step at h
  cases hexit : s.exit
  case stop k =>
    simp only [hexit, hstop k hexit] at h
    cases h
    exact id
  case join k => exact absurd hexit (hjoin k)
  -- a fault leaves the exit where it is
  all_goals
    have hfault : ¬ s.exit.toStop k := by
      rw [hexit]
      exact id
    simp only [hexit] at h
  case cell r =>
    cases r with
    | demo_list =>
      cases h
      exact id
    | node n =>
      simp only at h
      split at h <;> cases h
      · exact id
      · exact hfault
    | poison =>
      cases h
      exact hfault
  case first | sync =>
    cases h
    exact id
  case returned => cases h
  all_goals split at h <;> cases h <;> first | exact id | exact hfault

/-- What the exit does to the threads: it stops one, or it leaves them alone. -/
theorem exit_effect_cases (h : s.exit_step = some t) :
    (∃ k w, s.exit = .stop k ∧ s.workers[k]? = some w ∧ t.exit = .join k ∧
        t.workers = s.workers.set k { w with stop := true }) ∨
      (s.stops .exit = none ∧ t.workers = s.workers ∧ ∀ k, t.exit.toStop k → s.exit.toStop k) := by
  by_cases hstop : ∀ k, s.exit = .stop k → s.workers[k]? = none
  · have hstops : s.stops .exit = none := by
      unfold Sys.stops
      simp only
      split
      · next k hexit => rw [hstop k hexit, Option.map_none]
      · rfl
    rcases exit_step_cases h with
        ⟨-, ⟨k, w, hexit, hw, -⟩ | ⟨k, hexit, -, ht, hworkers⟩ | ⟨hworkers, -⟩⟩
    · rw [hstop k hexit] at hw
      cases hw
    · refine .inr ⟨hstops, hworkers, fun j hj => ?_⟩
      rw [ht] at hj
      rw [hexit]
      exact hj
    · refine .inr ⟨hstops, hworkers, fun j hj => ?_⟩
      by_cases hjoin : ∀ k, s.exit ≠ .join k
      · exact absurd hj (exit_step_toStop h hstop hjoin j)
      · obtain ⟨k, hexit⟩ := not_forall_not.1 hjoin
        unfold Sys.exit_step at h
        simp only [hexit] at h
        split at h <;> cases h
        rw [hexit]
        exact hj
  · obtain ⟨k, hk⟩ := not_forall.1 hstop
    obtain ⟨hexit, hw⟩ := Classical.not_imp.1 hk
    obtain ⟨w, hw⟩ := Option.ne_none_iff_exists'.1 hw
    unfold Sys.exit_step at h
    simp only [hexit, hw] at h
    cases h
    exact .inl ⟨k, w, hexit, hw, rfl, rfl⟩

theorem callback_step_eq {q : Nat × Nat} (h : s.callback_step q = some t) :
    t.workers = s.workers ∧ t.exit = s.exit := (callback_step_due h).2

theorem Asked.step {a : Action} (hs : Asked s) (h : s.step a = some t) : Asked t := by
  obtain ⟨u, rfl, hu⟩ := step_inner h
  suffices Asked u from ⟨this.fresh, this.rounds⟩
  cases a with
  | worker k alloc =>
    obtain ⟨sh, w, w', hw, hstep, hworkers, hexit⟩ := worker_step_cases hu
    obtain ⟨hstop, -, -, -, hrounds⟩ := Worker.step_ends hstep
    refine ⟨fun j v hj htoStop => ?_, fun v hv hbehind hv0 => ?_⟩
    · rw [hworkers] at hj
      rw [hexit] at htoStop
      rcases getElem?_set_cases hj with ⟨rfl, rfl⟩ | ⟨-, hj⟩
      · rw [hstop]
        exact hs.fresh j w hw htoStop
      · exact hs.fresh j v hj htoStop
    · rw [hworkers] at hv
      obtain rfl | hv := List.mem_or_eq_of_mem_set hv |>.symm
      · rw [hstop] at hv0
        exact hrounds hbehind hv0 fun hb => hs.rounds w (List.mem_of_getElem? hw) hb hv0
      · exact hs.rounds v hv hbehind hv0
  | exit =>
    rcases exit_effect_cases hu with ⟨k, w, hexit, hw, ht, hworkers⟩ | ⟨-, hworkers, hle⟩
    · refine ⟨fun j v hj htoStop => ?_, fun v hv hbehind hv0 => ?_⟩
      · rw [ht] at htoStop
        have hlt : k < j := htoStop
        rw [hworkers, List.getElem?_set_ne (Nat.ne_of_lt hlt)] at hj
        exact hs.fresh j v hj (by rw [hexit]; exact Nat.le_of_lt hlt)
      · rw [hworkers] at hv
        obtain rfl | hv := List.mem_or_eq_of_mem_set hv |>.symm
        · cases hv0
        · exact hs.rounds v hv hbehind hv0
    · refine ⟨fun j v hj htoStop => ?_, fun v hv => ?_⟩
      · rw [hworkers] at hj
        exact hs.fresh j v hj (hle j htoStop)
      · rw [hworkers] at hv
        exact hs.rounds v hv
  | callback q =>
    obtain ⟨hworkers, hexit⟩ := callback_step_eq hu
    refine ⟨fun j v hj htoStop => ?_, fun v hv => ?_⟩
    · rw [hworkers] at hj
      rw [hexit] at htoStop
      exact hs.fresh j v hj htoStop
    · rw [hworkers] at hv
      exact hs.rounds v hv

theorem task_getElem? {workers : Nat} (hw : s.workers[k]? = some w) :
    ((threads workers).tasks s)[k]? = some w.task :=
  (List.getElem?_map ..).trans (congrArg _ hw)

theorem tasks_set {workers : Nat} (h : t.workers = s.workers.set k w) :
    (threads workers).tasks t = ((threads workers).tasks s).set k w.task :=
  (congrArg _ h).trans List.map_set

theorem effect {workers : Nat} {a : Action} (hs : Asked s) (h : s.step a = some t) :
    (threads workers).Effect s a t := by
  obtain ⟨u, rfl, hu⟩ := step_inner h
  cases a with
  | worker k alloc =>
    obtain ⟨sh, w, w', hw, hstep, hworkers, -⟩ := worker_step_cases hu
    obtain ⟨hstop, hpc, hends, hbehind, -⟩ := Worker.step_ends hstep
    have hleaves : (decide (w'.pc = .returned) && !w.stop) = w.leaves s.toShared := by
      rw [hends, Worker.leaves]
      cases hend : w.ends s.toShared with
      | false => rfl
      | true =>
        cases hw0 : w.stop with
        | true => simp
        | false => simp [hs.rounds w (List.mem_of_getElem? hw) (hbehind hend) hw0]
    refine .work k w.stop (decide (w'.pc = .returned)) rfl ?_ ?_ ?_
    · rw [hleaves]
      exact (congrArg (Option.bind · _) hw).trans rfl
    · rw [task_getElem? hw, Worker.task, decide_eq_false hpc]
    · rw [← hstop]
      exact tasks_set hworkers
  | exit =>
    rcases exit_effect_cases hu with ⟨k, w, hexit, hw, -, hworkers⟩ | ⟨hstops, hworkers, -⟩
    · have hfresh := hs.fresh k w hw (by rw [hexit]; exact Nat.le_refl k)
      refine .stop k (decide (w.pc = .returned)) ?_ rfl ?_ (tasks_set hworkers)
      · change s.stops .exit = _
        unfold Sys.stops
        simp only [hexit, hw, Option.map_some]
      · rw [task_getElem? hw, Worker.task, hfresh]
    · exact .other hstops rfl (congrArg (List.map Worker.task) hworkers)
  | callback q => exact .other rfl rfl (congrArg (List.map Worker.task) (callback_step_eq hu).1)

theorem worker_init {workers : Nat} (hw : w ∈ (Sys.init workers).workers) :
    w.pc = .test ∧ w.stop = false := by
  obtain ⟨k, -, rfl⟩ := List.mem_map.1 hw
  exact ⟨rfl, rfl⟩

def stopAccount (workers : Nat) : (threads workers).Account where
  Inv := Asked
  inv_init := by
    refine ⟨fun k w hw _ => (worker_init (List.mem_of_getElem? hw)).2, fun w hw hbehind => ?_⟩
    rw [(worker_init hw).1] at hbehind
    cases hbehind
  inv_step hs h := hs.step h
  returned_init x hx := by
    obtain ⟨w, hw, rfl⟩ := List.mem_map.1 hx
    rw [Worker.task, (worker_init hw).1]
    rfl
  effect := effect

end LockfreeList

end LinuxKernelProg.Sync
