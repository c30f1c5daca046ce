import LinuxKernelProg.Lib.NotifierChain
import LinuxKernelProg.Lib.Run
import Mathlib.Data.List.Nodup

/-!
# A chain of its own

`custom_notifier.c`: the init function registers three blocks in a raw notifier chain and starts a
thread that calls the chain for three events in each of ten cycles; the exit function stops the
thread and takes the blocks out again. A raw chain has no lock. `life` says that nobody changes it
while it is walked, and what the callbacks print.
-/

namespace LinuxKernelProg.Notifiers.CustomNotifier

open Lib NotifierChain

/-! ## The program -/

/-- `high_priority_nb`, `medium_priority_nb` and `low_priority_nb`. -/
inductive Block where
  | high
  | medium
  | low
  deriving DecidableEq

def Block.priority : Block → Int
  | .high => 100
  | .medium => 50
  | .low => 0

inductive Event where
  | start
  | work
  | stop
  deriving DecidableEq

/-- What a callback prints: who it is, the event, and the number that `data` points to. -/
structure Line where
  callback : Block
  event : Event
  data : Nat
  deriving DecidableEq

def NOTIFY_OK : Nat := 0x0001
def NOTIFY_STOP_MASK : Nat := 0x8000

/-- The three callbacks; each of them has a line for each event. -/
def Block.notifier_call (nb : Block) (event : Event) (data : Nat) : Line × Nat :=
  (⟨nb, event, data⟩, NOTIFY_OK)

/-- The blocks in the order in which they are registered. -/
def registrations : List Block := [.low, .medium, .high]

/-- `-EEXIST`, or what `kthread_run` fails with. -/
abbrev Errno := { ret : Int // ret < 0 }

/-- Where `custom_notifier_init` is. -/
inductive Init where
  /-- At the registration with this number; behind the last one, at `kthread_run`. -/
  | register (k : Nat)
  /-- In the labels, with so many blocks still to take out. -/
  | unregister (k : Nat) (ret : Errno)
  | failed (ret : Errno)
  | done

/-- Where `event_generator_fn` is. -/
inductive Thread where
  /-- At the test of the loop. -/
  | test (i : Nat)
  /-- At the beginning of `raw_notifier_call_chain`. -/
  | head (i : Nat) (event : Event)
  /-- At the block `nb`, or behind the last one. -/
  | walk (i : Nat) (event : Event) (nb : Option Block)
  /-- In front of the callback, with the next block read already. -/
  | call (i : Nat) (event : Event) (nb : Block) (next_nb : Option Block)
  | returned

/-- Where `custom_notifier_exit` is. -/
inductive Exit where
  | idle
  /-- In `kthread_stop`, which waits for the thread. -/
  | stopping
  | unregister (k : Nat)
  | returned

structure State where
  custom_notifier_list : List Block
  event_count : Nat
  init : Init
  /-- `event_generator_thread`, when it has been made. -/
  thread : Option Thread
  /-- The thread has been asked to stop. -/
  stop : Bool
  exit : Exit
  log : List Line

inductive Action where
  /-- A step of the init function, and what `kthread_run` returns if that is the step. -/
  | init (kthread_run : Except Errno Unit)
  | thread
  | exit

def State.start : State := ⟨[], 0, .register 0, none, false, .idle, []⟩

def EEXIST : Errno := ⟨-17, by decide⟩

def take_out (k : Nat) (chain : List Block) : List Block :=
  match registrations[k]? with
  | some nb => (unregister nb chain).getD chain
  | none => chain

def init_step (s : State) (kthread_run : Except Errno Unit) : Option State :=
  match s.init with
  | .register k =>
    match registrations[k]? with
    | some nb =>
      match register Block.priority nb s.custom_notifier_list with
      | some chain => some { s with custom_notifier_list := chain, init := .register (k + 1) }
      | none => some { s with init := .unregister k EEXIST }
    | none =>
      match kthread_run with
      | .ok () => some { s with thread := some (.test 1), init := .done }
      | .error ret => some { s with init := .unregister k ret }
  | .unregister (k + 1) ret =>
    some { s with
      custom_notifier_list := take_out k s.custom_notifier_list
      init := .unregister k ret }
  | .unregister 0 ret => some { s with init := .failed ret }
  | .failed _ | .done => none

/-- The call of the chain that comes behind the one for this event. -/
def Event.next : Event → Option Event
  | .start => some .work
  | .work => some .stop
  | .stop => none

def thread_step (s : State) : Thread → Option State
  | .test i =>
    if i ≤ 10 ∧ s.stop = false then
      some { s with event_count := i, thread := some (.head i .start) }
    else some { s with thread := some .returned }
  | .head i event => some { s with thread := some (.walk i event s.custom_notifier_list.head?) }
  | .walk i event (some nb) =>
    some { s with thread := some (.call i event nb (next s.custom_notifier_list nb)) }
  | .call i event nb next_nb =>
    let (line, ret) := nb.notifier_call event s.event_count
    let goes_on := ret &&& NOTIFY_STOP_MASK = 0
    some { s with
      log := s.log ++ [line]
      thread := some (.walk i event (if goes_on then next_nb else none)) }
  | .walk i event none =>
    some { s with thread := some (match event.next with
      | some event => .head i event
      | none => .test (i + 1)) }
  | .returned => none

/-- `custom_notifier_exit`. The task of a thread that has returned unasked is assumed to be there
still when `kthread_stop` looks at it, though the module has taken no reference to it. -/
def exit_step (s : State) : Option State :=
  match s.init, s.exit with
  | .done, .idle => some { s with stop := true, exit := .stopping }
  | _, .stopping =>
    match s.thread with
    | some .returned => some { s with exit := .unregister registrations.length }
    | _ => none
  | _, .unregister (k + 1) =>
    some { s with custom_notifier_list := take_out k s.custom_notifier_list, exit := .unregister k }
  | _, .unregister 0 => some { s with exit := .returned }
  | _, _ => none

def step (s : State) : Action → Option State
  | .init kthread_run => init_step s kthread_run
  | .thread => s.thread.bind (thread_step s)
  | .exit => exit_step s

/-! ## What is printed -/

/-- The blocks by their priorities. -/
def chain : List Block := [.high, .medium, .low]

def lines (i : Nat) (event : Event) (nbs : List Block) : List Line :=
  nbs.map fun nb => ⟨nb, event, i⟩

/-- The lines of a cycle behind those of an event. -/
def later (i : Nat) : Event → List Line
  | .start => lines i .work chain ++ lines i .stop chain
  | .work => lines i .stop chain
  | .stop => []

def cycle (i : Nat) : List Line := lines i .start chain ++ later i .start

/-- The lines of the first `n` cycles. -/
def cycles (n : Nat) : List Line := (List.range' 1 n).flatMap cycle

/-- The lines of the cycle `i` and the ones behind it. -/
def cycles_from (i : Nat) : List Line := (List.range' i (11 - i)).flatMap cycle

/-- What the module does. -/
structure Service (s : State) : Prop where
  /-- The chain is all there and in order until the thread has returned. -/
  walked : ∀ th, s.thread = some th → th ≠ .returned → s.custom_notifier_list = chain
  printed : s.log <+: cycles 10
  /-- The thread leaves between two cycles, and unasked behind the last one only. -/
  whole : s.thread = some .returned → ∃ n, n ≤ 10 ∧ s.log = cycles n ∧ (s.stop = false → n = 10)
  failed : ∀ ret, s.init = .failed ret → s.custom_notifier_list = [] ∧ s.thread = none ∧ s.log = []
  unloaded : s.exit = .returned → s.custom_notifier_list = [] ∧ s.thread = some .returned

/-! ## The thread -/

/-- Where the thread is, and that nothing of the ten cycles is lost. -/
inductive At (s : State) : Thread → Prop where
  | test (i : Nat) (hpos : 1 ≤ i) (hle : i ≤ 11) (hlog : s.log ++ cycles_from i = cycles 10) :
      At s (.test i)
  | head (i : Nat) (event : Event) (hpos : 1 ≤ i) (hle : i ≤ 10) (hdata : s.event_count = i)
    (hlog : s.log ++ (lines i event chain ++ (later i event ++ cycles_from (i + 1))) = cycles 10) :
    At s (.head i event)
  | walk (i : Nat) (event : Event) (nb : Option Block) (hpos : 1 ≤ i) (hle : i ≤ 10)
    (hdata : s.event_count = i)
    (hlog : s.log ++ (lines i event (rest chain nb) ++
      (later i event ++ cycles_from (i + 1))) = cycles 10) :
    At s (.walk i event nb)
  | call (i : Nat) (event : Event) (nb : Block) (next_nb : Option Block)
      (hpos : 1 ≤ i) (hle : i ≤ 10)
    (hdata : s.event_count = i)
    (hlog : s.log ++ (lines i event (nb :: rest chain next_nb) ++
      (later i event ++ cycles_from (i + 1))) =
      cycles 10) : At s (.call i event nb next_nb)
  | returned (n : Nat) (hle : n ≤ 10) (hlog : s.log = cycles n) (hall : s.stop = false → n = 10) :
    At s .returned

variable {s s' : State} {th : Thread} {i k : Nat}

theorem cycles_from_cons (hle : i ≤ 10) : cycles_from i = cycle i ++ cycles_from (i + 1) := by
  have hlen : 11 - i = (11 - (i + 1)) + 1 := by omega
  rw [cycles_from, hlen, List.range'_succ, List.flatMap_cons, cycles_from]

theorem cycles_append (hpos : 1 ≤ i) (hle : i ≤ 11) :
    cycles (i - 1) ++ cycles_from i = cycles 10 := by
  have hrange : List.range' 1 (i - 1) ++ List.range' i (11 - i) = List.range' 1 10 := by
    have happend := @List.range'_append_1 1 (i - 1) (11 - i)
    rw [Nat.add_sub_cancel' hpos] at happend
    rw [happend]
    congr 1
    omega
  rw [cycles, cycles_from, ← List.flatMap_append, hrange, cycles]

/-- A step of the thread while nobody changes the chain. -/
theorem At.step (hs : At s th) (hchain : th ≠ .returned → s.custom_notifier_list = chain)
    (h : thread_step s th = some s') : ∃ th', s'.thread = some th' ∧ At s' th' ∧
      s'.custom_notifier_list = s.custom_notifier_list ∧ s'.init = s.init ∧ s'.exit = s.exit := by
  cases hs with
  | test i hpos hle hlog =>
    rw [thread_step] at h
    split at h
    · next hgo =>
      cases h
      refine ⟨_, rfl, .head i .start hpos hgo.1 rfl ?_, rfl, rfl, rfl⟩
      rw [cycles_from_cons hgo.1, cycle, List.append_assoc] at hlog
      exact hlog
    · next hstop =>
      cases h
      rw [← cycles_append hpos hle] at hlog
      refine ⟨_, rfl, .returned (i - 1) (by omega) (List.append_cancel_right hlog) ?_,
        rfl, rfl, rfl⟩
      intro hasked
      have : ¬ i ≤ 10 := fun hle => hstop ⟨hle, hasked⟩
      omega
  | head i event hpos hle hdata hlog =>
    cases h
    refine ⟨_, rfl, .walk i event _ hpos hle hdata ?_, rfl, rfl, rfl⟩
    rw [hchain nofun, rest_head]
    exact hlog
  | walk i event nb hpos hle hdata hlog =>
    cases nb with
    | some nb =>
      cases h
      refine ⟨_, rfl, .call i event nb _ hpos hle hdata ?_, rfl, rfl, rfl⟩
      have hmem : nb ∈ chain := by cases nb <;> decide
      rw [rest_next (by decide) hmem] at hlog
      rw [hchain nofun]
      exact hlog
    | none =>
      cases h
      cases event with
      | start | work => exact ⟨_, rfl, .head i _ hpos hle hdata hlog, rfl, rfl, rfl⟩
      | stop => exact ⟨_, rfl, .test (i + 1) (by omega) (by omega) hlog, rfl, rfl, rfl⟩
  | call i event nb next_nb hpos hle hdata hlog =>
    cases h
    refine ⟨_, rfl, .walk i event next_nb hpos hle hdata ?_, rfl, rfl, rfl⟩
    rw [List.append_assoc, hdata]
    exact hlog
  | returned => nomatch h

/-! ## Loading and unloading -/

/-- The chain with the first `k` registrations. -/
def registered : Nat → List Block
  | 0 => []
  | 1 => [.low]
  | 2 => [.medium, .low]
  | _ => chain

theorem register_registered {nb : Block} (hk : registrations[k]? = some nb) :
    register Block.priority nb (registered k) = some (registered (k + 1)) := by
  match k with
  | 0 | 1 | 2 =>
    cases hk
    rfl
  | _ + 3 => nomatch hk

theorem take_out_registered (hk : k + 1 ≤ 3) : take_out k (registered (k + 1)) = registered k := by
  obtain ⟨nb, hnb⟩ : ∃ nb, registrations[k]? = some nb := ⟨_, List.getElem?_eq_getElem hk⟩
  rw [take_out, hnb]
  dsimp only
  rw [unregister_register (register_registered hnb), Option.getD_some]

/-- Where the exit function is, and what is left of the chain. -/
inductive Leaving (s : State) (th : Thread) : Prop where
  | idle (hexit : s.exit = .idle) (hchain : s.custom_notifier_list = chain)
  | stopping (hexit : s.exit = .stopping) (hchain : s.custom_notifier_list = chain)
  | unregister (k : Nat) (hexit : s.exit = .unregister k) (hk : k ≤ 3) (hth : th = .returned)
    (hchain : s.custom_notifier_list = registered k)
  | returned (hexit : s.exit = .returned) (hth : th = .returned)
      (hchain : s.custom_notifier_list = [])

/-- No thread yet, and nothing printed. -/
structure Quiet (s : State) (k : Nat) : Prop where
  le : k ≤ 3
  chain : s.custom_notifier_list = registered k
  thread : s.thread = none
  exit : s.exit = .idle
  log : s.log = []

/-- What every run keeps, by where the init function is. -/
inductive Inv (s : State) : Prop where
  | register (k : Nat) (hinit : s.init = .register k) (hs : Quiet s k)
  | unregister (k : Nat) (ret : Errno) (hinit : s.init = .unregister k ret) (hs : Quiet s k)
  | failed (ret : Errno) (hinit : s.init = .failed ret) (hs : Quiet s 0)
  | done (th : Thread) (hinit : s.init = .done) (hth : s.thread = some th) (hat : At s th)
    (hexit : Leaving s th)

theorem Inv.start : Inv .start := .register 0 rfl ⟨Nat.zero_le _, rfl, rfl, rfl, rfl⟩

theorem Inv.init_step {ok : Except Errno Unit} (hs : Inv s) (h : init_step s ok = some s') :
    Inv s' := by
  cases hs with
  | register k hinit hs =>
    simp only [CustomNotifier.init_step, hinit] at h
    cases hnb : registrations[k]? with
    | some nb =>
      have hlt : k < 3 := (List.getElem?_eq_some_iff.1 hnb).1
      rw [hnb, hs.chain] at h
      simp only [register_registered hnb] at h
      cases h
      exact .register (k + 1) rfl ⟨hlt, rfl, hs.thread, hs.exit, hs.log⟩
    | none =>
      have hk : k = 3 := Nat.le_antisymm hs.le (List.getElem?_eq_none_iff.1 hnb)
      subst hk
      rw [hnb] at h
      cases ok with
      | ok =>
        cases h
        refine .done (.test 1) rfl rfl (.test 1 (Nat.le_refl _) (by decide) ?_)
          (.idle hs.exit hs.chain)
        rw [hs.log]
        rfl
      | error ret =>
        cases h
        exact .unregister 3 ret rfl ⟨hs.le, hs.chain, hs.thread, hs.exit, hs.log⟩
  | unregister k ret hinit hs =>
    simp only [CustomNotifier.init_step, hinit] at h
    cases k with
    | zero =>
      cases h
      exact .failed ret rfl ⟨hs.le, hs.chain, hs.thread, hs.exit, hs.log⟩
    | succ k =>
      cases h
      refine .unregister k ret rfl ⟨Nat.le_of_succ_le hs.le, ?_, hs.thread, hs.exit, hs.log⟩
      rw [hs.chain, take_out_registered hs.le]
  | failed ret hinit => simp only [CustomNotifier.init_step, hinit, reduceCtorEq] at h
  | done th hinit => simp only [CustomNotifier.init_step, hinit, reduceCtorEq] at h

theorem Inv.thread_step (hs : Inv s) (hth : s.thread = some th) (h : thread_step s th = some s') :
    Inv s' := by
  cases hs with
  | register k _ hs | unregister k _ _ hs | failed _ _ hs => nomatch hs.thread.symm.trans hth
  | done th₀ hinit hth₀ hat hexit =>
    obtain rfl : th₀ = th := Option.some.inj (hth₀.symm.trans hth)
    have hne : th₀ ≠ .returned := by
      rintro rfl
      nomatch h
    have hchain : s.custom_notifier_list = chain := by
      cases hexit with
      | idle _ hchain | stopping _ hchain => exact hchain
      | unregister _ _ _ hret | returned _ hret => exact absurd hret hne
    obtain ⟨th', hth', hat', hlist, hinit', hexit'⟩ := hat.step (fun _ => hchain) h
    refine .done th' (hinit'.trans hinit) hth' hat' ?_
    cases hexit with
    | idle hidle => exact .idle (hexit'.trans hidle) (hlist.trans hchain)
    | stopping hstopping => exact .stopping (hexit'.trans hstopping) (hlist.trans hchain)
    | unregister _ _ _ hret | returned _ hret => exact absurd hret hne

/-- The exit function does not touch the log, and it only adds to what stops the thread. -/
theorem At.congr (hs : At s th) (hlog : s'.log = s.log) (hcount : s'.event_count = s.event_count)
    (hstop : s'.stop = false → s.stop = false) : At s' th := by
  cases hs with
  | test i hpos hle h => exact .test i hpos hle (hlog ▸ h)
  | head i event hpos hle hdata h => exact .head i event hpos hle (hcount.trans hdata) (hlog ▸ h)
  | walk i event nb hpos hle hdata h =>
      exact .walk i event nb hpos hle (hcount.trans hdata) (hlog ▸ h)
  | call i event nb next_nb hpos hle hdata h =>
    exact .call i event nb next_nb hpos hle (hcount.trans hdata) (hlog ▸ h)
  | returned n hle h hall => exact .returned n hle (hlog.trans h) fun hasked => hall (hstop hasked)

theorem Inv.exit_step (hs : Inv s) (h : exit_step s = some s') : Inv s' := by
  cases hs with
  | register k hinit hs | unregister k _ hinit hs | failed _ hinit hs =>
    simp only [CustomNotifier.exit_step, hinit, hs.exit, reduceCtorEq] at h
  | done th hinit hth hat hexit =>
    cases hexit with
    | idle hidle hchain =>
      simp only [CustomNotifier.exit_step, hinit, hidle] at h
      cases h
      exact .done th rfl hth (hat.congr rfl rfl nofun) (.stopping rfl hchain)
    | stopping hstopping hchain =>
      simp only [CustomNotifier.exit_step, hinit, hstopping, hth] at h
      cases th with
      | returned =>
        cases h
        exact .done .returned rfl rfl (hat.congr rfl rfl id)
          (.unregister 3 rfl (Nat.le_refl _) rfl hchain)
      | _ => nomatch h
    | unregister k hunregister hk hret hchain =>
      simp only [CustomNotifier.exit_step, hinit, hunregister] at h
      cases k with
      | zero =>
        cases h
        exact .done th rfl hth (hat.congr rfl rfl id) (.returned rfl hret hchain)
      | succ k =>
        cases h
        refine .done th rfl hth (hat.congr rfl rfl id)
          (.unregister k rfl (Nat.le_of_succ_le hk) hret ?_)
        rw [hchain, take_out_registered hk]
    | returned hreturned => simp only [CustomNotifier.exit_step, hinit,
        hreturned, reduceCtorEq] at h

theorem Inv.step {a : Action} (hs : Inv s) (h : step s a = some s') : Inv s' := by
  cases a with
  | init ok => exact hs.init_step h
  | thread =>
    obtain ⟨th, hth, h⟩ := Option.bind_eq_some_iff.1 h
    exact hs.thread_step hth h
  | exit => exact hs.exit_step h

theorem At.printed (hs : At s th) : s.log <+: cycles 10 := by
  cases hs with
  | test _ _ _ hlog | head _ _ _ _ _ hlog | walk _ _ _ _ _ _ hlog | call _ _ _ _ _ _ _ hlog =>
    exact ⟨_, hlog⟩
  | returned n hle hlog =>
    have hsplit := cycles_append (i := n + 1) (by omega) (by omega)
    exact ⟨_, hlog ▸ hsplit⟩

theorem Inv.service (hs : Inv s) : Service s := by
  cases hs with
  | register k hinit hs | unregister k _ hinit hs =>
    refine ⟨fun th hth => ?_, ?_, fun hth => ?_, fun ret hret => ?_, fun hret => ?_⟩
    · nomatch hs.thread.symm.trans hth
    · rw [hs.log]
      exact List.nil_prefix
    · nomatch hs.thread.symm.trans hth
    · nomatch hinit.symm.trans hret
    · nomatch hs.exit.symm.trans hret
  | failed ret hinit hs =>
    refine ⟨fun th hth => ?_, ?_, fun hth => ?_, fun ret hret => ⟨hs.chain, hs.thread, hs.log⟩,
      fun hret => ?_⟩
    · nomatch hs.thread.symm.trans hth
    · rw [hs.log]
      exact List.nil_prefix
    · nomatch hs.thread.symm.trans hth
    · nomatch hs.exit.symm.trans hret
  | done th hinit hth hat hexit =>
    refine ⟨fun th' hth' hne => ?_, hat.printed, fun hret => ?_, fun ret hret => ?_, fun hret => ?_⟩
    · obtain rfl : th' = th := Option.some.inj (hth'.symm.trans hth)
      cases hexit with
      | idle _ hchain | stopping _ hchain => exact hchain
      | unregister _ _ _ hth | returned _ hth => exact absurd hth hne
    · obtain rfl : th = .returned := Option.some.inj (hth.symm.trans hret)
      cases hat with
      | returned n hle hlog hall => exact ⟨n, hle, hlog, hall⟩
    · nomatch hinit.symm.trans hret
    · cases hexit with
      | returned _ hth' hchain => exact ⟨hchain, hth' ▸ hth⟩
      | idle hexit | stopping hexit | unregister _ hexit => nomatch hexit.symm.trans hret

/-- In every run of the init function, the thread and the exit function, with `kthread_run` failing
or not: the chain does not change under a walk, and each event is printed by all three callbacks, in
the order of their priorities and with the number of its cycle. -/
theorem life {as : List Action} (h : run step .start as = some s) : Service s := by
  have hinv : Inv s := run_inv_of_step (fun hs h => hs.step h) .start h
  exact hinv.service

/-- The module is unloaded while the thread walks the chain for the first time. -/
theorem life_one_cycle :
    let as := List.replicate 4 (.init (.ok ())) ++ List.replicate 4 .thread ++ [.exit] ++
      List.replicate 22 .thread ++ List.replicate 5 .exit
    ∃ s, run step .start as = some s ∧ s.log = cycles 1 ∧ Service s := by
  intro as
  exact ⟨_, rfl, rfl, @life _ as rfl⟩

end LinuxKernelProg.Notifiers.CustomNotifier
