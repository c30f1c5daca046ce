import LinuxKernelProg.Lib.Ledger
import LinuxKernelProg.Sync.LocklessQueue.Basic

/-!
# What the lockless queue passes on

A queue is good for one put and one get at a time. As long as the producers and the consumers keep
to that, and come to the queue while there is room, or an item, what is got is what was put, in the
same order and once. With one producer and one consumer they always do; two puts that overlap lose
an item.
-/

namespace LinuxKernelProg.Sync.LocklessQueue

open LinuxKernelProg.Lib

/-- What a call has succeeded with. -/
inductive Event where
  | put (x : DataItem)
  | got (x : DataItem)
  deriving DecidableEq

def puts : List Event → List DataItem := List.filterMap fun
  | .put x => some x
  | .got _ => none

def gets : List Event → List DataItem := List.filterMap fun
  | .put _ => none
  | .got x => some x

/-- The item that is stored and not in the queue yet. -/
def Producer.hand (p : Producer) : Option DataItem := if p.pc = .advance then some p.item else none

/-- The item that is loaded and still in the queue. -/
def Consumer.hand (c : Consumer) : Option DataItem := if c.pc = .advance then some c.item else none

namespace Sys

/-- Some producer is between its two stores. -/
def putting (s : Sys) : Bool := s.producers.any fun p => p.hand.isSome

/-- Some consumer is between its load and its store. -/
def getting (s : Sys) : Bool := s.consumers.any fun c => c.hand.isSome

/-- An item is stored only while no other put is under way and there is room, one item more than
`out` says if a get is under way. -/
def roomFor (s : Sys) (p : Producer) : Bool :=
  match p.pc with
  | .store => !s.putting && !(s.demo_queue.ahead false s.getting).is_full
  | _ => true

/-- An item is loaded only while no other get is under way and there is one, one item more than `in`
says if a put is under way; and a get is over only when the put is. -/
def itemFor (s : Sys) (c : Consumer) : Bool :=
  match c.pc with
  | .load => !s.getting && !(s.demo_queue.ahead s.putting false).is_empty
  | .advance => !s.demo_queue.is_empty
  | _ => true

/-- The next step of the thread is in turn. -/
def inTurn (s : Sys) : Action → Bool
  | .thread .producer k => (s.producers[k]?).all s.roomFor
  | .thread .consumer k => (s.consumers[k]?).all s.itemFor
  | .exit => true

/-- With its last step a put or a get has succeeded. -/
def events (s : Sys) : Action → List Event
  | .thread .producer k => ((s.producers[k]?).bind Producer.hand).toList.map .put
  | .thread .consumer k => ((s.consumers[k]?).bind Consumer.hand).toList.map .got
  | .exit => []

/-- The threads have stopped. -/
def stopped (s : Sys) : Bool :=
  (s.producers.all fun p => p.pc = .returned) && s.consumers.all fun c => c.pc = .returned

end Sys

def history (producers consumers : Nat) (as : List Action) : List Event :=
  record Sys.step Sys.events (.init producers consumers) as

/-- The threads that the exit has waited for have returned. -/
def Exit.joined : Exit → Role → Nat → Prop
  | .stop .producer i, .producer, k => k < i
  | .join .producer i, .producer, k => k < i
  | .stop .producer _, .consumer, _ => False
  | .join .producer _, .consumer, _ => False
  | .stop .consumer i, .consumer, k => k < i
  | .join .consumer i, .consumer, k => k < i
  | _, _, _ => True

structure Joined (s : Sys) : Prop where
  producers : ∀ (k : Nat) p, s.producers[k]? = some p → s.exit.joined .producer k → p.pc = .returned
  consumers : ∀ (k : Nat) c, s.consumers[k]? = some c → s.exit.joined .consumer k → c.pc = .returned

/-- Until the exit has reset the queue, the calls take turns. -/
structure Inv (s : Sys) (es : List Event) : Prop where
  joined : Joined s
  turns : s.exit ≠ .returned → ∃ put get, s.producers.filterMap Producer.hand = put.toList ∧
    s.consumers.filterMap Consumer.hand = get.toList ∧
      s.demo_queue.Turns put get (puts es) (gets es)
  passed : gets es <+: puts es

variable {s t : Sys} {f f' : Queue} {p p' : Producer} {c c' : Consumer} {k : Nat} {es : List Event}

theorem producer_turns {put get : Option DataItem} {xs ys : List DataItem}
    (hp : s.producers[k]? = some p) (h : p.step f = some (f', p'))
    (hput : s.producers.filterMap Producer.hand = put.toList) (ht : f.Turns put get xs ys)
    (hC : p.pc = .store → put = none ∧ (f.ahead false get.isSome).is_full = false) :
    ∃ put', (s.producers.set k p').filterMap Producer.hand = put'.toList ∧
      f'.Turns put' get (xs ++ p.hand.toList) ys := by
  obtain ⟨id, i, pc, should_stop⟩ := p
  unfold Producer.step at h
  cases pc <;> simp only at h
  case loop =>
    cases h
    refine ⟨put, (filterMap_set_eq hp ?_).trans hput, (List.append_nil xs).symm ▸ ht⟩
    dsimp only [Producer.hand]
    split <;> rfl
  case full =>
    cases h
    refine ⟨put, (filterMap_set_eq hp ?_).trans hput, (List.append_nil xs).symm ▸ ht⟩
    cases f.is_full <;> rfl
  case store =>
    cases h
    obtain ⟨rfl, hroom⟩ := hC rfl
    exact ⟨some (item id i), filterMap_set_of_alone hp hput _,
      (List.append_nil xs).symm ▸ ht.store (by decide) hroom⟩
  case advance =>
    cases h
    have hmem : item id i ∈ s.producers.filterMap Producer.hand :=
      List.mem_filterMap.2 ⟨_, List.mem_of_getElem? hp, rfl⟩
    rw [hput, Option.mem_toList] at hmem
    cases hmem
    exact ⟨none, filterMap_set_of_alone hp hput _, ht.advance_in⟩
  case returned => cases h

theorem consumer_turns {put get : Option DataItem} {xs ys : List DataItem}
    (hc : s.consumers[k]? = some c) (h : c.step f = some (f', c'))
    (hget : s.consumers.filterMap Consumer.hand = get.toList) (ht : f.Turns put get xs ys)
    (hload : c.pc = .load → get = none ∧ (f.ahead put.isSome false).is_empty = false)
    (hadvance : c.pc = .advance → f.is_empty = false) :
    ∃ get', (s.consumers.set k c').filterMap Consumer.hand = get'.toList ∧
      f'.Turns put get' xs (ys ++ c.hand.toList) := by
  obtain ⟨id, n, x, pc, should_stop⟩ := c
  unfold Consumer.step at h
  cases pc <;> simp only at h
  case loop =>
    cases h
    refine ⟨get, (filterMap_set_eq hc ?_).trans hget, (List.append_nil ys).symm ▸ ht⟩
    dsimp only [Consumer.hand]
    split <;> rfl
  case empty =>
    cases h
    refine ⟨get, (filterMap_set_eq hc ?_).trans hget, (List.append_nil ys).symm ▸ ht⟩
    cases f.is_empty <;> rfl
  case load =>
    cases h
    obtain ⟨rfl, hitem⟩ := hload rfl
    exact ⟨some f.load, filterMap_set_of_alone hc hget _, (List.append_nil ys).symm ▸ ht.load hitem⟩
  case advance =>
    cases h
    have hmem : x ∈ s.consumers.filterMap Consumer.hand :=
      List.mem_filterMap.2 ⟨_, List.mem_of_getElem? hc, rfl⟩
    rw [hget, Option.mem_toList] at hmem
    cases hmem
    exact ⟨none, filterMap_set_of_alone hc hget _, ht.advance_out (hadvance rfl)⟩
  case returned => cases h

/-! ## The exit -/

theorem Joined.thread {r : Role} (hs : Joined s) (h : s.step (.thread r k) = some t) :
    Joined t := by
  cases r with
  | producer =>
    obtain ⟨p, p', f, hp, hstep, rfl⟩ := producer_step_cases h
    refine ⟨fun j q hj hjoined => ?_, hs.consumers⟩
    rcases getElem?_set_cases hj with ⟨rfl, -⟩ | ⟨-, hj⟩
    · unfold Producer.step at hstep
      rw [hs.producers j p hp hjoined] at hstep
      cases hstep
    · exact hs.producers j q hj hjoined
  | consumer =>
    obtain ⟨c, c', f, hc, hstep, rfl⟩ := consumer_step_cases h
    refine ⟨hs.producers, fun j q hj hjoined => ?_⟩
    rcases getElem?_set_cases hj with ⟨rfl, -⟩ | ⟨-, hj⟩
    · unfold Consumer.step at hstep
      rw [hs.consumers j c hc hjoined] at hstep
      cases hstep
    · exact hs.consumers j q hj hjoined

theorem Joined.exit (hs : Joined s) (h : s.exit_step = some t) : Joined t := by
  unfold Sys.exit_step at h
  cases hexit : s.exit <;> simp only [hexit] at h
  case stop r i =>
    cases r with
    | producer =>
      simp only at h
      split at h <;> cases h
      case h_1 p hp =>
        refine ⟨fun j q hj hjoined => ?_, fun j q hj hjoined => nomatch hjoined⟩
        rcases getElem?_set_cases hj with ⟨rfl, -⟩ | ⟨-, hj⟩
        · exact absurd hjoined (Nat.lt_irrefl j)
        · exact hs.producers j q hj (hexit ▸ hjoined)
      case h_2 hi =>
        refine ⟨fun j q hj _ => hs.producers j q hj ?_,
          fun j q hj hjoined => absurd hjoined (Nat.not_lt_zero j)⟩
        rw [hexit]
        exact Nat.lt_of_lt_of_le (List.getElem?_eq_some_iff.1 hj).1 (List.getElem?_eq_none_iff.1 hi)
    | consumer =>
      simp only at h
      split at h <;> cases h
      case h_1 c hc =>
        refine ⟨fun j q hj _ => hs.producers j q hj (by rw [hexit]; trivial),
          fun j q hj hjoined => ?_⟩
        rcases getElem?_set_cases hj with ⟨rfl, -⟩ | ⟨-, hj⟩
        · exact absurd hjoined (Nat.lt_irrefl j)
        · exact hs.consumers j q hj (hexit ▸ hjoined)
      case h_2 hi =>
        refine ⟨fun j q hj _ => hs.producers j q hj (by rw [hexit]; trivial),
          fun j q hj _ => hs.consumers j q hj ?_⟩
        rw [hexit]
        exact Nat.lt_of_lt_of_le (List.getElem?_eq_some_iff.1 hj).1 (List.getElem?_eq_none_iff.1 hi)
  case join r i =>
    split at h <;> cases h
    next hret =>
    cases r with
    | producer =>
      refine ⟨fun j q hj hjoined => ?_, fun j q hj hjoined => nomatch hjoined⟩
      rcases Nat.lt_succ_iff_lt_or_eq.1 hjoined with hlt | rfl
      · exact hs.producers j q hj (by rw [hexit]; exact hlt)
      · rw [Sys.hasReturned, hj] at hret
        exact of_decide_eq_true hret
    | consumer =>
      refine ⟨fun j q hj _ => hs.producers j q hj (by rw [hexit]; trivial),
        fun j q hj hjoined => ?_⟩
      rcases Nat.lt_succ_iff_lt_or_eq.1 hjoined with hlt | rfl
      · exact hs.consumers j q hj (by rw [hexit]; exact hlt)
      · rw [Sys.hasReturned, hj] at hret
        exact of_decide_eq_true hret
  case reset =>
    cases h
    exact ⟨fun j q hj _ => hs.producers j q hj (by rw [hexit]; trivial),
      fun j q hj _ => hs.consumers j q hj (by rw [hexit]; trivial)⟩
  case returned => cases h

/-- Until it resets the queue, the exit leaves it alone, and what the threads have in hand too. -/
theorem exit_step_hands (h : s.exit_step = some t) (hexit : t.exit ≠ .returned) :
    t.demo_queue = s.demo_queue ∧
    t.producers.filterMap Producer.hand = s.producers.filterMap Producer.hand ∧
    t.consumers.filterMap Consumer.hand = s.consumers.filterMap Consumer.hand := by
  unfold Sys.exit_step at h
  cases hs : s.exit <;> simp only [hs] at h
  case stop r i =>
    cases r <;> simp only at h <;> split at h <;> cases h
    · next p hp => exact ⟨rfl, filterMap_set_eq hp rfl, rfl⟩
    · exact ⟨rfl, rfl, rfl⟩
    · next c hc => exact ⟨rfl, rfl, filterMap_set_eq hc rfl⟩
    · exact ⟨rfl, rfl, rfl⟩
  case join r i =>
    split at h <;> cases h
    exact ⟨rfl, rfl, rfl⟩
  case reset =>
    cases h
    exact absurd rfl hexit
  case returned => cases h

/-! ## The invariant -/

theorem puts_append (es es' : List Event) : puts (es ++ es') = puts es ++ puts es' :=
  List.filterMap_append ..

theorem gets_append (es es' : List Event) : gets (es ++ es') = gets es ++ gets es' :=
  List.filterMap_append ..

@[simp] theorem puts_put (o : Option DataItem) : puts (o.toList.map .put) = o.toList := by
  cases o <;> rfl

@[simp] theorem gets_put (o : Option DataItem) : gets (o.toList.map .put) = [] := by
  cases o <;> rfl

@[simp] theorem puts_got (o : Option DataItem) : puts (o.toList.map .got) = [] := by
  cases o <;> rfl

@[simp] theorem gets_got (o : Option DataItem) : gets (o.toList.map .got) = o.toList := by
  cases o <;> rfl

namespace Inv

theorem running (hs : Inv s es) {r : Role} (h : s.step (.thread r k) = some t) :
    s.exit ≠ .returned := by
  intro hexit
  cases r with
  | producer =>
    obtain ⟨p, p', f, hp, hstep, -⟩ := producer_step_cases h
    unfold Producer.step at hstep
    rw [hs.joined.producers k p hp (by rw [hexit]; trivial)] at hstep
    cases hstep
  | consumer =>
    obtain ⟨c, c', f, hc, hstep, -⟩ := consumer_step_cases h
    unfold Consumer.step at hstep
    rw [hs.joined.consumers k c hc (by rw [hexit]; trivial)] at hstep
    cases hstep

theorem producer (hs : Inv s es) (hC : s.inTurn (.thread .producer k) = true)
    (h : s.step (.thread .producer k) = some t) : Inv t (es ++ s.events (.thread .producer k)) := by
  have hjoined := hs.joined.thread h
  have hrun := hs.running h
  obtain ⟨p, p', f, hp, hstep, rfl⟩ := producer_step_cases h
  obtain ⟨put, get, hput, hget, ht⟩ := hs.turns hrun
  have hroom : p.pc = .store → put = none ∧
      (s.demo_queue.ahead false get.isSome).is_full = false := by
    intro hpc
    rw [Sys.inTurn, hp, Option.all_some, Sys.roomFor, hpc] at hC
    rw [Sys.putting, any_isSome_of_filterMap hput, Sys.getting, any_isSome_of_filterMap hget] at hC
    simpa using hC
  obtain ⟨put', hput', ht'⟩ := producer_turns hp hstep hput ht hroom
  rw [Sys.events, hp, Option.bind_some]
  have hlog : f.Turns put' get (puts (es ++ p.hand.toList.map .put))
      (gets (es ++ p.hand.toList.map .put)) := by
    rwa [puts_append, puts_put, gets_append, gets_put, List.append_nil]
  exact ⟨hjoined, fun _ => ⟨put', get, hput', hget, hlog⟩, hlog.isPrefix⟩

theorem consumer (hs : Inv s es) (hC : s.inTurn (.thread .consumer k) = true)
    (h : s.step (.thread .consumer k) = some t) : Inv t (es ++ s.events (.thread .consumer k)) := by
  have hjoined := hs.joined.thread h
  have hrun := hs.running h
  obtain ⟨c, c', f, hc, hstep, rfl⟩ := consumer_step_cases h
  obtain ⟨put, get, hput, hget, ht⟩ := hs.turns hrun
  rw [Sys.inTurn, hc, Option.all_some, Sys.itemFor] at hC
  have hload : c.pc = .load → get = none ∧
      (s.demo_queue.ahead put.isSome false).is_empty = false := by
    intro hpc
    rw [hpc, Sys.putting, any_isSome_of_filterMap hput, Sys.getting,
      any_isSome_of_filterMap hget] at hC
    simpa using hC
  have hadvance : c.pc = .advance → s.demo_queue.is_empty = false := by
    intro hpc
    rw [hpc] at hC
    simpa using hC
  obtain ⟨get', hget', ht'⟩ := consumer_turns hc hstep hget ht hload hadvance
  rw [Sys.events, hc, Option.bind_some]
  have hlog : f.Turns put get' (puts (es ++ c.hand.toList.map .got))
      (gets (es ++ c.hand.toList.map .got)) := by
    rwa [puts_append, puts_got, gets_append, gets_got, List.append_nil]
  exact ⟨hjoined, fun _ => ⟨put, get', hput, hget', hlog⟩, hlog.isPrefix⟩

theorem exit (hs : Inv s es) (h : s.exit_step = some t) : Inv t es := by
  refine ⟨hs.joined.exit h, fun hexit => ?_, hs.passed⟩
  obtain ⟨hqueue, hproducers, hconsumers⟩ := exit_step_hands h hexit
  rw [hqueue, hproducers, hconsumers]
  refine hs.turns fun hret => ?_
  unfold Sys.exit_step at h
  rw [hret] at h
  cases h

theorem step {a : Action} (hs : Inv s es) (hC : s.inTurn a = true) (h : s.step a = some t) :
    Inv t (es ++ s.events a) := by
  cases a with
  | thread r k =>
    cases r with
    | producer => exact hs.producer hC h
    | consumer => exact hs.consumer hC h
  | exit => exact (List.append_nil es).symm ▸ hs.exit h

theorem init (producers consumers : Nat) : Inv (.init producers consumers) [] := by
  refine ⟨⟨fun k _ _ hk => absurd hk (Nat.not_lt_zero k), fun _ _ _ hk => nomatch hk⟩,
    fun _ => ⟨none, none, ?_, ?_, ?_⟩,
    List.prefix_refl _⟩
  · refine List.filterMap_eq_nil_iff.2 fun p hp => ?_
    obtain ⟨k, -, rfl⟩ := List.mem_map.1 hp
    rfl
  · refine List.filterMap_eq_nil_iff.2 fun c hc => ?_
    obtain ⟨k, -, rfl⟩ := List.mem_map.1 hc
    rfl
  · exact Kfifo.Turns.init _ rfl

end Inv

/-! ## Every run -/

theorem hands_of_stopped (h : s.stopped = true) :
    s.producers.filterMap Producer.hand = [] ∧ s.consumers.filterMap Consumer.hand = [] := by
  obtain ⟨hproducers, hconsumers⟩ := Bool.and_eq_true_iff.1 h
  refine ⟨List.filterMap_eq_nil_iff.2 fun p hp => ?_, List.filterMap_eq_nil_iff.2 fun c hc => ?_⟩
  · rw [Producer.hand, of_decide_eq_true (List.all_eq_true.1 hproducers p hp)]
    rfl
  · rw [Consumer.hand, of_decide_eq_true (List.all_eq_true.1 hconsumers c hc)]
    rfl

/-- **What is got was put**, once and in the same order; and when the threads have stopped, what was
put was got or is left. -/
theorem passed_of_inTurn {producers consumers : Nat} {as : List Action}
    (h : run Sys.step (.init producers consumers) as = some t)
    (hC : Along Sys.step (fun s a => s.inTurn a = true) (.init producers consumers) as) :
    gets (history producers consumers as) <+: puts (history producers consumers as) ∧
    (t.stopped = true → t.exit ≠ .returned →
      puts (history producers consumers as) = gets (history producers consumers as) ++
        t.demo_queue.contents) := by
  have hinv : Inv t ([] ++ history producers consumers as) :=
    record_of_run Inv.step (Inv.init producers consumers) hC h
  refine ⟨hinv.passed, fun hstopped hexit => ?_⟩
  obtain ⟨put, get, hput, hget, ht⟩ := hinv.turns hexit
  obtain ⟨hproducers, hconsumers⟩ := hands_of_stopped hstopped
  obtain rfl : put = none := Option.toList_eq_nil_iff.1 (hput.symm.trans hproducers)
  obtain rfl : get = none := Option.toList_eq_nil_iff.1 (hget.symm.trans hconsumers)
  exact ht.at_rest

/-- Two producers and a consumer that take turns, and the unload. -/
def inTurns : List Action :=
  List.replicate 4 (.thread .producer 0) ++ List.replicate 4 (.thread .producer 1) ++
    List.replicate 4 (.thread .consumer 0) ++
    [.exit, .thread .producer 0, .exit, .exit, .thread .producer 1, .exit, .exit, .exit,
      .thread .consumer 0, .exit, .exit]

theorem passed_inTurns : ∃ t, run Sys.step (.init 2 1) inTurns = some t ∧
    gets (history 2 1 inTurns) <+: puts (history 2 1 inTurns) ∧
    puts (history 2 1 inTurns) = gets (history 2 1 inTurns) ++ t.demo_queue.contents := by
  have h := passed_of_inTurn (rfl : run Sys.step (.init 2 1) inTurns = some _) (by decide)
  exact ⟨_, rfl, h.1, h.2 rfl nofun⟩

/-- Both producers store their first item before one of them moves on. -/
def overlap : List Action :=
  List.replicate 2 (.thread .producer 0) ++ List.replicate 2 (.thread .producer 1) ++
    [.thread .producer 0, .thread .producer 1, .thread .producer 0, .thread .producer 1] ++
    [.exit, .thread .producer 0, .exit, .exit, .thread .producer 1, .exit, .exit, .exit]

theorem run_overlap :
    ∃ t, run Sys.step (.init 2 0) overlap = some t ∧ t.stopped = true ∧ t.exit = .reset ∧
    puts (history 2 0 overlap) = [item 1 0, item 2 0] ∧ gets (history 2 0 overlap) = [] ∧
    t.demo_queue.contents = [item 2 0, ⟨0, 0, []⟩] :=
  ⟨_, rfl, rfl, rfl, rfl, rfl, rfl⟩

/-- Both puts have succeeded, and the first item is neither got nor left. -/
theorem overlap_loses_item :
    ∃ t, run Sys.step (.init 2 0) overlap = some t ∧ t.stopped = true ∧ t.exit = .reset ∧
    ¬ (puts (history 2 0 overlap)).Perm (gets (history 2 0 overlap) ++ t.demo_queue.contents) := by
  obtain ⟨t, hrun, hstopped, hexit, hputs, hgets, hleft⟩ := run_overlap
  refine ⟨t, hrun, hstopped, hexit, fun hperm => ?_⟩
  rw [hputs, hgets, hleft] at hperm
  have hmem : item 1 0 ∈ [item 2 0, ⟨0, 0, []⟩] := hperm.subset List.mem_cons_self
  rcases List.mem_cons.1 hmem with h | h
  · exact absurd (congrArg DataItem.id h) (by decide)
  · exact absurd (congrArg DataItem.id (List.mem_singleton.1 h)) (by decide)

end LinuxKernelProg.Sync.LocklessQueue
