import LinuxKernelProg.Sync.LocklessQueue.Passed

/-!
# One producer and one consumer

What the documentation of the queue asks for: whoever has found room, or an item, finds it again.
-/

namespace LinuxKernelProg.Sync.LocklessQueue

open LinuxKernelProg.Lib

variable {s t : Sys} {p : Producer} {c : Consumer} {k : Nat}

structure Single (s : Sys) : Prop where
  joined : Joined s
  producers : s.producers.length ≤ 1
  consumers : s.consumers.length ≤ 1
  room : ∀ p ∈ s.producers, p.pc = .store ∨ p.pc = .advance → s.demo_queue.len.toNat < 2 ^ 6
  item : ∀ c ∈ s.consumers, c.pc = .load ∨ c.pc = .advance → 0 < s.demo_queue.len.toNat

theorem eq_of_mem_single {α : Type} {l : List α} {a b : α} (hl : l.length ≤ 1) (ha : a ∈ l)
    (hb : b ∈ l) : a = b := by
  obtain ⟨i, hi⟩ := List.mem_iff_getElem?.1 ha
  obtain ⟨j, hj⟩ := List.mem_iff_getElem?.1 hb
  have hilt := (List.getElem?_eq_some_iff.1 hi).1
  have hjlt := (List.getElem?_eq_some_iff.1 hj).1
  obtain rfl : i = j := by omega
  exact Option.some.inj (hi.symm.trans hj)

theorem mem_set_single {α : Type} {l : List α} {a b d : α} (hl : l.length ≤ 1) (hk : l[k]? = some d)
    (h : b ∈ l.set k a) : b = a :=
  eq_of_mem_single ((List.length_set ..).trans_le hl) h
    (List.mem_set (List.getElem?_eq_some_iff.1 hk).1 a)

theorem Producer.hand_isSome (p : Producer) : p.hand.isSome = decide (p.pc = .advance) := by
  unfold Producer.hand
  split <;> simp [*]

theorem Consumer.hand_isSome (c : Consumer) : c.hand.isSome = decide (c.pc = .advance) := by
  unfold Consumer.hand
  split <;> simp [*]

namespace Single

theorem producer (hs : Single s) (h : s.step (.thread .producer k) = some t) : Single t := by
  have hjoined := hs.joined.thread h
  obtain ⟨p, p', f, hp, hstep, rfl⟩ := producer_step_cases h
  have hroom := hs.room p (List.mem_of_getElem? hp)
  suffices hp' : (p'.pc = .store ∨ p'.pc = .advance → f.len.toNat < 2 ^ 6) ∧
      (0 < s.demo_queue.len.toNat → 0 < f.len.toNat) by
    refine ⟨hjoined, (List.length_set ..).trans_le hs.producers, hs.consumers, fun q hq hpc => ?_,
      fun c hc hpc => hp'.2 (hs.item c hc hpc)⟩
    obtain rfl := mem_set_single hs.producers hp hq
    exact hp'.1 hpc
  obtain ⟨id, i, pc, should_stop⟩ := p
  unfold Producer.step at hstep
  cases pc <;> simp only at hstep
  case loop =>
    cases hstep
    refine ⟨fun hpc => ?_, fun h => h⟩
    dsimp only at hpc
    split at hpc <;> obtain hpc | hpc := hpc <;> cases hpc
  case full =>
    cases hstep
    refine ⟨fun hpc => ?_, fun h => h⟩
    cases hfull : s.demo_queue.is_full with
    | false => exact (Kfifo.is_full_eq_false (by decide)).1 hfull
    | true =>
      rw [hfull] at hpc
      rcases hpc with hpc | hpc <;> cases hpc
  case store =>
    cases hstep
    exact ⟨fun _ => hroom (.inl rfl), fun h => h⟩
  case advance =>
    cases hstep
    have hlt := hroom (.inr rfl)
    refine ⟨fun hpc => (by obtain hpc | hpc := hpc <;> cases hpc), fun _ => ?_⟩
    rw [Kfifo.len_advance_in (by omega)]
    exact Nat.succ_pos _
  case returned => cases hstep

theorem consumer (hs : Single s) (h : s.step (.thread .consumer k) = some t) : Single t := by
  have hjoined := hs.joined.thread h
  obtain ⟨c, c', f, hc, hstep, rfl⟩ := consumer_step_cases h
  have hitem := hs.item c (List.mem_of_getElem? hc)
  suffices hc' : (c'.pc = .load ∨ c'.pc = .advance → 0 < f.len.toNat) ∧
      f.len.toNat ≤ s.demo_queue.len.toNat by
    refine ⟨hjoined, hs.producers, (List.length_set ..).trans_le hs.consumers,
      fun p hp hpc => Nat.lt_of_le_of_lt hc'.2 (hs.room p hp hpc), fun d hd hpc => ?_⟩
    obtain rfl := mem_set_single hs.consumers hc hd
    exact hc'.1 hpc
  obtain ⟨id, n, x, pc, should_stop⟩ := c
  unfold Consumer.step at hstep
  cases pc <;> simp only at hstep
  case loop =>
    cases hstep
    refine ⟨fun hpc => ?_, Nat.le_refl _⟩
    dsimp only at hpc
    split at hpc <;> obtain hpc | hpc := hpc <;> cases hpc
  case empty =>
    cases hstep
    refine ⟨fun hpc => ?_, Nat.le_refl _⟩
    cases hempty : s.demo_queue.is_empty with
    | false =>
      refine Nat.pos_of_ne_zero fun e => ?_
      rw [Kfifo.is_empty_iff.2 e] at hempty
      cases hempty
    | true =>
      rw [hempty] at hpc
      rcases hpc with hpc | hpc <;> cases hpc
  case load =>
    cases hstep
    exact ⟨fun _ => hitem (.inl rfl), Nat.le_refl _⟩
  case advance =>
    cases hstep
    have hlen := Kfifo.len_advance_out (hitem (.inr rfl))
    exact ⟨fun hpc => (by obtain hpc | hpc := hpc <;> cases hpc), by omega⟩
  case returned => cases hstep

theorem exit (hs : Single s) (h : s.exit_step = some t) : Single t := by
  have hjoined := hs.joined.exit h
  unfold Sys.exit_step at h
  cases hexit : s.exit <;> simp only [hexit] at h
  case stop r i =>
    cases r with
    | producer =>
      simp only at h
      split at h <;> cases h
      case h_1 p hp =>
        refine ⟨hjoined, (List.length_set ..).trans_le hs.producers, hs.consumers,
          fun q hq hpc => ?_, hs.item⟩
        obtain rfl := mem_set_single hs.producers hp hq
        exact hs.room p (List.mem_of_getElem? hp) hpc
      case h_2 => exact ⟨hjoined, hs.producers, hs.consumers, hs.room, hs.item⟩
    | consumer =>
      simp only at h
      split at h <;> cases h
      case h_1 c hc =>
        refine ⟨hjoined, hs.producers, (List.length_set ..).trans_le hs.consumers,
          hs.room, fun d hd hpc => ?_⟩
        obtain rfl := mem_set_single hs.consumers hc hd
        exact hs.item c (List.mem_of_getElem? hc) hpc
      case h_2 => exact ⟨hjoined, hs.producers, hs.consumers, hs.room, hs.item⟩
  case join r i =>
    split at h <;> cases h
    exact ⟨hjoined, hs.producers, hs.consumers, hs.room, hs.item⟩
  case reset =>
    cases h
    refine ⟨hjoined, hs.producers, hs.consumers, fun _ _ _ => ?_, fun c hc hpc => ?_⟩
    · rw [← Kfifo.length_contents, Kfifo.contents_reset]
      exact Nat.two_pow_pos 6
    · obtain ⟨k, hk⟩ := List.mem_iff_getElem?.1 hc
      rw [hjoined.consumers k c hk trivial] at hpc
      rcases hpc with hpc | hpc <;> cases hpc
  case returned => cases h

theorem step {a : Action} (hs : Single s) (h : s.step a = some t) : Single t := by
  cases a with
  | thread r k =>
    cases r with
    | producer => exact hs.producer h
    | consumer => exact hs.consumer h
  | exit => exact hs.exit h

theorem roomFor (hs : Single s) (hp : p ∈ s.producers) : s.roomFor p = true := by
  unfold Sys.roomFor
  split
  · next hpc =>
    have hlt := hs.room p hp (.inl hpc)
    have hputting : s.putting = false := by
      refine List.any_eq_false.2 fun q hq => ?_
      rw [eq_of_mem_single hs.producers hq hp, Producer.hand_isSome, hpc]
      exact Bool.false_ne_true
    have hroom : (s.demo_queue.ahead false s.getting).is_full = false := by
      rw [Kfifo.is_full_eq_false (by decide)]
      cases hget : s.getting with
      | false => exact hlt
      | true =>
        obtain ⟨c, hc, hhand⟩ := List.any_eq_true.1 hget
        rw [Consumer.hand_isSome] at hhand
        have hlen := Kfifo.len_advance_out (hs.item c hc (.inr (of_decide_eq_true hhand)))
        change s.demo_queue.advance_out.len.toNat < 2 ^ 6
        omega
    rw [hputting, hroom]
    rfl
  · rfl

theorem itemFor (hs : Single s) (hc : c ∈ s.consumers) : s.itemFor c = true := by
  have hne : ∀ {f : Queue}, 0 < f.len.toNat → f.is_empty = false := by
    intro f hpos
    refine Bool.eq_false_iff.2 fun h => ?_
    rw [Kfifo.is_empty_iff.1 h] at hpos
    exact Nat.lt_irrefl 0 hpos
  unfold Sys.itemFor
  split
  · next hpc =>
    have hpos := hs.item c hc (.inl hpc)
    have hgetting : s.getting = false := by
      refine List.any_eq_false.2 fun d hd => ?_
      rw [eq_of_mem_single hs.consumers hd hc, Consumer.hand_isSome, hpc]
      exact Bool.false_ne_true
    have hitem : (s.demo_queue.ahead s.putting false).is_empty = false := by
      cases hput : s.putting with
      | false => exact hne hpos
      | true =>
        obtain ⟨p, hp, hhand⟩ := List.any_eq_true.1 hput
        rw [Producer.hand_isSome] at hhand
        have hlt := hs.room p hp (.inr (of_decide_eq_true hhand))
        refine hne (f := s.demo_queue.advance_in) ?_
        rw [Kfifo.len_advance_in (by omega)]
        exact Nat.succ_pos _
    rw [hgetting, hitem]
    rfl
  · next hpc => rw [hne (hs.item c hc (.inr hpc))]; rfl
  · rfl

/-- Nobody else is at the queue. -/
theorem inTurn (hs : Single s) (a : Action) : s.inTurn a = true := by
  cases a with
  | thread r k =>
    cases r with
    | producer => exact (Option.all_eq_true _ _).2 fun p hp => hs.roomFor (List.mem_of_getElem? hp)
    | consumer => exact (Option.all_eq_true _ _).2 fun c hc => hs.itemFor (List.mem_of_getElem? hc)
  | exit => rfl

end Single

/-- **One producer and one consumer** are always in turn. -/
theorem inTurn_of_single {producers consumers : Nat} (hp : producers ≤ 1) (hc : consumers ≤ 1)
    (as : List Action) :
    Along Sys.step (fun s a => s.inTurn a = true) (.init producers consumers) as := by
  refine Along.imp_of_inv (J := Single) (fun hs _ => hs.inTurn _) (fun hs _ h => hs.step h) ?_
    (Along.of_forall (C := fun _ _ => True) (fun _ _ => trivial) as _)
  have hinv := Inv.init producers consumers
  refine ⟨hinv.joined, ?_, ?_, fun p hp hpc => ?_, fun c hc hpc => ?_⟩
  · rwa [Sys.init, List.length_map, List.length_range]
  · rwa [Sys.init, List.length_map, List.length_range]
  · obtain ⟨k, -, rfl⟩ := List.mem_map.1 hp
    rcases hpc with hpc | hpc <;> cases hpc
  · obtain ⟨k, -, rfl⟩ := List.mem_map.1 hc
    rcases hpc with hpc | hpc <;> cases hpc

end LinuxKernelProg.Sync.LocklessQueue
