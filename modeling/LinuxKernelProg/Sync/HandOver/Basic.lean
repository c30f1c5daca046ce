import LinuxKernelProg.Lib.Turns

/-!
# A producer and a consumer

What `kthread_sync.c` and `kthread_sync_waitq.c` have in common: two kernel threads that work by
turns, and a module that stops the first and then the second when it is unloaded.
-/

namespace LinuxKernelProg.Sync.HandOver

open LinuxKernelProg.Lib

inductive Role where
  | prod
  | cons
  deriving DecidableEq

/-- The member `other`. -/
def Role.other : Role → Role
  | .prod => .cons
  | .cons => .prod

/-- What there is once for each of the two. -/
structure Pair (α : Type) where
  prod : α
  cons : α
  deriving DecidableEq

namespace Pair

variable {α : Type} (p : Pair α) (r : Role) (a : α)

def get : Role → α
  | .prod => p.prod
  | .cons => p.cons

def set : Role → Pair α
  | .prod => { p with prod := a }
  | .cons => { p with cons := a }

@[simp] theorem get_set (q : Role) : (p.set a r).get q = if q = r then a else p.get q := by
  cases r <;> cases q <;> rfl

end Pair

@[simp] theorem Role.other_ne (r : Role) : r.other ≠ r := by
  cases r <;> nofun

@[simp] theorem Role.other_other (r : Role) : r.other.other = r := by
  cases r <;> rfl

theorem Role.eq_other_of_ne {q r : Role} (h : q ≠ r) : q = r.other := by
  cases q <;> cases r <;> first | rfl | exact absurd rfl h

/-- A kernel thread. -/
structure Thread (Pc : Type) where
  pc : Pc
  /-- What `kthread_should_stop` returns. -/
  stop : Bool
  deriving DecidableEq

/-- Where `kthr_exit` is. -/
inductive Exit where
  /-- `kthread_stop` comes next. -/
  | stop (r : Role)
  /-- It has set the flag and woken the thread, and waits until its function has returned. -/
  | join (r : Role)
  | returned
  deriving DecidableEq

/-- A step of `kthr_exit`; the wake-up of a thread may move it. -/
def Exit.step {Pc : Type} (returned : Pc → Bool) (woken : Pc → Pc) (e : Exit)
    (ts : Pair (Thread Pc)) :
    Option (Exit × Pair (Thread Pc)) :=
  match e with
  | .stop r => some (.join r, ts.set ⟨woken (ts.get r).pc, true⟩ r)
  | .join .prod => if returned (ts.get .prod).pc then some (.stop .cons, ts) else none
  | .join .cons => if returned (ts.get .cons).pc then some (.returned, ts) else none
  | .returned => none

theorem Exit.step_cases {Pc : Type} {returned : Pc → Bool} {woken : Pc → Pc} {e e' : Exit}
    {ts ts' : Pair (Thread Pc)} (h : e.step returned woken ts = some (e', ts')) :
    (∃ r, e = .stop r ∧ e' = .join r ∧ ts' = ts.set ⟨woken (ts.get r).pc, true⟩ r) ∨
    (e = .join .prod ∧ returned (ts.get .prod).pc ∧ e' = .stop .cons ∧ ts' = ts) ∨
    (e = .join .cons ∧ returned (ts.get .cons).pc ∧ e' = .returned ∧ ts' = ts) := by
  unfold Exit.step at h
  split at h
  · next r =>
    cases h
    exact .inl ⟨r, rfl, rfl, rfl⟩
  · split at h
    · next hret =>
      cases h
      exact .inr (.inl ⟨rfl, hret, rfl, rfl⟩)
    · nomatch h
  · split at h
    · next hret =>
      cases h
      exact .inr (.inr ⟨rfl, hret, rfl, rfl⟩)
    · nomatch h
  · nomatch h

/-- A step of the exit wakes a thread, or leaves it. -/
theorem Exit.step_pc_or {Pc : Type} {returned : Pc → Bool} {woken : Pc → Pc} {e e' : Exit}
    {ts ts' : Pair (Thread Pc)} (h : e.step returned woken ts = some (e', ts')) (q : Role) :
    (ts'.get q).pc = (ts.get q).pc ∨ (ts'.get q).pc = woken (ts.get q).pc := by
  rcases Exit.step_cases h with ⟨r, -, -, rfl⟩ | ⟨-, -, -, rfl⟩ | ⟨-, -, -, rfl⟩
  · rw [Pair.get_set]
    split
    · next hq =>
      rw [hq]
      exact .inr rfl
    · exact .inl rfl
  · exact .inl rfl
  · exact .inl rfl

/-- What a wake-up does not change is not changed by the exit. -/
theorem Exit.step_pc {Pc β : Type} {returned : Pc → Bool} {woken : Pc → Pc} {e e' : Exit}
    {ts ts' : Pair (Thread Pc)} (f : Pc → β) (hf : ∀ pc, f (woken pc) = f pc)
    (h : e.step returned woken ts = some (e', ts')) (q : Role) :
    f (ts'.get q).pc = f (ts.get q).pc := by
  rcases Exit.step_pc_or h q with hpc | hpc
  · rw [hpc]
  · rw [hpc, hf]

/-! ## Turns -/

/-- The sections of the two alternate, and the producer begins. -/
def party (i : Nat) : Role := if i % 2 = 0 then .prod else .cons

/-- **What both modules promise**, by the tokens that are left for each of the two, who is in a
section, and the sections that were entered, the latest one first. -/
structure TakesTurns (tokens : Pair Nat) (inside : Pair Bool) (log : List Role) : Prop where
  /-- There is one token. -/
  token : tokens.prod + tokens.cons + inside.prod.toNat + inside.cons.toNat = 1
  apart : ¬ (inside.prod ∧ inside.cons)
  alternate : log.reverse = (List.range log.length).map party
  /-- A section of the consumer follows a section of the producer, a different one each time. -/
  paired : ∀ k, log.reverse[k]? = some .cons →
    ∃ i, k = 2 * i + 1 ∧ log.reverse[2 * i]? = some .prod

/-- Whether the turn is offered to a party. -/
def offered (u : Turns Role) (r : Role) : Bool := !u.inside && decide (u.party = r)

def isInside (u : Turns Role) (r : Role) : Bool := u.inside && decide (u.party = r)

/-- How the tokens and the sections of a module stand for a turn. -/
structure Shows (tokens : Role → Nat) (inside : Role → Bool) (log : List Role) (u : Turns Role) :
    Prop where
  tokens_eq : ∀ r, tokens r = (offered u r).toNat
  inside_eq : ∀ r, inside r = isInside u r
  log_eq : log = u.log

theorem nth_eq_party (i : Nat) : Turns.nth Role.other .prod i = party i := by
  induction i with
  | zero => rfl
  | succ i ih =>
    rw [Turns.nth] at ih ⊢
    rw [Function.iterate_succ_apply', ih]
    unfold party
    rcases Nat.mod_two_eq_zero_or_one i with h | h
    · rw [if_pos h, if_neg (by omega)]
      rfl
    · rw [if_neg (by omega), if_pos (by omega)]
      rfl

theorem takesTurns_of_shows {tokens : Pair Nat} {inside : Pair Bool} {log : List Role}
    {u : Turns Role} (h : Shows tokens.get inside.get log u)
    (hu : Turns.Ordered Role.other .prod u.log) :
    TakesTurns tokens inside log := by
  have hordered : log.reverse = (List.range log.length).map party := by
    rw [h.log_eq, hu]
    exact List.map_congr_left fun i _ => nth_eq_party i
  have hp : tokens.prod = (offered u .prod).toNat := h.tokens_eq .prod
  have hc : tokens.cons = (offered u .cons).toNat := h.tokens_eq .cons
  have hip : inside.prod = isInside u .prod := h.inside_eq .prod
  have hic : inside.cons = isInside u .cons := h.inside_eq .cons
  obtain ⟨p, i, l⟩ := u
  constructor
  · rw [hp, hc, hip, hic]
    cases p <;> cases i <;> rfl
  · rw [hip, hic]
    cases p <;> cases i <;> simp [isInside]
  · exact hordered
  · intro k hk
    have hlt : k < log.length := by
      obtain ⟨hk, -⟩ := List.getElem?_eq_some_iff.1 hk
      rwa [List.length_reverse] at hk
    rw [hordered, List.getElem?_map, List.getElem?_range hlt] at hk
    have hodd : k % 2 = 1 := by
      by_contra hne
      rw [Option.map_some, party, if_pos (by omega)] at hk
      nomatch hk
    refine ⟨k / 2, by omega, ?_⟩
    rw [hordered, List.getElem?_map, List.getElem?_range (by omega), Option.map_some, party,
      if_pos (by omega)]

/-! ## The steps of a turn

What a module has to show for each of its steps: the token goes into the section, out of it, or
stays where it is. -/

section

variable {tokens tokens' : Role → Nat} {inside inside' : Role → Bool} {log log' : List Role}
  {u : Turns Role} {r : Role}

/-- A party takes the token that is left for it. -/
theorem Shows.enter (h : Shows tokens inside log u) (hr : tokens r ≠ 0)
    (ht : ∀ q, tokens' q = if q = r then 0 else tokens q)
    (hi : ∀ q, inside' q = if q = r then true else inside q) :
    ∃ m u', Turns.step Role.other u m = some u' ∧ Shows tokens' inside' (r :: log) u' := by
  have hoffered : offered u r = true := by
    have htokens := h.tokens_eq r
    cases ho : offered u r with
    | false =>
      rw [ho] at htokens
      exact absurd htokens hr
    | true => rfl
  obtain ⟨p, i, l⟩ := u
  simp only [offered, Bool.and_eq_true, Bool.not_eq_true', decide_eq_true_eq] at hoffered
  obtain ⟨rfl, rfl⟩ := hoffered
  refine ⟨.enter, ⟨p, true, p :: l⟩, rfl, fun q => ?_, fun q => ?_, by rw [h.log_eq]⟩
  · rw [ht, h.tokens_eq]
    split
    · rfl
    · next hq => simp [offered, Ne.symm hq]
  · rw [hi, h.inside_eq]
    split
    · next hq => simp [isInside, hq]
    · next hq => simp [isInside, Ne.symm hq]

/-- A party leaves a token for the other one. -/
theorem Shows.leave (h : Shows tokens inside log u) (hr : inside r = true)
    (ht : ∀ q, tokens' q = if q = r.other then 1 else tokens q)
    (hi : ∀ q, inside' q = if q = r then false else inside q) :
    ∃ m u', Turns.step Role.other u m = some u' ∧ Shows tokens' inside' log u' := by
  have hinside : isInside u r = true := (h.inside_eq r).symm.trans hr
  obtain ⟨p, i, l⟩ := u
  simp only [isInside, Bool.and_eq_true, decide_eq_true_eq] at hinside
  obtain ⟨rfl, rfl⟩ := hinside
  refine ⟨.leave, ⟨p.other, false, l⟩, rfl, fun q => ?_, fun q => ?_, h.log_eq⟩
  · rw [ht, h.tokens_eq]
    split
    · next hq => simp [offered, hq]
    · next hq => simp [offered, Ne.symm hq]
  · rw [hi, h.inside_eq]
    split
    · rfl
    · next hq => simp [isInside, Ne.symm hq]

/-- Nothing is left for anyone while a party is inside, and nobody else is inside. -/
theorem Shows.tokens_eq_zero (h : Shows tokens inside log u) (hr : inside r = true) (q : Role) :
    tokens q = 0 := by
  have hinside : isInside u r = true := (h.inside_eq r).symm.trans hr
  simp only [isInside, Bool.and_eq_true] at hinside
  rw [h.tokens_eq, offered, hinside.1]
  rfl

theorem Shows.stay (h : Shows tokens inside log u) (ht : ∀ q, tokens' q = tokens q)
    (hi : ∀ q, inside' q = inside q) : Shows tokens' inside' log u :=
  ⟨fun q => (ht q).trans (h.tokens_eq q), fun q => (hi q).trans (h.inside_eq q), h.log_eq⟩

end

end LinuxKernelProg.Sync.HandOver
