import LinuxKernelProg.Lib.Run

/-!
# A published item that nothing keeps

Calls that share one pointer: they load it, clear it or publish a new item through it, and use or
free the item they have, with nothing that keeps an item while a call has it. `misuse_iff` says for
which calls some order of their steps uses or frees an item that has been freed.
-/

namespace LinuxKernelProg.Lib

inductive PtrOp where
  /-- The call has what is published. -/
  | load
  /-- The call allocates an item and publishes it. -/
  | publish
  | clear
  | use
  | free
  deriving DecidableEq

namespace PtrOp

/-- The operation needs an item that has not been freed. -/
def touches : PtrOp → Bool
  | use | free => true
  | _ => false

/-- The call has another item afterwards. -/
def gets : PtrOp → Bool
  | load | publish => true
  | _ => false

end PtrOp

structure PtrCall where
  item : Option Nat
  todo : List PtrOp

def PtrCall.start (ops : List PtrOp) : PtrCall := ⟨none, ops⟩

structure Published where
  cell : Option Nat
  next : Nat
  freed : List Nat
  calls : List PtrCall

namespace Published

/-- One operation of the call at `i`, whose item and further operations these are. -/
def exec (s : Published) (i : Nat) (item : Option Nat) (todo : List PtrOp) : PtrOp → Published
  | .load => { s with calls := s.calls.set i ⟨s.cell, todo⟩ }
  | .publish =>
    { s with cell := some s.next, next := s.next + 1, calls := s.calls.set i ⟨some s.next, todo⟩ }
  | .clear => { s with cell := none, calls := s.calls.set i ⟨item, todo⟩ }
  | .use => { s with calls := s.calls.set i ⟨item, todo⟩ }
  | .free => { s with freed := item.toList ++ s.freed, calls := s.calls.set i ⟨item, todo⟩ }

def step (s : Published) (i : Nat) : Option Published :=
  s.calls[i]?.bind fun c =>
    match c.todo with
    | [] => none
    | op :: todo => some (s.exec i c.item todo op)

/-- The next step of the call uses or frees an item that has been freed. -/
def Misuse (s : Published) (i : Nat) : Prop :=
  ∃ x op todo, s.calls[i]? = some ⟨some x, op :: todo⟩ ∧ op.touches = true ∧ x ∈ s.freed

/-- Some order of the steps gets there. -/
def CanMisuse (s : Published) : Prop := ∃ is t i, run step s is = some t ∧ t.Misuse i

variable {s t : Published} {i j : Nat} {c : PtrCall} {op : PtrOp} {item : Option Nat}
  {todo : List PtrOp} {x : Nat}

theorem step_cases (h : s.step i = some t) :
    ∃ item op todo, s.calls[i]? = some ⟨item, op :: todo⟩ ∧ t = s.exec i item todo op := by
  obtain ⟨⟨item, todo⟩, hc, h⟩ := Option.bind_eq_some_iff.1 h
  cases todo with
  | nil => nomatch h
  | cons op todo => exact ⟨item, op, todo, hc, (Option.some.inj h).symm⟩

theorem step_eq (h : s.calls[i]? = some ⟨item, op :: todo⟩) :
    s.step i = some (s.exec i item todo op) := by
  rw [step, h, Option.bind_some]

/-- What a step leaves of the calls. -/
theorem exec_calls (s : Published) (i : Nat) (item : Option Nat) (todo : List PtrOp) (op : PtrOp) :
    ∃ item', (s.exec i item todo op).calls = s.calls.set i ⟨item', todo⟩ := by
  cases op <;> exact ⟨_, rfl⟩

theorem exec_other (h : i ≠ j) : (s.exec i item todo op).calls[j]? = s.calls[j]? := by
  obtain ⟨item', heq⟩ := exec_calls s i item todo op
  rw [heq, List.getElem?_set_ne h]

/-- Every call after a step is one of before, or what is left of one. -/
theorem exec_suffix (hi : s.calls[i]? = some ⟨item, op :: todo⟩)
    (hj : (s.exec i item todo op).calls[j]? = some c) :
    ∃ c₀, s.calls[j]? = some c₀ ∧ c.todo <:+ c₀.todo := by
  obtain ⟨item', heq⟩ := exec_calls s i item todo op
  rw [heq] at hj
  rcases getElem?_set_cases hj with ⟨rfl, rfl⟩ | ⟨-, hj⟩
  · exact ⟨_, hi, List.suffix_cons op todo⟩
  · exact ⟨c, hj, List.suffix_refl _⟩

theorem exec_suffix_of_mem (hi : s.calls[i]? = some ⟨item, op :: todo⟩)
    (hc : c ∈ (s.exec i item todo op).calls) : ∃ c₀ ∈ s.calls, c.todo <:+ c₀.todo := by
  obtain ⟨j, hj⟩ := List.mem_iff_getElem?.1 hc
  obtain ⟨c₀, hc₀, hsuffix⟩ := exec_suffix hi hj
  exact ⟨c₀, List.mem_of_getElem? hc₀, hsuffix⟩

/-! ## Calls that cannot misuse anything -/

/-- Whoever frees does it once, nobody else touches an item, and once something is freed nobody
does. -/
structure Apart (s : Published) : Prop where
  alone : ∀ {i j : Nat} {c d : PtrCall}, i ≠ j → s.calls[i]? = some c → s.calls[j]? = some d →
    .free ∈ c.todo → ∀ op ∈ d.todo, op.touches = false
  once : ∀ c ∈ s.calls, .free ∈ c.todo → c.todo.countP PtrOp.touches ≤ 1
  freed : s.freed = [] ∨ ∀ c ∈ s.calls, ∀ op ∈ c.todo, op.touches = false

theorem Apart.step (hs : Apart s) (h : s.step i = some t) : Apart t := by
  obtain ⟨item, op, todo, hi, rfl⟩ := step_cases h
  refine ⟨fun hne hc hd hfree => ?_, fun c hc hfree => ?_, ?_⟩
  · obtain ⟨c₀, hc₀, hcs⟩ := exec_suffix hi hc
    obtain ⟨d₀, hd₀, hds⟩ := exec_suffix hi hd
    exact fun op' hop => hs.alone hne hc₀ hd₀ (hcs.subset hfree) op' (hds.subset hop)
  · obtain ⟨c₀, hc₀, hcs⟩ := exec_suffix_of_mem hi hc
    exact Nat.le_trans hcs.sublist.countP_le (hs.once c₀ hc₀ (hcs.subset hfree))
  rcases hs.freed with hempty | hno
  · by_cases hop : op = .free
    · -- the only one that touches an item has done so
      subst hop
      refine .inr fun c hc op' hop' => ?_
      obtain ⟨j, hc⟩ := List.mem_iff_getElem?.1 hc
      obtain ⟨item', heq⟩ := exec_calls s i item todo .free
      rw [heq] at hc
      rcases getElem?_set_cases hc with ⟨rfl, rfl⟩ | ⟨hne, hc⟩
      · have hcount := hs.once _ (List.mem_of_getElem? hi) List.mem_cons_self
        rw [List.countP_cons_of_pos rfl] at hcount
        have hzero : todo.countP PtrOp.touches = 0 := by omega
        exact Bool.not_eq_true _ ▸ List.countP_eq_zero.1 hzero op' hop'
      · exact hs.alone (Ne.symm hne) hi hc List.mem_cons_self op' hop'
    · refine .inl ?_
      cases op with
      | free => exact absurd rfl hop
      | _ => exact hempty
  · refine .inr fun c hc op' hop' => ?_
    obtain ⟨c₀, hc₀, hcs⟩ := exec_suffix_of_mem hi hc
    exact hno c₀ hc₀ op' (hcs.subset hop')

theorem Apart.not_misuse (hs : Apart s) : ¬s.Misuse i := by
  rintro ⟨x, op, todo, hi, htouch, hx⟩
  rcases hs.freed with hempty | hno
  · rw [hempty] at hx
    nomatch hx
  · rw [hno _ (List.mem_of_getElem? hi) op List.mem_cons_self] at htouch
    nomatch htouch

/-- There is no item, and there will be none. -/
structure Empty (s : Published) : Prop where
  cell : s.cell = none
  item : ∀ c ∈ s.calls, c.item = none
  todo : ∀ c ∈ s.calls, .publish ∉ c.todo

theorem Empty.step (hs : Empty s) (h : s.step i = some t) : Empty t := by
  obtain ⟨item, op, todo, hi, rfl⟩ := step_cases h
  have hmem := List.mem_of_getElem? hi
  have hitem := hs.item _ hmem
  have hno := hs.todo _ hmem
  have hop : op ≠ .publish := fun heq => hno (heq ▸ List.mem_cons_self)
  have hcell : (s.exec i item todo op).cell = none := by
    cases op with
    | publish => exact absurd rfl hop
    | clear => rfl
    | _ => exact hs.cell
  have hset : (s.exec i item todo op).calls = s.calls.set i ⟨none, todo⟩ := by
    cases op with
    | publish => exact absurd rfl hop
    | load => exact congrArg (fun o => s.calls.set i ⟨o, todo⟩) hs.cell
    | _ => exact congrArg (fun o => s.calls.set i ⟨o, todo⟩) hitem
  refine ⟨hcell, fun c hc => ?_, fun c hc => ?_⟩
  · rw [hset] at hc
    rcases List.mem_or_eq_of_mem_set hc with hc | rfl
    · exact hs.item c hc
    · rfl
  · rw [hset] at hc
    rcases List.mem_or_eq_of_mem_set hc with hc | rfl
    · exact hs.todo c hc
    · exact fun h => hno (List.mem_cons_of_mem _ h)

theorem Empty.not_misuse (hs : Empty s) : ¬s.Misuse i := by
  rintro ⟨x, op, todo, hi, -⟩
  nomatch hs.item _ (List.mem_of_getElem? hi)

/-! ## Calls that can -/

theorem CanMisuse.of_run {is : List Nat} (h : run step s is = some t) (ht : t.CanMisuse) :
    s.CanMisuse := by
  obtain ⟨js, u, i, hu, hmisuse⟩ := ht
  exact ⟨is ++ js, u, i, run_append.2 ⟨t, h, hu⟩, hmisuse⟩

/-- A call keeps its item where it does not get another one. -/
theorem exec_self (hi : s.calls[i]? = some c) (hop : op.gets = false) :
    (s.exec i item todo op).calls[i]? = some ⟨item, todo⟩ := by
  have hlt := (List.getElem?_eq_some_iff.1 hi).1
  cases op with
  | load => nomatch hop
  | publish => nomatch hop
  | _ => exact List.getElem?_set_self hlt

theorem exec_freed (hx : x ∈ s.freed) : x ∈ (s.exec i item todo op).freed := by
  cases op with
  | free => exact List.mem_append_right _ hx
  | _ => exact hx

/-- A call that has an item goes on until it has freed it. -/
theorem exists_run_free (hi : s.calls[i]? = some ⟨some x, todo⟩)
    (hgets : ∀ op ∈ todo, op.gets = false) (hfree : .free ∈ todo) :
    ∃ is t, run step s is = some t ∧ x ∈ t.freed ∧
      ∀ j, i ≠ j → t.calls[j]? = s.calls[j]? := by
  induction todo generalizing s with
  | nil => nomatch hfree
  | cons op todo ih =>
    by_cases hop : op = .free
    · subst hop
      refine ⟨[i], _, run_cons.2 ⟨_, step_eq hi, rfl⟩, List.mem_append_left _ ?_,
        fun j hne => exec_other hne⟩
      exact List.mem_singleton.2 rfl
    · obtain ⟨is, t, hrun, hx, hothers⟩ := ih (exec_self hi (hgets op List.mem_cons_self))
        (fun o ho => hgets o (List.mem_cons_of_mem _ ho))
          (List.mem_of_ne_of_mem (Ne.symm hop) hfree)
      exact ⟨i :: is, t, run_cons.2 ⟨_, step_eq hi, hrun⟩, hx, fun j hne =>
        (hothers j hne).trans (exec_other hne)⟩

/-- A call that has a freed item goes on until it touches it. -/
theorem canMisuse_of_freed (hi : s.calls[i]? = some ⟨some x, todo⟩) (hx : x ∈ s.freed)
    (hgets : ∀ op ∈ todo, op.gets = false) (htouch : ∃ op ∈ todo, op.touches = true) :
    s.CanMisuse := by
  induction todo generalizing s with
  | nil => nomatch htouch
  | cons op todo ih =>
    by_cases hop : op.touches = true
    · exact ⟨[], s, i, rfl, x, op, todo, hi, hop, hx⟩
    · obtain ⟨o, ho, htouch⟩ := htouch
      have hne : o ≠ op := fun heq => hop (heq ▸ htouch)
      refine .of_run (run_cons.2 ⟨_, step_eq hi, run_nil _⟩) ?_
      exact ih (exec_self hi (hgets op List.mem_cons_self)) (exec_freed hx)
        (fun o ho => hgets o (List.mem_cons_of_mem _ ho)) ⟨o, List.mem_of_ne_of_mem hne ho, htouch⟩

/-- While one call has the published item, another one loads and frees it. -/
theorem canMisuse_of_both {ops : List PtrOp} (hne : i ≠ j) (hcell : s.cell = some x)
    (hi : s.calls[i]? = some ⟨item, .load :: ops⟩) (hops : ∀ op ∈ ops, op.gets = false)
    (hfree : .free ∈ ops) (hj : s.calls[j]? = some ⟨some x, todo⟩)
    (htodo : ∀ op ∈ todo, op.gets = false) (htouch : ∃ op ∈ todo, op.touches = true) :
    s.CanMisuse := by
  have hlt := (List.getElem?_eq_some_iff.1 hi).1
  have hload : (s.exec i item ops .load).calls[i]? = some ⟨some x, ops⟩ :=
    hcell ▸ List.getElem?_set_self hlt
  obtain ⟨is, t, hrun, hx, hothers⟩ := exists_run_free hload hops hfree
  refine .of_run (run_cons.2 ⟨_, step_eq hi, hrun⟩) ?_
  exact canMisuse_of_freed ((hothers j hne).trans ((exec_other hne).trans hj)) hx htodo htouch

/-- A program gets one item, with its first operation, and uses or frees it once; what it frees is
something it has loaded. -/
structure Simple (ops : List PtrOp) : Prop where
  once : ops.countP PtrOp.touches ≤ 1
  tail : ∀ op ∈ ops.tail, op.gets = false
  head : (∃ op ∈ ops, op.touches = true) → ∃ op rest, ops = op :: rest ∧ op.gets = true
  load : .free ∈ ops → ops.head? = some .load

theorem Simple.eq_load {ops : List PtrOp} (hs : Simple ops) (hfree : .free ∈ ops) :
    ∃ rest, ops = .load :: rest ∧ (∀ op ∈ rest, op.gets = false) ∧ .free ∈ rest := by
  cases ops with
  | nil => nomatch hfree
  | cons op rest =>
    obtain rfl := Option.some.inj (hs.load hfree)
    exact ⟨rest, rfl, hs.tail, (List.mem_cons.1 hfree).resolve_left nofun⟩

theorem Simple.eq_publish {ops : List PtrOp} (hs : Simple ops) (hpublish : .publish ∈ ops) :
    ∃ rest, ops = .publish :: rest := by
  cases ops with
  | nil => nomatch hpublish
  | cons op rest =>
    rcases List.mem_cons.1 hpublish with rfl | hrest
    · exact ⟨rest, rfl⟩
    · nomatch hs.tail _ hrest

theorem Simple.eq_get {ops : List PtrOp} (hs : Simple ops)
    (htouch : ∃ op ∈ ops, op.touches = true) :
    ∃ g rest, ops = g :: rest ∧ (g = .load ∨ g = .publish) ∧ (∀ op ∈ rest, op.gets = false) ∧
      ∃ op ∈ rest, op.touches = true := by
  obtain ⟨g, rest, rfl, hg⟩ := hs.head htouch
  obtain ⟨op, hop, ht⟩ := htouch
  have hne : op ≠ g := by
    rintro rfl
    cases op <;> nomatch hg, ht
  refine ⟨g, rest, rfl, ?_, hs.tail, op, (List.mem_cons.1 hop).resolve_left hne, ht⟩
  cases g with
  | load => exact .inl rfl
  | publish => exact .inr rfl
  | _ => nomatch hg

/-- Where some order of the steps misuses an item: there is one or will be one, one call frees, and
another one touches. -/
theorem canMisuse_iff {progs : List (List PtrOp)} (hsimple : ∀ p ∈ progs, Simple p)
    (cell : Option Nat) (next : Nat) :
    CanMisuse ⟨cell, next, [], progs.map .start⟩ ↔
      (cell ≠ none ∨ ∃ p ∈ progs, .publish ∈ p) ∧
        ∃ (i j : Nat) (p q : List PtrOp), i ≠ j ∧ progs[i]? = some p ∧
          progs[j]? = some q ∧ .free ∈ p ∧
          ∃ op ∈ q, op.touches = true := by
  have hget : ∀ {i : Nat} {p : List PtrOp}, progs[i]? = some p →
      (progs.map PtrCall.start)[i]? = some ⟨none, p⟩ := by
    intro i p hp
    rw [List.getElem?_map, hp]
    rfl
  constructor
  · rintro ⟨is, t, i, hrun, hmisuse⟩
    refine ⟨?_, ?_⟩
    · by_contra hno
      obtain ⟨hcell, hnone⟩ := not_or.1 hno
      have hinit : Empty ⟨cell, next, [], progs.map .start⟩ := by
        refine ⟨not_not.1 hcell, fun c hc => ?_, fun c hc hp => ?_⟩
        · obtain ⟨p, -, rfl⟩ := List.mem_map.1 hc
          rfl
        · obtain ⟨p, hmem, rfl⟩ := List.mem_map.1 hc
          exact hnone ⟨p, hmem, hp⟩
      have ht : Empty t := run_inv_of_step (fun hs h => hs.step h) hinit hrun
      exact ht.not_misuse hmisuse
    · by_contra hno
      have hinit : Apart ⟨cell, next, [], progs.map .start⟩ := by
        refine ⟨fun {i j c d} hne hc hd hfree op hop => ?_, fun c hc _ => ?_, .inl rfl⟩
        · rw [List.getElem?_map, Option.map_eq_some_iff] at hc hd
          obtain ⟨p, hp, rfl⟩ := hc
          obtain ⟨q, hq, rfl⟩ := hd
          refine Bool.not_eq_true _ ▸ fun ht => hno ⟨i, j, p, q, hne, hp, hq, hfree, op, hop, ht⟩
        · obtain ⟨p, hp, rfl⟩ := List.mem_map.1 hc
          exact (hsimple p hp).once
      have ht : Apart t := run_inv_of_step (fun hs h => hs.step h) hinit hrun
      exact ht.not_misuse hmisuse
  · rintro ⟨hitem, i, j, p, q, hne, hi, hj, hfree, htouch⟩
    obtain ⟨p, rfl, hp, hfree⟩ := (hsimple p (List.mem_of_getElem? hi)).eq_load hfree
    obtain ⟨g, q', rfl, hg, hq, htouch'⟩ := (hsimple q (List.mem_of_getElem? hj)).eq_get htouch
    rcases hg with rfl | rfl
    · have hsome : ∀ {u : Published} {x : Nat}, u.cell = some x →
          u.calls[i]? = some ⟨none, .load :: p⟩ →
            u.calls[j]? = some ⟨none, .load :: q'⟩ → u.CanMisuse := by
        intro u x hcell hi hj
        have hlt := (List.getElem?_eq_some_iff.1 hj).1
        refine .of_run (run_cons.2 ⟨_, step_eq hj, run_nil _⟩) ?_
        refine canMisuse_of_both hne hcell
          ((exec_other (Ne.symm hne)).trans hi) hp hfree ?_ hq htouch'
        exact hcell ▸ List.getElem?_set_self hlt
      cases cell with
      | some x => exact hsome rfl (hget hi) (hget hj)
      | none =>
        obtain ⟨r, hr, hpublish⟩ := hitem.resolve_left (not_not_intro rfl)
        obtain ⟨k, hk⟩ := List.mem_iff_getElem?.1 hr
        obtain ⟨rest, rfl⟩ := (hsimple r hr).eq_publish hpublish
        -- whoever publishes does not load
        have hother : ∀ {m : Nat} {l : List PtrOp}, progs[m]? = some (.load :: l) → k ≠ m := by
          rintro m l hm rfl
          nomatch hk.symm.trans hm
        refine .of_run (run_cons.2 ⟨_, step_eq (hget hk), run_nil _⟩) ?_
        exact hsome rfl ((exec_other (hother hi)).trans (hget hi))
          ((exec_other (hother hj)).trans (hget hj))
    · -- the item of `j` is its own
      have hlt := (List.getElem?_eq_some_iff.1 (hget hj)).1
      refine .of_run (run_cons.2 ⟨_, step_eq (hget hj), run_nil _⟩) ?_
      refine canMisuse_of_both hne rfl
        ((exec_other (Ne.symm hne)).trans (hget hi)) hp hfree ?_ hq htouch'
      exact List.getElem?_set_self hlt

/-! ## Calls one after the other -/

/-- The order of the steps, the first call at `k`. -/
def serial : Nat → List (List PtrOp) → List Nat
  | _, [] => []
  | k, ops :: progs => List.replicate ops.length k ++ serial (k + 1) progs

variable {before rest : List PtrCall} {cell : Option Nat} {next : Nat}
  {freed : List Nat} {ops : List PtrOp}

theorem getElem?_behind {c : PtrCall} : (before ++ c :: rest)[before.length]? = some c := by
  rw [List.getElem?_append_right (Nat.le_refl _), Nat.sub_self]
  rfl

/-- The call behind `before` makes its step. -/
theorem step_behind (op : PtrOp) :
    step ⟨cell, next, freed, before ++ ⟨item, op :: todo⟩ :: rest⟩ before.length =
      some (match op with
      | .load => ⟨cell, next, freed, before ++ ⟨cell, todo⟩ :: rest⟩
      | .publish => ⟨some next, next + 1, freed, before ++ ⟨some next, todo⟩ :: rest⟩
      | .clear => ⟨none, next, freed, before ++ ⟨item, todo⟩ :: rest⟩
      | .use => ⟨cell, next, freed, before ++ ⟨item, todo⟩ :: rest⟩
      | .free => ⟨cell, next, item.toList ++ freed, before ++ ⟨item, todo⟩ :: rest⟩) := by
  have hset : ∀ c d, (before ++ c :: rest).set before.length d = before ++ d :: rest := by
    intro c d
    rw [List.set_append_right _ _ (Nat.le_refl _), Nat.sub_self]
    rfl
  rw [step_eq getElem?_behind]
  cases op <;> simp only [exec, hset]

theorem not_misuse_behind {op : PtrOp} (h : op.touches = true → ∀ x ∈ freed, item ≠ some x) :
    ¬Misuse ⟨cell, next, freed, before ++ ⟨item, op :: todo⟩ :: rest⟩ before.length := by
  rintro ⟨x, op', todo', hget, htouch, hx⟩
  cases getElem?_behind.symm.trans hget
  exact h htouch x hx rfl

/-- A run in which nothing that has been freed is used or freed. -/
structure SafeRun (s : Published) (is : List Nat) (t : Published) : Prop where
  run : run step s is = some t
  safe : Along step (fun s i => ¬s.Misuse i) s is

namespace SafeRun

variable {is js : List Nat} {u : Published}

theorem nil (s : Published) : SafeRun s [] s := ⟨rfl, trivial⟩

theorem cons (h : s.step i = some t) (hsafe : ¬s.Misuse i) (hrest : SafeRun t is u) :
    SafeRun s (i :: is) u := by
  refine ⟨run_cons.2 ⟨t, h, hrest.run⟩, hsafe, fun t' ht' => ?_⟩
  obtain rfl := Option.some.inj (h.symm.trans ht')
  exact hrest.safe

theorem append (h : SafeRun s is t) (hrest : SafeRun t js u) : SafeRun s (is ++ js) u :=
  ⟨run_append.2 ⟨t, h.run, hrest.run⟩, (Along.append h.run).2 ⟨h.safe, hrest.safe⟩⟩

end SafeRun

end Published

end LinuxKernelProg.Lib
