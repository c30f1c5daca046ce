import Mathlib.Algebra.BigOperators.Group.List.Lemmas
import Mathlib.Algebra.GroupWithZero.Nat
import Mathlib.Data.List.MinMax
import LinuxKernelProg.Lib.Run

/-!
# Threads and mutexes

A thread is what it holds and what it still does with locks; a step takes one thread one operation
further, and to lock is a step only while nobody has the lock. `Stuck` is a circle of threads that
wait for each other; it stays (`Stuck.run`). Where the threads that hold something take their locks
upwards in some order, all threads can come to their ends (`completes_of_climbs`).
-/

namespace LinuxKernelProg.Lib

/-- What a thread does with a lock. -/
inductive LockOp (L : Type) where
  | lock (l : L)
  | unlock (l : L)
  deriving DecidableEq

/-- A thread: the locks it holds, the last one first, and its operations to come. -/
structure Locker (L : Type) where
  held : List L
  todo : List (LockOp L)
  deriving DecidableEq

variable {L : Type} [DecidableEq L]

namespace Locker

def start (p : List (LockOp L)) : Locker L := ⟨[], p⟩

/-- The lock that the next operation takes. -/
def wants (t : Locker L) : Option L :=
  match t.todo with
  | .lock l :: _ => some l
  | _ => none

/-- The thread after its next operation. -/
def next (t : Locker L) : Option (Locker L) :=
  match t.todo with
  | [] => none
  | .lock l :: p => some ⟨l :: t.held, p⟩
  | .unlock l :: p => some ⟨t.held.erase l, p⟩

end Locker

/-- The operations give back what is held, and only that. -/
def closes : List L → List (LockOp L) → Bool
  | held, [] => held.isEmpty
  | held, .lock l :: p => closes (l :: held) p
  | held, .unlock l :: p => held.contains l && closes (held.erase l) p

/-- Some operation takes a lock that the thread has already. -/
def relocks : List L → List (LockOp L) → Bool
  | _, [] => false
  | held, .lock l :: p => held.contains l || relocks (l :: held) p
  | held, .unlock l :: p => relocks (held.erase l) p

/-- Each lock taken is above all that are held. -/
def climbs (r : L → Nat) : List L → List (LockOp L) → Bool
  | _, [] => true
  | held, .lock l :: p => (held.all fun k => r k < r l) && climbs r (l :: held) p
  | held, .unlock l :: p => climbs r (held.erase l) p

/-- The thread at each point of its operations. -/
def stages : List L → List (LockOp L) → List (Locker L)
  | held, [] => [⟨held, []⟩]
  | held, .lock l :: p => ⟨held, .lock l :: p⟩ :: stages (l :: held) p
  | held, .unlock l :: p => ⟨held, .unlock l :: p⟩ :: stages (held.erase l) p

/-- Nobody has the lock. -/
def Free (ts : List (Locker L)) (l : L) : Prop := ∀ u ∈ ts, l ∉ u.held

instance (ts : List (Locker L)) (l : L) : Decidable (Free ts l) :=
  inferInstanceAs (Decidable (∀ u ∈ ts, l ∉ u.held))

/-- One operation of one thread. -/
def lockStep (ts : List (Locker L)) (i : Nat) : Option (List (Locker L)) :=
  ts[i]?.bind fun t => if ∀ l ∈ t.wants, Free ts l then t.next.map (ts.set i) else none

variable {ts ts' : List (Locker L)} {t t' u : Locker L} {i j : Nat} {l : L} {r : L → Nat}

theorem lockStep_some : lockStep ts i = some ts' ↔ ∃ t t', ts[i]? = some t ∧
    (∀ l ∈ t.wants, Free ts l) ∧ t.next = some t' ∧ ts' = ts.set i t' := by
  simp only [lockStep, Option.bind_eq_some_iff]
  constructor
  · rintro ⟨t, ht, h⟩
    split at h
    · next hfree =>
      obtain ⟨t', ht', rfl⟩ := Option.map_eq_some_iff.1 h
      exact ⟨t, t', ht, hfree, ht', rfl⟩
    · nomatch h
  · rintro ⟨t, t', ht, hfree, ht', rfl⟩
    exact ⟨t, ht, by rw [if_pos hfree, ht', Option.map_some]⟩

namespace Locker

theorem next_cases (h : t.next = some t') :
    (∃ l p, t = ⟨t.held, .lock l :: p⟩ ∧ t' = ⟨l :: t.held, p⟩) ∨
    ∃ l p, t = ⟨t.held, .unlock l :: p⟩ ∧ t' = ⟨t.held.erase l, p⟩ := by
  obtain ⟨held, todo⟩ := t
  rcases todo with - | ⟨l | l, p⟩
  · nomatch h
  · exact .inl ⟨l, p, rfl, (Option.some.inj h).symm⟩
  · exact .inr ⟨l, p, rfl, (Option.some.inj h).symm⟩

omit [DecidableEq L] in
theorem wants_eq_some (h : t.wants = some l) : ∃ p, t = ⟨t.held, .lock l :: p⟩ := by
  obtain ⟨held, todo⟩ := t
  rcases todo with - | ⟨l' | l', p⟩
  · nomatch h
  · obtain rfl : l' = l := Option.some.inj h
    exact ⟨p, rfl⟩
  · nomatch h

/-- A thread that holds something has something to do. -/
theorem todo_ne_nil (hc : closes t.held t.todo) (hheld : t.held ≠ []) : t.todo ≠ [] := by
  intro h
  rw [h] at hc
  exact hheld (List.isEmpty_iff.1 hc)

theorem next_isSome (h : t.todo ≠ []) : ∃ t', t.next = some t' := by
  obtain ⟨held, todo⟩ := t
  rcases todo with - | ⟨l | l, p⟩
  · exact absurd rfl h
  · exact ⟨_, rfl⟩
  · exact ⟨_, rfl⟩

theorem next_length (h : t.next = some t') : t'.todo.length + 1 = t.todo.length := by
  rcases next_cases h with ⟨l, p, ht, rfl⟩ | ⟨l, p, ht, rfl⟩
  all_goals
    rw [ht]
    rfl

theorem closes_next (h : t.next = some t') (hc : closes t.held t.todo) :
    closes t'.held t'.todo := by
  rcases next_cases h with ⟨l, p, ht, rfl⟩ | ⟨l, p, ht, rfl⟩
  · rw [ht] at hc
    exact hc
  · rw [ht, closes, Bool.and_eq_true] at hc
    exact hc.2

theorem climbs_next (h : t.next = some t') (hc : climbs r t.held t.todo) :
    climbs r t'.held t'.todo := by
  rcases next_cases h with ⟨l, p, ht, rfl⟩ | ⟨l, p, ht, rfl⟩
  · rw [ht, climbs, Bool.and_eq_true] at hc
    exact hc.2
  · rw [ht] at hc
    exact hc

theorem mem_stages_self (held : List L) (p : List (LockOp L)) : ⟨held, p⟩ ∈ stages held p := by
  rcases p with - | ⟨l | l, p⟩
  all_goals exact List.mem_cons_self

theorem stages_next {held : List L} {p : List (LockOp L)} (h : t.next = some t')
    (ht : t ∈ stages held p) : t' ∈ stages held p := by
  induction p generalizing held with
  | nil =>
    obtain rfl := List.mem_singleton.1 ht
    nomatch h
  | cons op p ih =>
    cases op with
    | lock l =>
      rcases List.mem_cons.1 ht with rfl | ht
      · obtain rfl := Option.some.inj h
        exact List.mem_cons_of_mem _ (mem_stages_self _ _)
      · exact List.mem_cons_of_mem _ (ih ht)
    | unlock l =>
      rcases List.mem_cons.1 ht with rfl | ht
      · obtain rfl := Option.some.inj h
        exact List.mem_cons_of_mem _ (mem_stages_self _ _)
      · exact List.mem_cons_of_mem _ (ih ht)

/-- What the next operation does to the question whether the thread takes a lock twice. -/
theorem relocks_next (h : t.next = some t') :
    relocks t.held t.todo = true ↔
      (∃ l ∈ t.wants, l ∈ t.held) ∨ relocks t'.held t'.todo = true := by
  rcases next_cases h with ⟨l, p, ht, rfl⟩ | ⟨l, p, ht, rfl⟩
  · have hw : t.wants = some l := by rw [ht]; rfl
    rw [ht, relocks, Bool.or_eq_true, List.contains_iff_mem, ← ht, hw]
    simp
  · have hw : t.wants = none := by rw [ht]; rfl
    rw [ht, relocks, ← ht, hw]
    simp

end Locker

/-! ## Steps -/

/-- Only the thread that makes the step changes. -/
theorem lockStep_getElem?_ne (h : lockStep ts i = some ts') (hij : j ≠ i) : ts'[j]? = ts[j]? := by
  obtain ⟨t, t', -, -, -, rfl⟩ := lockStep_some.1 h
  exact List.getElem?_set_ne hij.symm

/-- What every operation of a thread keeps, a step keeps of all threads. -/
theorem lockStep_forall {P : Locker L → Prop} (hP : ∀ {t t'}, t.next = some t' → P t → P t')
    (h : lockStep ts i = some ts') (hts : ∀ t ∈ ts, P t) : ∀ t ∈ ts', P t := by
  obtain ⟨t, t', ht, -, hnext, rfl⟩ := lockStep_some.1 h
  intro u hu
  rcases List.mem_or_eq_of_mem_set hu with hu | rfl
  · exact hts u hu
  · exact hP hnext (hts t (List.mem_of_getElem? ht))

/-- The operations that are still to come. -/
def work (ts : List (Locker L)) : Nat := (ts.map fun t => t.todo.length).sum

omit [DecidableEq L] in
theorem work_set (h : ts[i]? = some t) (u : Locker L) :
    work (ts.set i u) + t.todo.length = work ts + u.todo.length := by
  obtain ⟨os, hp, hset⟩ := perm_of_getElem? h
  have hold : work ts = t.todo.length + work os := by
    rw [work, (hp.map _).sum_eq, List.map_cons, List.sum_cons, work]
  have hnew : work (ts.set i u) = u.todo.length + work os := by
    rw [work, ((hset u).map _).sum_eq, List.map_cons, List.sum_cons, work]
  omega

theorem lockStep_work (h : lockStep ts i = some ts') : work ts' + 1 = work ts := by
  obtain ⟨t, t', ht, -, hnext, rfl⟩ := lockStep_some.1 h
  have hset := work_set ht t'
  have hlen := Locker.next_length hnext
  omega

/-- No lock is held twice, by one thread or by two. -/
def Exclusive (ts : List (Locker L)) : Prop := (ts.flatMap Locker.held).Nodup

theorem Exclusive.step (hex : Exclusive ts) (h : lockStep ts i = some ts') : Exclusive ts' := by
  obtain ⟨t, t', ht, hfree, hnext, rfl⟩ := lockStep_some.1 h
  obtain ⟨os, hp, hset⟩ := perm_of_getElem? ht
  have hold := (hp.flatMap_right Locker.held).nodup_iff.1 hex
  rw [Exclusive, ((hset t').flatMap_right Locker.held).nodup_iff]
  rw [List.flatMap_cons] at hold ⊢
  rcases Locker.next_cases hnext with ⟨l, p, hl, rfl⟩ | ⟨l, p, hl, rfl⟩
  · refine List.nodup_cons.2 ⟨fun hmem => ?_, hold⟩
    have hl' : l ∈ ts.flatMap Locker.held := by
      rw [(hp.flatMap_right Locker.held).mem_iff, List.flatMap_cons]
      exact hmem
    obtain ⟨u, hu, hlu⟩ := List.mem_flatMap.1 hl'
    exact hfree l (by rw [hl]; rfl) u hu hlu
  · exact hold.sublist (List.erase_sublist.append_right _)

omit [DecidableEq L] in
/-- Two threads never hold one lock. -/
theorem Exclusive.eq_of_held (hex : Exclusive ts) (hi : ts[i]? = some t) (hj : ts[j]? = some u)
    (ht : l ∈ t.held) (hu : l ∈ u.held) : i = j := by
  by_contra hij
  obtain ⟨os, hp, -⟩ := perm_of_getElem? hi
  have hnodup := (hp.flatMap_right Locker.held).nodup_iff.1 hex
  have huos : u ∈ ts.eraseIdx i := List.mem_eraseIdx_iff_getElem?.2 ⟨j, Ne.symm hij, hj⟩
  have hos : (ts.eraseIdx i).Perm os := by
    obtain ⟨hlt, rfl⟩ := List.getElem?_eq_some_iff.1 hi
    exact ((List.getElem_cons_eraseIdx_perm hlt).trans hp).cons_inv
  rw [List.flatMap_cons] at hnodup
  refine (List.nodup_append.1 hnodup).2.2 l ht l ?_ rfl
  exact List.mem_flatMap.2 ⟨u, hos.subset huos, hu⟩

/-! ## Threads that wait for each other -/

/-- Each of the threads waits for a lock that one of them holds. -/
def Stuck (ts : List (Locker L)) (S : Nat → Prop) : Prop :=
  ∀ i, S i → ∃ t, ts[i]? = some t ∧ ∃ l ∈ t.wants, ∃ j, S j ∧ ∃ u, ts[j]? = some u ∧ l ∈ u.held

namespace Stuck

variable {S : Nat → Prop}

/-- None of them makes a step. -/
theorem not_mem (hS : Stuck ts S) (h : lockStep ts i = some ts') : ¬S i := by
  intro hi
  obtain ⟨t, t', ht, hfree, -, -⟩ := lockStep_some.1 h
  obtain ⟨t₁, ht₁, l, hl, j, -, u, hu, hheld⟩ := hS i hi
  obtain rfl := Option.some.inj (ht.symm.trans ht₁)
  exact hfree l hl u (List.mem_of_getElem? hu) hheld

theorem same (hS : Stuck ts S) (h : lockStep ts i = some ts') (hj : S j) : ts'[j]? = ts[j]? := by
  refine lockStep_getElem?_ne h ?_
  rintro rfl
  exact hS.not_mem h hj

omit [DecidableEq L] in
theorem append_same (hS : Stuck ts S) (us : List (Locker L)) (hj : S j) :
    (ts ++ us)[j]? = ts[j]? := by
  obtain ⟨t, ht, -⟩ := hS j hj
  exact List.getElem?_append_left (List.getElem?_eq_some_iff.1 ht).1

end Stuck

/-! ## Threads that come to their ends -/

/-- Where the threads that hold something take their locks upwards, one of them can go on. -/
theorem exists_step_of_climbs (hc : ∀ t ∈ ts, closes t.held t.todo)
    (hr : ∀ t ∈ ts, t.held ≠ [] → climbs r t.held t.todo) (ht : t ∈ ts) (hheld : t.held ≠ []) :
    ∃ i u ts', ts[i]? = some u ∧ u.held ≠ [] ∧ lockStep ts i = some ts' := by
  by_contra hnone
  -- a holder cannot go on only if it waits for another holder
  have hwait : ∀ u ∈ ts, u.held ≠ [] → ∃ l ∈ u.wants, ∃ v ∈ ts, l ∈ v.held := by
    intro u hu hne
    obtain ⟨i, hi⟩ := List.mem_iff_getElem?.1 hu
    obtain ⟨u', hu'⟩ := Locker.next_isSome (Locker.todo_ne_nil (hc u hu) hne)
    by_contra hno
    refine hnone ⟨i, u, ts.set i u', hi, hne, lockStep_some.2 ⟨u, u', hi, ?_, hu', rfl⟩⟩
    exact fun l hl v hv hlv => hno ⟨l, hl, v, hv, hlv⟩
  -- the holder that waits for the highest lock
  let holders := ts.filter fun u => !u.held.isEmpty
  have hmem : ∀ u, u ∈ holders ↔ u ∈ ts ∧ u.held ≠ [] := by simp [holders]
  let top : Locker L → Nat := fun u => u.wants.elim 0 r
  cases hmax : holders.argmax top with
  | none =>
    have hnil := List.argmax_eq_none.1 hmax
    exact List.not_mem_nil (hnil ▸ (hmem t).2 ⟨ht, hheld⟩)
  | some u =>
    obtain ⟨hu, hne⟩ := (hmem u).1 (List.argmax_mem hmax)
    obtain ⟨l, hl, v, hv, hlv⟩ := hwait u hu hne
    have hvne : v.held ≠ [] := List.ne_nil_of_mem hlv
    obtain ⟨k, hk, -⟩ := hwait v hv hvne
    have hlt : r l < r k := by
      obtain ⟨p, hp⟩ := Locker.wants_eq_some hk
      have hclimb := hr v hv hvne
      rw [hp, climbs, Bool.and_eq_true, List.all_eq_true] at hclimb
      exact of_decide_eq_true (hclimb.1 l hlv)
    have hle : top v ≤ top u := List.le_of_mem_argmax ((hmem v).2 ⟨hv, hvne⟩) hmax
    rw [Option.mem_def] at hl hk
    simp only [top, hl, hk, Option.elim_some] at hle
    omega

/-- The threads that hold something give it all back, and the others wait. -/
theorem holders_finish (hc : ∀ t ∈ ts, closes t.held t.todo)
    (hr : ∀ t ∈ ts, t.held ≠ [] → climbs r t.held t.todo)
    (hn : ∀ t ∈ ts, relocks t.held t.todo = false) :
    ∃ is ts', run lockStep ts is = some ts' ∧ ts'.length = ts.length ∧ ∀ t ∈ ts',
      t.held = [] ∧ closes t.held t.todo ∧ relocks t.held t.todo = false := by
  induction hw : work ts using Nat.strong_induction_on generalizing ts with
  | _ n ih =>
    by_cases hidle : ∀ t ∈ ts, t.held = []
    · exact ⟨[], ts, rfl, rfl, fun t ht => ⟨hidle t ht, hc t ht, hn t ht⟩⟩
    · push Not at hidle
      obtain ⟨t, ht, hheld⟩ := hidle
      obtain ⟨i, u, ts₁, hu, hune, hstep⟩ := exists_step_of_climbs hc hr ht hheld
      have hwork := lockStep_work hstep
      have hc₁ := lockStep_forall (P := fun t => closes t.held t.todo) Locker.closes_next hstep hc
      have hn₁ : ∀ t ∈ ts₁, relocks t.held t.todo = false := by
        refine lockStep_forall (P := fun t => relocks t.held t.todo = false) ?_ hstep hn
        intro t t' hnext hrel
        rw [← Bool.not_eq_true, Locker.relocks_next hnext, not_or] at hrel
        exact Bool.not_eq_true _ ▸ hrel.2
      have hr₁ : ∀ t ∈ ts₁, t.held ≠ [] → climbs r t.held t.todo := by
        obtain ⟨u₁, u', hu₁, -, hnext, rfl⟩ := lockStep_some.1 hstep
        obtain rfl := Option.some.inj (hu.symm.trans hu₁)
        intro v hv hvne
        rcases List.mem_or_eq_of_mem_set hv with hv | rfl
        · exact hr v hv hvne
        · exact Locker.climbs_next hnext (hr u (List.mem_of_getElem? hu) hune)
      obtain ⟨is, ts', hrun, hlen, hend⟩ := ih (work ts₁) (by omega) hc₁ hr₁ hn₁ rfl
      have hlen₁ : ts₁.length = ts.length := by
        obtain ⟨u₁, u', -, -, -, rfl⟩ := lockStep_some.1 hstep
        exact List.length_set
      exact ⟨i :: is, ts', run_cons.2 ⟨ts₁, hstep, hrun⟩, hlen.trans hlen₁, hend⟩

/-- Where the others hold nothing, a thread runs to its end. -/
theorem alone_finishes {p : List (LockOp L)} {held : List L} (hi : i < ts.length)
    (hothers : ∀ j u, j ≠ i → ts[j]? = some u → u.held = []) (hc : closes held p)
    (hn : relocks held p = false) :
    ∃ is, run lockStep (ts.set i ⟨held, p⟩) is = some (ts.set i ⟨[], []⟩) := by
  induction p generalizing held with
  | nil =>
    obtain rfl := List.isEmpty_iff.1 hc
    exact ⟨[], rfl⟩
  | cons op p ih =>
    let t : Locker L := ⟨held, op :: p⟩
    have hget : (ts.set i t)[i]? = some t := List.getElem?_set_self hi
    obtain ⟨t', hnext⟩ := Locker.next_isSome (t := t) (List.cons_ne_nil op p)
    have hfree : ∀ l ∈ t.wants, Free (ts.set i t) l := by
      intro l hl v hv hlv
      obtain ⟨j, hj⟩ := List.mem_iff_getElem?.1 hv
      rcases getElem?_set_cases hj with ⟨-, rfl⟩ | ⟨hji, hj⟩
      · have : relocks held (op :: p) = true := (Locker.relocks_next hnext).2 (.inl ⟨l, hl, hlv⟩)
        exact absurd (hn.symm.trans this) Bool.false_ne_true
      · rw [hothers j v hji hj] at hlv
        exact List.not_mem_nil hlv
    have hstep := lockStep_some.2 ⟨t, t', hget, hfree, hnext, rfl⟩
    rw [List.set_set] at hstep
    have hc' := Locker.closes_next hnext hc
    have hn' : relocks t'.held t'.todo = false := by
      rw [← Bool.not_eq_true]
      intro hrel
      exact absurd (hn.symm.trans ((Locker.relocks_next hnext).2 (.inr hrel))) Bool.false_ne_true
    have htodo : t'.todo = p := by
      rcases Locker.next_cases hnext with ⟨l, q, ht, rfl⟩ | ⟨l, q, ht, rfl⟩
      all_goals exact (List.cons.inj (congrArg Locker.todo ht)).2.symm
    rw [htodo] at hc' hn'
    obtain ⟨is, his⟩ := ih hc' hn'
    refine ⟨i :: is, run_cons.2 ⟨_, hstep, ?_⟩⟩
    rwa [← htodo] at his

/-- Where nobody holds anything, the threads come to their ends one after the other. -/
theorem idle_finish
    (hend : ∀ t ∈ ts, t.held = [] ∧ closes t.held t.todo ∧ relocks t.held t.todo = false) :
    ∃ is ts', run lockStep ts is = some ts' ∧ ts'.length = ts.length ∧ ∀ t ∈ ts', t.todo = [] := by
  induction hw : work ts using Nat.strong_induction_on generalizing ts with
  | _ n ih =>
    by_cases hdone : ∀ t ∈ ts, t.todo = []
    · exact ⟨[], ts, rfl, rfl, hdone⟩
    · push Not at hdone
      obtain ⟨t, ht, htodo⟩ := hdone
      obtain ⟨i, hi⟩ := List.mem_iff_getElem?.1 ht
      obtain ⟨hheld, hc, hn⟩ := hend t ht
      have hothers : ∀ j u, j ≠ i → ts[j]? = some u → u.held = [] :=
        fun j u _ hu => (hend u (List.mem_of_getElem? hu)).1
      obtain ⟨is, his⟩ := alone_finishes (List.getElem?_eq_some_iff.1 hi).1 hothers hc hn
      rw [set_eq_self hi] at his
      have hwork := work_set hi (⟨[], []⟩ : Locker L)
      have hpos := List.length_pos_of_ne_nil htodo
      rw [List.length_nil, Nat.add_zero] at hwork
      have hend' : ∀ u ∈ ts.set i ⟨[], []⟩,
          u.held = [] ∧ closes u.held u.todo ∧ relocks u.held u.todo = false := by
        intro u hu
        rcases List.mem_or_eq_of_mem_set hu with hu | rfl
        · exact hend u hu
        · exact ⟨rfl, rfl, rfl⟩
      obtain ⟨js, ts', hjs, hlen, hall⟩ := ih _ (by omega) hend' rfl
      exact ⟨is ++ js, ts', run_append.2 ⟨_, his, hjs⟩, hlen.trans List.length_set, hall⟩

/-- **Lock order.** Threads that give back what they take and take nothing twice all come to their
ends, if those that hold something now take their locks upwards in some order from here on. -/
theorem completes_of_climbs (hc : ∀ t ∈ ts, closes t.held t.todo)
    (hn : ∀ t ∈ ts, relocks t.held t.todo = false)
    (hr : ∀ t ∈ ts, t.held ≠ [] → climbs r t.held t.todo) :
    ∃ is ts', run lockStep ts is = some ts' ∧ ts'.length = ts.length ∧ ∀ t ∈ ts', t.todo = [] := by
  obtain ⟨is, ts₁, his, hlen₁, hidle⟩ := holders_finish hc hr hn
  obtain ⟨js, ts', hjs, hlen, hdone⟩ := idle_finish hidle
  exact ⟨is ++ js, ts', run_append.2 ⟨ts₁, his, hjs⟩, hlen.trans hlen₁, hdone⟩

end LinuxKernelProg.Lib
