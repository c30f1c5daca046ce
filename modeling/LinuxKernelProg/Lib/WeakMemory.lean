import LinuxKernelProg.Lib.Run
import Mathlib.Data.List.Find

/-!
# Weakly ordered memory

One thread stores and another one loads. Stores become visible in any order, except that a store
waits for the earlier ones to its location and for those before a write barrier. Loads are satisfied
in any order, except that a load waits for those before a read barrier. A load reads from the store
to its location that has become visible last. The two barriers pass messages (`Exec.Inv.passed`): if
a load has read from a store, a load behind a read barrier reads from no store that is older than
what was stored before a write barrier.
-/

namespace LinuxKernelProg.Lib.WeakMemory

variable {Loc Val : Type}

structure Store (Loc Val : Type) where
  loc : Loc
  val : Val
  /-- The number of write barriers before it. -/
  epoch : Nat

structure Load (Loc : Type) where
  loc : Loc
  /-- The number of read barriers before it. -/
  epoch : Nat
  /-- Once it is satisfied: the index of the store it has read from, if it was one. -/
  source : Option (Option Nat)

structure Exec (Loc Val : Type) where
  /-- The stores in program order. -/
  stores : List (Store Loc Val)
  wmbs : Nat
  /-- The indices of the stores that are visible, the latest one first. -/
  visible : List Nat
  /-- The loads in program order. -/
  loads : List (Load Loc)
  rmbs : Nat

inductive Op (Loc Val : Type) where
  | store (l : Loc) (v : Val)
  | wmb
  /-- The store at an index becomes visible. -/
  | publish (i : Nat)
  | load (l : Loc)
  | rmb
  /-- The load at an index is satisfied. -/
  | satisfy (k : Nat)

/-- What is found in a list that has got one more element. -/
theorem getElem?_snoc {α : Type} {as : List α} {a b : α} {n : Nat} (h : (as ++ [a])[n]? = some b) :
    as[n]? = some b ∨ n = as.length ∧ b = a := by
  rcases Nat.lt_or_ge n as.length with hlt | hge
  · rw [List.getElem?_append_left hlt] at h
    exact .inl h
  · have hlen := (List.getElem?_eq_some_iff.1 h).1
    rw [List.getElem?_append_right hge] at h
    rw [List.length_append, List.length_singleton] at hlen
    exact .inr ⟨by omega, List.mem_singleton.1 (List.mem_of_getElem? h)⟩

/-- A store, and one that comes behind it and waits for it. -/
def Store.Before [DecidableEq Loc] (p q : Store Loc Val) : Bool :=
  decide (p.epoch < q.epoch) || decide (p.loc = q.loc)

namespace Exec

variable [DecidableEq Loc]

def init : Exec Loc Val := ⟨[], 0, [], [], 0⟩

def before (x : Exec Loc Val) (j i : Nat) : Bool :=
  match x.stores[j]?, x.stores[i]? with
  | some p, some q => p.Before q
  | _, _ => false

/-- The store at `i` is not visible, and it need not wait. -/
def MayPublish (x : Exec Loc Val) (i : Nat) : Prop :=
  i < x.stores.length ∧ i ∉ x.visible ∧ ∀ j < i, x.before j i = true → j ∈ x.visible

instance (x : Exec Loc Val) (i : Nat) : Decidable (x.MayPublish i) :=
  inferInstanceAs (Decidable (_ ∧ _ ∧ _))

def stores_to (x : Exec Loc Val) (l : Loc) (i : Nat) : Bool :=
  (x.stores[i]?).any fun p => decide (p.loc = l)

/-- The store that a load of `l` reads from now. -/
def read (x : Exec Loc Val) (l : Loc) : Option Nat := x.visible.find? (x.stores_to l)

/-- The load `o` at the index `k` is not satisfied, and it need not wait. -/
def MayLoad (x : Exec Loc Val) (k : Nat) (o : Load Loc) : Prop :=
  o.source = none ∧ ∀ p ∈ x.loads.take k, p.epoch < o.epoch → p.source.isSome

instance (x : Exec Loc Val) (k : Nat) (o : Load Loc) : Decidable (x.MayLoad k o) :=
  inferInstanceAs (Decidable (_ ∧ _))

def step (x : Exec Loc Val) : Op Loc Val → Option (Exec Loc Val)
  | .store l v => some { x with stores := x.stores ++ [⟨l, v, x.wmbs⟩] }
  | .wmb => some { x with wmbs := x.wmbs + 1 }
  | .publish i => if x.MayPublish i then some { x with visible := i :: x.visible } else none
  | .load l => some { x with loads := x.loads ++ [⟨l, x.rmbs, none⟩] }
  | .rmb => some { x with rmbs := x.rmbs + 1 }
  | .satisfy k =>
    (x.loads[k]?).bind fun o =>
      if x.MayLoad k o then some { x with
        loads := x.loads.set k { o with source := some (x.read o.loc) } }
      else none

/-- A load before a read barrier and one behind it, both satisfied: what the second one has read is
not older than a store that comes before a write barrier of the store that the first one has read
from. -/
def Passed (x : Exec Loc Val) : Prop :=
  ∀ (a b : Nat) (o o' : Load Loc) (f : Nat) (r : Option Nat), a < b → x.loads[a]? = some o →
    x.loads[b]? = some o' → o.epoch < o'.epoch → o.source = some (some f) → o'.source = some r →
    ∀ (d : Nat) (p q : Store Loc Val), d < f → x.stores[d]? = some p → x.stores[f]? = some q →
      p.epoch < q.epoch → p.loc = o'.loc → ∃ i, r = some i ∧ d ≤ i

structure Inv (x : Exec Loc Val) : Prop where
  visible_lt : ∀ i ∈ x.visible, i < x.stores.length
  /-- What a visible store had to wait for is visible. -/
  closed : ∀ i ∈ x.visible, ∀ j < i, x.before j i = true → j ∈ x.visible
  /-- A load reads from the newest one of the stores that are visible. -/
  newest : ∀ l i, x.read l = some i → ∀ j ∈ x.visible, x.stores_to l j = true → j ≤ i
  /-- What a satisfied load had to wait for is satisfied. -/
  loaded : ∀ (a b : Nat) (o o' : Load Loc), a < b → x.loads[a]? = some o → x.loads[b]? = some o' →
    o.epoch < o'.epoch → o'.source.isSome → o.source.isSome
  sources : ∀ (a : Nat) (o : Load Loc) (f : Nat), x.loads[a]? = some o → o.source = some (some f) →
    f ∈ x.visible ∧ x.stores_to o.loc f = true
  passed : x.Passed

theorem inv_init : Inv (init : Exec Loc Val) := by
  refine ⟨nofun, nofun, nofun, ?_, ?_, ?_⟩
  · intro a b o o' _ ha
    nomatch ha
  · intro a o f ha
    nomatch ha
  · intro a b o o' f r _ ha
    nomatch ha

variable {x y : Exec Loc Val} {i j k f : Nat} {l : Loc} {p q : Store Loc Val} {o : Load Loc}

theorem before_of (hj : x.stores[j]? = some p) (hi : x.stores[i]? = some q) :
    x.before j i = p.Before q := by
  rw [before, hj, hi]

theorem stores_to_iff : x.stores_to l i = true ↔ ∃ p, x.stores[i]? = some p ∧ p.loc = l := by
  rw [stores_to, Option.any_eq_true]
  simp only [decide_eq_true_eq]

/-- Of two stores to one location the second one waits for the first one. -/
theorem before_of_stores_to (hj : x.stores_to l j = true) (hi : x.stores_to l i = true) :
    x.before j i = true := by
  obtain ⟨p, hp, rfl⟩ := stores_to_iff.1 hj
  obtain ⟨q, hq, heq⟩ := stores_to_iff.1 hi
  rw [before_of hp hq, Store.Before, heq, decide_eq_true rfl, Bool.or_true]

theorem read_some (h : x.read l = some i) : i ∈ x.visible ∧ x.stores_to l i = true :=
  ⟨List.mem_of_find?_eq_some h, List.find?_some h⟩

/-- A visible store to the location is read, or a newer one. -/
theorem Inv.read_of_visible (hx : Inv x) (hj : j ∈ x.visible) (hl : x.stores_to l j = true) :
    ∃ i, x.read l = some i ∧ j ≤ i := by
  cases hr : x.read l with
  | none => exact absurd hl (List.find?_eq_none.1 hr j hj)
  | some i => exact ⟨i, rfl, hx.newest l i hr j hj hl⟩

/-! ## The steps -/

theorem Inv.store (hx : Inv x) (l : Loc) (v : Val) :
    Inv { x with stores := x.stores ++ [⟨l, v, x.wmbs⟩] } := by
  have hget : ∀ {i}, i < x.stores.length →
      (x.stores ++ [⟨l, v, x.wmbs⟩])[i]? = x.stores[i]? := fun hi => List.getElem?_append_left hi
  have hto : ∀ l', ∀ i ∈ x.visible,
      stores_to { x with stores := x.stores ++ [⟨l, v, x.wmbs⟩] } l' i = x.stores_to l' i := by
    intro l' i hi
    rw [stores_to, stores_to, hget (hx.visible_lt i hi)]
  have hread : ∀ l', read { x with stores := x.stores ++ [⟨l, v, x.wmbs⟩] } l' = x.read l' :=
    fun l' => List.find?_congr (hto l')
  constructor
  · intro i hi
    exact Nat.lt_of_lt_of_le (hx.visible_lt i hi) (by simp)
  · intro i hi j hji hbefore
    have hlt := hx.visible_lt i hi
    refine hx.closed i hi j hji ?_
    rwa [before, hget (Nat.lt_trans hji hlt), hget hlt] at hbefore
  · intro l' i hi j hj hjl
    rw [hread] at hi
    exact hx.newest l' i hi j hj ((hto l' j hj).symm.trans hjl)
  · exact hx.loaded
  · intro a o f ha hf
    obtain ⟨hmem, hl⟩ := hx.sources a o f ha hf
    exact ⟨hmem, (hto _ f hmem).trans hl⟩
  · intro a b o o' f r hab ha hb hlt hf hr d p q hdf hd hq
    have hflt := hx.visible_lt f (hx.sources a o f ha hf).1
    rw [hget (Nat.lt_trans hdf hflt)] at hd
    rw [hget hflt] at hq
    exact hx.passed a b o o' f r hab ha hb hlt hf hr d p q hdf hd hq

theorem Inv.publish (hx : Inv x) (hi : x.MayPublish i) :
    Inv { x with visible := i :: x.visible } := by
  obtain ⟨hlt, hnew, hwait⟩ := hi
  constructor
  · intro j hj
    rcases List.mem_cons.1 hj with rfl | hj
    · exact hlt
    · exact hx.visible_lt j hj
  · intro j hj j' hlt' hbefore
    rcases List.mem_cons.1 hj with rfl | hj
    · exact List.mem_cons_of_mem _ (hwait j' hlt' hbefore)
    · exact List.mem_cons_of_mem _ (hx.closed j hj j' hlt' hbefore)
  · intro l r hr j hj hjl
    change (i :: x.visible).find? (x.stores_to l) = some r at hr
    rw [List.find?_cons] at hr
    cases hil : x.stores_to l i with
    | true =>
      rw [hil] at hr
      obtain rfl := Option.some.inj hr
      rcases List.mem_cons.1 hj with rfl | hj
      · exact Nat.le_refl _
      · -- a visible store to this location behind `i` would have waited for `i`
        by_contra hlt'
        exact hnew (hx.closed j hj i (Nat.lt_of_not_le hlt') (before_of_stores_to hil hjl))
    | false =>
      rw [hil] at hr
      rcases List.mem_cons.1 hj with rfl | hj
      · exact absurd (hil.symm.trans hjl) nofun
      · exact hx.newest l r hr j hj hjl
  · exact hx.loaded
  · intro a o f ha hf
    obtain ⟨hmem, hl⟩ := hx.sources a o f ha hf
    exact ⟨List.mem_cons_of_mem _ hmem, hl⟩
  · exact hx.passed

theorem Inv.load (hx : Inv x) (l : Loc) :
    Inv { x with loads := x.loads ++ [⟨l, x.rmbs, none⟩] } := by
  -- the new load is not satisfied, and a load in front of a satisfied one is an old one
  have hold : ∀ {a : Nat} {o : Load Loc}, (x.loads ++ [⟨l, x.rmbs, none⟩])[a]? = some o →
      o.source.isSome → x.loads[a]? = some o := by
    intro a o ha hsome
    rcases getElem?_snoc ha with ha | ⟨-, rfl⟩
    · exact ha
    · nomatch hsome
  have hfront : ∀ {a b : Nat} {o o' : Load Loc}, a < b →
      (x.loads ++ [⟨l, x.rmbs, none⟩])[a]? = some o → x.loads[b]? = some o' →
        x.loads[a]? = some o := by
    intro a b o o' hab ha hb
    rwa [List.getElem?_append_left (Nat.lt_trans hab (List.getElem?_eq_some_iff.1 hb).1)] at ha
  refine ⟨hx.visible_lt, hx.closed, hx.newest, ?_, ?_, ?_⟩
  · intro a b o o' hab ha hb hlt hsome
    have hb' := hold hb hsome
    exact hx.loaded a b o o' hab (hfront hab ha hb') hb' hlt hsome
  · intro a o f ha hf
    exact hx.sources a o f (hold ha (hf ▸ rfl)) hf
  · intro a b o o' f r hab ha hb hlt hf hr
    exact hx.passed a b o o' f r hab (hold ha (hf ▸ rfl)) (hold hb (hr ▸ rfl)) hlt hf hr

/-- What a load behind a read barrier reads now. -/
theorem Inv.read_passed (hx : Inv x) {a : Nat} (ha : x.loads[a]? = some o)
    (hf : o.source = some (some f)) {d : Nat} (hdf : d < f) (hd : x.stores[d]? = some p)
    (hq : x.stores[f]? = some q) (hlt : p.epoch < q.epoch) :
    ∃ i, x.read p.loc = some i ∧ d ≤ i := by
  obtain ⟨hmem, -⟩ := hx.sources a o f ha hf
  have hbefore : x.before d f = true := by
    rw [before_of hd hq, Store.Before, decide_eq_true hlt, Bool.true_or]
  exact hx.read_of_visible (hx.closed f hmem d hdf hbefore) (stores_to_iff.2 ⟨p, hd, rfl⟩)

theorem Inv.satisfy (hx : Inv x) (hk : x.loads[k]? = some o) (hmay : x.MayLoad k o) :
    Inv { x with loads := x.loads.set k { o with source := some (x.read o.loc) } } := by
  obtain ⟨hnone, hwait⟩ := hmay
  -- a load that waits for this one is not satisfied
  have hbehind : ∀ {b : Nat} {o' : Load Loc}, k < b → x.loads[b]? = some o' → o.epoch < o'.epoch →
      ¬ o'.source.isSome := by
    intro b o' hkb hb hepoch hsome
    have hsource := hx.loaded k b o o' hkb hk hb hepoch hsome
    rw [hnone] at hsource
    nomatch hsource
  refine ⟨hx.visible_lt, hx.closed, hx.newest, ?_, ?_, ?_⟩
  · intro a b o₁ o₂ hab ha hb hepoch hsome
    rcases getElem?_set_cases ha with ⟨rfl, rfl⟩ | ⟨-, ha'⟩
    · rfl
    · rcases getElem?_set_cases hb with ⟨rfl, rfl⟩ | ⟨-, hb'⟩
      · exact hwait o₁ (List.mem_of_getElem? ((List.getElem?_take_of_lt hab).trans ha')) hepoch
      · exact hx.loaded a b o₁ o₂ hab ha' hb' hepoch hsome
  · intro a o₁ f ha hf
    rcases getElem?_set_cases ha with ⟨rfl, rfl⟩ | ⟨-, ha'⟩
    · exact read_some (Option.some.inj hf)
    · exact hx.sources a o₁ f ha' hf
  · intro a b o₁ o₂ f r hab ha hb hepoch hf hr d p q hdf hd hq hlt hl
    rcases getElem?_set_cases ha with ⟨rfl, rfl⟩ | ⟨-, ha'⟩
    · rcases getElem?_set_cases hb with ⟨rfl, -⟩ | ⟨-, hb'⟩
      · exact absurd hab (Nat.lt_irrefl _)
      · exact absurd (hr ▸ rfl) (hbehind hab hb' hepoch)
    · rcases getElem?_set_cases hb with ⟨rfl, rfl⟩ | ⟨-, hb'⟩
      · obtain rfl := Option.some.inj hr
        rw [← hl]
        exact hx.read_passed ha' hf hdf hd hq hlt
      · exact hx.passed a b o₁ o₂ f r hab ha' hb' hepoch hf hr d p q hdf hd hq hlt hl

/-- **The memory** keeps its order, whatever the two threads do. -/
theorem step_inv {op : Op Loc Val} (hx : Inv x) (h : x.step op = some y) : Inv y := by
  cases op with
  | store l v =>
    cases h
    exact hx.store l v
  | wmb =>
    cases h
    exact ⟨hx.visible_lt, hx.closed, hx.newest, hx.loaded, hx.sources, hx.passed⟩
  | publish i =>
    simp only [step] at h
    split at h
    · next hi =>
      cases h
      exact hx.publish hi
    · nomatch h
  | load l =>
    cases h
    exact hx.load l
  | rmb =>
    cases h
    exact ⟨hx.visible_lt, hx.closed, hx.newest, hx.loaded, hx.sources, hx.passed⟩
  | satisfy k =>
    obtain ⟨o, hk, h⟩ := Option.bind_eq_some_iff.1 h
    split at h
    · next hmay =>
      cases h
      exact hx.satisfy hk hmay
    · nomatch h

end Exec

end LinuxKernelProg.Lib.WeakMemory
