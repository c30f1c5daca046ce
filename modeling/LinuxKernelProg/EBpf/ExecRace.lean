import Mathlib.Data.List.Dedup
import LinuxKernelProg.Lib.Run
import LinuxKernelProg.EBpf.ExecCount

/-!
# The execve counter on several CPUs

Any number of invocations of `handle_exec` run at the same time; each map operation is one step. A
lookup returns a pointer to an element of the map, which the atomic add goes through later on.
`bpf_map_update_elem` with `BPF_ANY` puts in an element that is not in the map, and replaces the one
the key has. `trace_sys_enter` of `syscall_tracer.c` counts in the same way, so the type of the keys
and the size of the map are left open.

An invocation that is not interrupted counts as `count_key` does (`contents_of_run`). When several
run at once no event is lost unless two of them find the same key missing.
-/

namespace LinuxKernelProg.EBpf

open LinuxKernelProg.Lib

variable {κ : Type} [DecidableEq κ] {capacity : Nat}

/-- A hash map: the element of each key, and the value in each element. -/
structure Htab (κ : Type) [DecidableEq κ] (capacity : Nat) where
  table : BoundedMap κ Nat capacity
  cells : Nat → BitVec 64
  distinct : ∀ k k' e, table.lookup k = some e → table.lookup k' = some e → k = k'

namespace Htab

def empty : Htab κ capacity where
  table := .empty
  cells := fun _ => 0
  distinct _ _ _ h := by cases h

/-- The counter of a key; 0 if it is not there. -/
def counter (h : Htab κ capacity) (k : κ) : BitVec 64 :=
  match h.table.lookup k with
  | some e => h.cells e
  | none => 0

/-- `__sync_fetch_and_add(val, 1)` -/
def add (h : Htab κ capacity) (e : Nat) : Htab κ capacity :=
  { h with cells := Function.update h.cells e (h.cells e + 1) }

/-- `bpf_map_update_elem(&exec_cnt, &key, &init, BPF_ANY)` with the element `e`; a full map stays as
it is. -/
def update (h : Htab κ capacity) (key : κ) (e : Nat) (he : e ∉ h.table.values) : Htab κ capacity :=
  match hm : h.table.update key e with
  | none => h
  | some m =>
    { table := m
      cells := Function.update h.cells e 1
      distinct := by
        intro k k' x hk hk'
        rw [BoundedMap.lookup_update _ hm] at hk hk'
        split at hk <;> split at hk'
        · rename_i e₁ e₂
          rw [e₁, e₂]
        · cases hk
          exact absurd (BoundedMap.mem_values hk') he
        · cases hk'
          exact absurd (BoundedMap.mem_values hk) he
        · exact h.distinct k k' x hk hk' }

end Htab

inductive Pc where
  | start
  /-- The lookup returned a pointer to the element `e`. -/
  | hit (e : Nat)
  /-- The lookup returned NULL. -/
  | missed
  | done
deriving DecidableEq

structure Invocation (κ : Type) where
  key : κ
  pc : Pc

/-- One map operation of an invocation; `e` is the element an update puts in. -/
def Invocation.step (i : Invocation κ) (h : Htab κ capacity) (e : Nat) :
    Option (Htab κ capacity × Pc) :=
  match i.pc with
  | .start =>
    match h.table.lookup i.key with
    | some e => some (h, .hit e)
    | none => some (h, .missed)
  | .hit e => some (h.add e, .done)
  | .missed => if he : e ∈ h.table.values then none else some (h.update i.key e he, .done)
  | .done => none

structure State (κ : Type) [DecidableEq κ] (capacity : Nat) extends Htab κ capacity where
  invs : List (Invocation κ)

inductive Action (κ : Type) where
  /-- An execve event: `handle_exec` starts, with this key. -/
  | exec (key : κ)
  | run (t : Nat) (e : Nat)

def Action.key? : Action κ → Option κ
  | .exec key => some key
  | .run _ _ => none

def State.step (s : State κ capacity) : Action κ → Option (State κ capacity)
  | .exec key => some { s with invs := s.invs ++ [⟨key, .start⟩] }
  | .run t e => do
    let i ← s.invs[t]?
    let (h, pc) ← i.step s.toHtab e
    some ⟨h, s.invs.set t { i with pc := pc }⟩

/-- The keys of the events. -/
def execs (as : List (Action κ)) : List κ := as.filterMap Action.key?

/-- The invocations with the key that are at `pc`. -/
def at_pc (pc : Pc) (is : List (Invocation κ)) (k : κ) : Nat :=
  is.countP fun i => i.key = k ∧ i.pc = pc

/-- No lookup misses on a key while another invocation has missed on it and not yet put it in. -/
def Alone (s : State κ capacity) (a : Action κ) : Prop :=
  match a with
  | .run t _ => ∀ i ∈ s.invs[t]?, i.pc = .start → s.table.lookup i.key = none →
      at_pc .missed s.invs i.key = 0
  | .exec _ => True

instance (s : State κ capacity) : ∀ a, Decidable (Alone s a)
  | .run t _ => inferInstanceAs (Decidable (∀ i ∈ s.invs[t]?, _))
  | .exec _ => inferInstanceAs (Decidable True)

/-! ## The map operations -/

namespace Htab

variable {h : Htab κ capacity} {key : κ} {e : Nat}

theorem counter_of_some (hl : h.table.lookup key = some e) : h.counter key = h.cells e := by
  simp [counter, hl]

theorem counter_of_none (hl : h.table.lookup key = none) : h.counter key = 0 := by
  simp [counter, hl]

/-- Two counters are the same when the key has the same element, or none, with the same value. -/
theorem counter_congr (h' : Htab κ capacity) (hl : h'.table.lookup key = h.table.lookup key)
    (hc : ∀ x, h.table.lookup key = some x → h'.cells x = h.cells x) :
    h'.counter key = h.counter key := by
  cases hx : h.table.lookup key with
  | none => rw [counter_of_none hx, counter_of_none (hl.trans hx)]
  | some x => rw [counter_of_some hx, counter_of_some (hl.trans hx), hc x hx]

theorem counter_add (hl : h.table.lookup key = some e) (k : κ) :
    (h.add e).counter k = if key = k then h.counter k + 1 else h.counter k := by
  by_cases hk : key = k
  · subst hk
    rw [if_pos rfl, counter_of_some hl, counter_of_some (h := h.add e) hl]
    simp [add]
  · rw [if_neg hk]
    refine counter_congr (h := h) (h.add e) rfl fun x hx => ?_
    have hne : x ≠ e := fun he => hk (h.distinct key k e hl (he ▸ hx))
    simp [add, hne]

theorem update_of_some {m : BoundedMap κ Nat capacity} (hm : h.table.update key e = some m)
    (he : e ∉ h.table.values) :
    (h.update key e he).table = m ∧
      (h.update key e he).cells = Function.update h.cells e 1 := by
  unfold update
  split
  · rename_i hn
    rw [hm] at hn
    cases hn
  · rename_i m' hm'
    rw [hm] at hm'
    cases hm'
    exact ⟨rfl, rfl⟩

/-- There is an element for each of the keys in `K`. -/
theorem table_update {K : List κ} (hcap : K.dedup.length ≤ capacity) (hK : h.table.keys ⊆ K)
    (hkey : key ∈ K) (he : e ∉ h.table.values) :
    h.table.update key e = some (h.update key e he).table := by
  have hroom : h.table.HasRoom key := by
    apply BoundedMap.hasRoom_of_card (K := K.toFinset)
    · rwa [List.card_toFinset]
    · exact fun k hk => List.mem_toFinset.2 (hK hk)
    · exact List.mem_toFinset.2 hkey
  have hm := BoundedMap.update_of_hasRoom (v := e) hroom
  rw [hm, (update_of_some hm he).1]

theorem counter_update (he : e ∉ h.table.values)
    (hu : h.table.update key e = some (h.update key e he).table) (k : κ) :
    (h.update key e he).counter k = if key = k then 1 else h.counter k := by
  have hcells := (update_of_some hu he).2
  have hlook := BoundedMap.lookup_update k hu
  by_cases hk : key = k
  · subst hk
    rw [if_pos rfl] at hlook ⊢
    rw [counter_of_some hlook, hcells, Function.update_self]
  · rw [if_neg hk]
    rw [if_neg (Ne.symm hk)] at hlook
    refine counter_congr _ hlook fun x hx => ?_
    have hne : x ≠ e := fun hxe => he (hxe ▸ BoundedMap.mem_values hx)
    rw [hcells, Function.update_of_ne hne]

/-! What is in the map, as `count_key` sees it. -/

def contents (h : Htab κ capacity) : BoundedMap κ (BitVec 64) capacity := h.table.map h.cells

theorem lookup_contents : h.contents.lookup key = (h.table.lookup key).map h.cells :=
  BoundedMap.lookup_map _

theorem contents_add (hl : h.table.lookup key = some e) :
    (h.add e).contents = h.contents.modify key (· + 1) := by
  ext1
  simp only [contents, add, BoundedMap.map, BoundedMap.modify, List.map_map]
  refine List.map_congr_left fun p hp => ?_
  obtain ⟨k, x⟩ := p
  have hx : h.table.lookup k = some x := BoundedMap.lookup_eq_some_iff.2 hp
  simp only [Function.comp_apply]
  split
  · rename_i hk
    subst hk
    obtain rfl : x = e := by simpa [hx] using hl
    rw [Function.update_self]
  · rename_i hk
    have hne : x ≠ e := fun hxe => hk (h.distinct k key e (hxe ▸ hx) hl)
    rw [Function.update_of_ne hne]

theorem contents_update (he : e ∉ h.table.values) :
    (h.update key e he).contents = (h.contents.update key 1).getD h.contents := by
  -- `e` is not in the map yet, so what is put there does not show
  have hcells : h.table.map (Function.update h.cells e 1) = h.contents := by
    apply BoundedMap.map_congr
    intro x hx
    have hne : x ≠ e := fun hxe => he (hxe ▸ hx)
    rw [Function.update_of_ne hne]
  have hmap := BoundedMap.map_update (m := h.table) (k := key) (v := e)
    (Function.update h.cells e 1)
  rw [hcells, Function.update_self] at hmap
  rw [hmap]
  cases hm : h.table.update key e with
  | none =>
    have : h.update key e he = h := by
      unfold update
      split
      · rfl
      · rename_i hm'
        rw [hm] at hm'
        cases hm'
    simp [this]
  | some m =>
    obtain ⟨ht, hc⟩ := update_of_some hm he
    simp [contents, ht, hc]

end Htab

/-! ## One invocation after the other -/

theorem State.step_run {s s' : State κ capacity} {t e : Nat} (h : s.step (.run t e) = some s') :
    ∃ i h' pc, s.invs[t]? = some i ∧ i.step s.toHtab e = some (h', pc) ∧
      s' = ⟨h', s.invs.set t { i with pc := pc }⟩ := by
  simp only [State.step, Option.bind_eq_bind, Option.bind_eq_some_iff] at h
  obtain ⟨i, hi, ⟨h', pc⟩, hstep, hs'⟩ := h
  cases hs'
  exact ⟨i, h', pc, hi, hstep, rfl⟩

/-- An invocation that is not interrupted counts as `count_key` does. -/
theorem contents_of_run {s s' : State κ capacity} {k : κ} {e e' : Nat}
    (h : run State.step s [.exec k, .run s.invs.length e, .run s.invs.length e'] = some s') :
    s'.contents = count_key k s.contents := by
  simp only [run_cons, run_nil, Option.some.injEq] at h
  obtain ⟨s₁, h₁, s₂, h₂, s₃, h₃, rfl⟩ := h
  cases h₁
  obtain ⟨i, m, pc, hi, hlookup, rfl⟩ := State.step_run h₂
  obtain ⟨j, m', pc', hj, hcount, rfl⟩ := State.step_run h₃
  obtain rfl : ⟨k, .start⟩ = i := by simpa using hi
  obtain rfl : ⟨k, pc⟩ = j := by simpa using hj
  rw [count_key, Htab.lookup_contents]
  cases hl : s.table.lookup k with
  | some x =>
    simp only [Invocation.step, hl] at hlookup
    cases hlookup
    cases hcount
    exact Htab.contents_add hl
  | none =>
    simp only [Invocation.step, hl] at hlookup
    cases hlookup
    simp only [Invocation.step] at hcount
    split at hcount <;> cases hcount
    exact Htab.contents_update (by assumption)

/-! ## The invariant -/

@[simp] theorem at_pc_nil (pc : Pc) (k : κ) : at_pc pc [] k = 0 := rfl

theorem at_pc_cons (pc : Pc) (i : Invocation κ) (is : List (Invocation κ)) (k : κ) :
    at_pc pc (i :: is) k = at_pc pc is k + if i.key = k ∧ i.pc = pc then 1 else 0 := by
  simp [at_pc, List.countP_cons]

/-- A pointer from a lookup is still the key's; a key that was not there is still not there. -/
def Invocation.Ok (K : List κ) (h : Htab κ capacity) (i : Invocation κ) : Prop :=
  i.key ∈ K ∧
    match i.pc with
    | .hit e => h.table.lookup i.key = some e
    | .missed => h.table.lookup i.key = none
    | _ => True

/-- The invocations with keys in `K` have counted as if one after the other, and one at most is
about to put in a key. -/
structure Counted (h₀ : Htab κ capacity) (K : List κ) (h : Htab κ capacity)
    (is : List (Invocation κ)) : Prop where
  ok : ∀ i ∈ is, i.Ok K h
  one : ∀ k, at_pc .missed is k ≤ 1
  table_keys : h.table.keys ⊆ K
  count : ∀ k, h.counter k = h₀.counter k + BitVec.ofNat 64 (at_pc .done is k)

namespace Counted

variable {h₀ h : Htab κ capacity} {K : List κ} {is os : List (Invocation κ)} {k : κ} {e : Nat}

theorem perm (hp : is.Perm os) (hc : Counted h₀ K h is) : Counted h₀ K h os where
  ok i hi := hc.ok i (hp.mem_iff.2 hi)
  one k := by
    rw [at_pc, ← hp.countP_eq]
    exact hc.one k
  table_keys := hc.table_keys
  count k := by
    rw [hc.count k, at_pc, at_pc, hp.countP_eq]

theorem exec (hc : Counted h₀ K h is) (hk : k ∈ K) : Counted h₀ K h (⟨k, .start⟩ :: is) where
  ok := List.forall_mem_cons.2 ⟨⟨hk, trivial⟩, hc.ok⟩
  one k' := by simpa [at_pc_cons] using hc.one k'
  table_keys := hc.table_keys
  count k' := by simpa [at_pc_cons] using hc.count k'

theorem hit (hc : Counted h₀ K h (⟨k, .start⟩ :: os)) (hl : h.table.lookup k = some e) :
    Counted h₀ K h (⟨k, .hit e⟩ :: os) where
  ok := by
    obtain ⟨hi, hos⟩ := List.forall_mem_cons.1 hc.ok
    exact List.forall_mem_cons.2 ⟨⟨hi.1, hl⟩, hos⟩
  one k' := by simpa [at_pc_cons] using hc.one k'
  table_keys := hc.table_keys
  count k' := by simpa [at_pc_cons] using hc.count k'

theorem missed (hc : Counted h₀ K h (⟨k, .start⟩ :: os)) (hl : h.table.lookup k = none)
    (halone : at_pc .missed os k = 0) : Counted h₀ K h (⟨k, .missed⟩ :: os) where
  ok := by
    obtain ⟨hi, hos⟩ := List.forall_mem_cons.1 hc.ok
    exact List.forall_mem_cons.2 ⟨⟨hi.1, hl⟩, hos⟩
  one k' := by
    have hone := hc.one k'
    rw [at_pc_cons] at hone ⊢
    by_cases hk : k = k'
    · subst hk
      simp [halone]
    · simpa [hk] using hone
  table_keys := hc.table_keys
  count k' := by simpa [at_pc_cons] using hc.count k'

theorem add (hc : Counted h₀ K h (⟨k, .hit e⟩ :: os)) :
    Counted h₀ K (h.add e) (⟨k, .done⟩ :: os) := by
  obtain ⟨⟨hk, hl⟩, hos⟩ := List.forall_mem_cons.1 hc.ok
  refine ⟨List.forall_mem_cons.2 ⟨⟨hk, trivial⟩, hos⟩, fun k' => ?_, hc.table_keys, fun k' => ?_⟩
  · simpa [at_pc_cons] using hc.one k'
  · have hcount := hc.count k'
    simp only [at_pc_cons, reduceCtorEq, and_false, if_false, Nat.add_zero] at hcount
    rw [Htab.counter_add hl, at_pc_cons, hcount]
    by_cases hkk : k = k' <;> simp [hkk, BitVec.ofNat_add, BitVec.add_assoc]

theorem update (hcap : K.dedup.length ≤ capacity) (hc : Counted h₀ K h (⟨k, .missed⟩ :: os))
    (he : e ∉ h.table.values) : Counted h₀ K (h.update k e he) (⟨k, .done⟩ :: os) := by
  obtain ⟨⟨hk, hl⟩, hos⟩ := List.forall_mem_cons.1 hc.ok
  have hu := Htab.table_update hcap hc.table_keys hk he
  -- no other invocation is about to put in `k`
  have hothers : at_pc .missed os k = 0 := by
    have := hc.one k
    simp only [at_pc_cons, and_self, if_true] at this
    omega
  refine ⟨List.forall_mem_cons.2 ⟨⟨hk, trivial⟩, fun i hi => ⟨(hos i hi).1, ?_⟩⟩, fun k' => ?_, ?_,
    fun k' => ?_⟩
  · have hlook := BoundedMap.lookup_update i.key hu
    have hi' := (hos i hi).2
    cases hpc : i.pc with
    | start => trivial
    | done => trivial
    | hit x =>
      simp only [hpc] at hi' ⊢
      have hne : i.key ≠ k := fun h => by
        rw [h, hl] at hi'
        cases hi'
      rw [hlook, if_neg hne, hi']
    | missed =>
      simp only [hpc] at hi' ⊢
      have hne : i.key ≠ k := fun h => by
        rw [at_pc, List.countP_eq_zero] at hothers
        exact hothers i hi (by simp [h, hpc])
      rw [hlook, if_neg hne, hi']
  · have hone := hc.one k'
    rw [at_pc_cons] at hone ⊢
    simp only [reduceCtorEq, and_false, if_false]
    omega
  · rw [BoundedMap.keys_update hu]
    split
    · exact hc.table_keys
    · exact List.append_subset.2 ⟨hc.table_keys, List.cons_subset.2 ⟨hk, List.nil_subset K⟩⟩
  · have hcount := hc.count k'
    simp only [at_pc_cons, reduceCtorEq, and_false, if_false, Nat.add_zero] at hcount
    rw [Htab.counter_update he hu, at_pc_cons]
    by_cases hkk : k = k'
    · subst hkk
      rw [Htab.counter_of_none hl] at hcount
      simp [BitVec.ofNat_add, ← BitVec.add_assoc, ← hcount]
    · simp [hkk, hcount]

end Counted

/-- A map operation of the first invocation. -/
theorem Counted.run {h₀ h h' : Htab κ capacity} {K : List κ} (hcap : K.dedup.length ≤ capacity)
    {i : Invocation κ} {os : List (Invocation κ)} {e : Nat} {pc : Pc}
    (hc : Counted h₀ K h (i :: os)) (hstep : i.step h e = some (h', pc))
    (halone : i.pc = .start → h.table.lookup i.key = none → at_pc .missed os i.key = 0) :
    Counted h₀ K h' ({ i with pc := pc } :: os) := by
  obtain ⟨k, ipc⟩ := i
  cases ipc with
  | start =>
    simp only [Invocation.step] at hstep
    split at hstep <;> cases hstep
    · exact hc.hit (by assumption)
    · exact hc.missed (by assumption) (halone rfl (by assumption))
  | hit x =>
    cases hstep
    exact hc.add
  | missed =>
    simp only [Invocation.step] at hstep
    split at hstep <;> cases hstep
    exact hc.update hcap (by assumption)
  | done => cases hstep

theorem Counted.step {h₀ : Htab κ capacity} {K : List κ} (hcap : K.dedup.length ≤ capacity)
    {s s' : State κ capacity} {a : Action κ} (hc : Counted h₀ K s.toHtab s.invs)
    (ha : Alone s a ∧ ∀ k ∈ a.key?, k ∈ K) (h : s.step a = some s') :
    Counted h₀ K s'.toHtab s'.invs := by
  obtain ⟨halone, hK⟩ := ha
  cases a with
  | exec k =>
    cases h
    exact (hc.exec (hK k rfl)).perm (List.perm_append_singleton ⟨k, .start⟩ s.invs).symm
  | run t e =>
    obtain ⟨i, h', pc, hi, hstep, rfl⟩ := State.step_run h
    obtain ⟨os, hp, hset⟩ := perm_of_getElem? hi
    refine ((hc.perm hp).run hcap hstep fun hpc hl => ?_).perm (hset _).symm
    have := halone i hi hpc hl
    rw [at_pc, hp.countP_eq, ← at_pc, at_pc_cons] at this
    omega

/-- The invocations are those of the events. -/
theorem count_execs {s t : State κ capacity} {as : List (Action κ)}
    (hrun : run State.step s as = some t) (k : κ) :
    t.invs.countP (·.key = k) = s.invs.countP (·.key = k) + (execs as).count k := by
  induction as generalizing s with
  | nil =>
    cases hrun
    simp [execs]
  | cons a as ih =>
    obtain ⟨u, hu, ht⟩ := run_cons.1 hrun
    rw [ih ht]
    cases a with
    | exec k' =>
      cases hu
      simp [execs, Action.key?, List.count_cons]
      omega
    | run j e =>
      obtain ⟨i, h', pc, hi, -, rfl⟩ := State.step_run hu
      obtain ⟨os, hp, hset⟩ := perm_of_getElem? hi
      rw [hp.countP_eq, (hset _).countP_eq]
      simp [execs, List.filterMap_cons, Action.key?, List.countP_cons]

/-- **Counting on several CPUs.** -/
theorem exec_cnt_counted (h₀ : Htab κ capacity) (as : List (Action κ)) (s : State κ capacity)
    (hroom : (h₀.table.keys ++ execs as).dedup.length ≤ capacity)
    (halone : Along State.step Alone ⟨h₀, []⟩ as)
    (hrun : run State.step ⟨h₀, []⟩ as = some s) :
    (∀ k, s.counter k = h₀.counter k + BitVec.ofNat 64 (at_pc .done s.invs k)) ∧
    ((∀ i ∈ s.invs, i.pc = .done) →
      ∀ k, s.counter k = h₀.counter k + BitVec.ofNat 64 ((execs as).count k)) := by
  have hinit : Counted h₀ (h₀.table.keys ++ execs as) h₀ [] := by
    refine ⟨by simp, by simp, List.subset_append_left _ _, by simp⟩
  have hkeys : ∀ a ∈ as, ∀ k ∈ a.key?, k ∈ h₀.table.keys ++ execs as := by
    intro a ha k hk
    exact List.mem_append_right _ (List.mem_filterMap.2 ⟨a, ha, hk⟩)
  have hinv := run_inv (I := fun s => Counted h₀ (h₀.table.keys ++ execs as) s.toHtab s.invs)
    (fun hc ha h => hc.step hroom ha h) hinit (halone.and_forall hkeys) hrun
  refine ⟨hinv.count, fun hdone k => ?_⟩
  have hall : at_pc .done s.invs k = (execs as).count k := by
    have := count_execs hrun k
    simp only [List.countP_nil, Nat.zero_add] at this
    rw [← this, at_pc]
    exact List.countP_congr fun i hi => by simp [hdone i hi]
  rw [hinv.count, hall]

/-- Four invocations for two keys; the second key is looked up while the first one is put in. -/
theorem exec_cnt_counted_of_alone :
    let ls : Key := fun i => if i.val = 0 then 108 else 0
    let sh : Key := fun i => if i.val = 0 then 115 else 0
    let as : List (Action Key) := [.exec ls, .exec sh, .run 0 0, .run 1 0, .run 0 0, .exec ls,
      .run 2 0, .exec ls, .run 1 1, .run 3 0, .run 3 0, .run 2 0]
    ∃ s : State Key max_entries, run State.step ⟨.empty, []⟩ as = some s ∧
      ∀ k, s.counter k = Htab.counter (.empty : Htab Key max_entries) k +
        BitVec.ofNat 64 ((execs as).count k) := by
  intro ls sh as
  have hdone : (run State.step (⟨.empty, []⟩ : State Key max_entries) as).map
      (fun s => decide (∀ i ∈ s.invs, i.pc = .done)) = some true := by decide
  obtain ⟨s, hrun, hs⟩ := Option.map_eq_some_iff.1 hdone
  exact ⟨s, hrun,
    (exec_cnt_counted .empty as s (by decide) (by decide) hrun).2 (of_decide_eq_true hs)⟩

/-- Two first uses of a key: both lookups return NULL, so the second update takes back what the
first one has counted. -/
theorem overlapping_first_uses :
    ¬ ∀ (h₀ : Htab Key max_entries) (as : List (Action Key)) (s : State Key max_entries),
      (h₀.table.keys ++ execs as).dedup.length ≤ max_entries →
      run State.step ⟨h₀, []⟩ as = some s → (∀ i ∈ s.invs, i.pc = .done) →
      ∀ k, s.counter k = h₀.counter k + BitVec.ofNat 64 ((execs as).count k) := by
  intro h
  let ls : Key := fun i => if i.val = 0 then 108 else 0
  let as : List (Action Key) :=
    [.exec ls, .exec ls, .run 0 0, .run 1 0, .run 0 0, .run 1 1]
  have hone : (run State.step (⟨.empty, []⟩ : State Key max_entries) as).map
      (fun s => (decide (∀ i ∈ s.invs, i.pc = .done), s.counter ls)) = some (true, 1) := by decide
  obtain ⟨s, hrun, hs⟩ := Option.map_eq_some_iff.1 hone
  simp only [Prod.mk.injEq, decide_eq_true_eq] at hs
  have hcount := h .empty as s (by decide) hrun hs.1 ls
  rw [hs.2] at hcount
  exact absurd hcount (by decide)

end LinuxKernelProg.EBpf
