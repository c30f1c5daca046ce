import Mathlib.Data.List.Forall2
import Mathlib.Data.List.Induction
import Mathlib.Data.List.Nodup
import LinuxKernelProg.Lib.Run

/-!
# Objects that are used again

A slab cache hands out objects. The constructor runs on an object once, when the cache gets the page
that it is on; after that the cache does not touch what is in it, and an object that comes back is
handed out again as it is.

If the constructor and what is done to an object before it comes back leave nothing of what was in
it, then the next owner sees no more of the last one than that there was one (`handed_of_run`,
`alike_of_run`).
-/

namespace LinuxKernelProg.Lib

/-- The contents are `κ`, and `ω` is what an owner stores. -/
structure Slab (κ ω : Type) where
  ctor : κ → κ
  store : ω → κ → κ
  /-- Before the object comes back. -/
  clear : κ → κ

namespace Slab

variable {κ ω : Type}

structure Obj (κ : Type) where
  contents : κ
  /-- It has been handed out. -/
  live : Bool

inductive Action (κ ω : Type) where
  /-- The cache gets a page, with this in it. -/
  | grow (page : List κ)
  /-- Any object in the cache is handed out, or none. -/
  | alloc (k : Option Nat)
  | store (k : Nat) (w : ω)
  | free (k : Option Nat)

/-- An object that is on this side is changed, and is then on that side. -/
def change (s : List (Obj κ)) (k : Nat) (live : Bool) (f : κ → κ) (live' : Bool) :
    Option (List (Obj κ)) :=
  (s[k]?).bind fun o => if o.live = live then some (s.set k ⟨f o.contents, live'⟩) else none

variable (m : Slab κ ω)

/-- An object is stored to and freed by its owner. -/
def step (s : List (Obj κ)) : Action κ ω → Option (List (Obj κ))
  | .grow page => some (s ++ page.map fun c => ⟨m.ctor c, false⟩)
  | .alloc none => some s
  | .alloc (some k) => change s k false id true
  | .store k w => change s k true (m.store w) true
  | .free none => some s
  | .free (some k) => change s k true m.clear false

/-- What is in an object. -/
def contents (s : List (Obj κ)) (k : Nat) : Option κ := (s[k]?).map Obj.contents

/-- The object that is handed out. -/
def Action.owned : Action κ ω → Option Nat
  | .alloc k => k
  | _ => none

/-- The objects that have had an owner. -/
def owned (as : List (Action κ ω)) : List Nat := as.filterMap Action.owned

/-- Two steps that differ only in what is on a page, and in what is stored. -/
inductive Action.Alike : Action κ ω → Action κ ω → Prop where
  | grow {page page' : List κ} (h : page.length = page'.length) : Alike (.grow page) (.grow page')
  | alloc (k : Option Nat) : Alike (.alloc k) (.alloc k)
  | store (k : Nat) (w w' : ω) : Alike (.store k w) (.store k w')
  | free (k : Option Nat) : Alike (.free k) (.free k)

/-- Two objects that are both handed out, or both in the cache and then with the same in them. -/
def Obj.Alike (o o' : Obj κ) : Prop :=
  o.live = o'.live ∧ (o.live = false → o.contents = o'.contents)

variable {m} {s s' t : List (Obj κ)} {a b : Action κ ω} {as bs : List (Action κ ω)}
  {k : Nat} {live live' : Bool}
  {f g : κ → κ}

theorem change_eq_some :
    change s k live f live' = some s' ↔ ∃ c, s[k]? = some ⟨c, live⟩ ∧
      s' = s.set k ⟨f c, live'⟩ := by
  unfold change
  rw [Option.bind_eq_some_iff]
  constructor
  · rintro ⟨⟨c, live₀⟩, hk, h⟩
    by_cases hlive : live₀ = live
    · rw [if_pos hlive] at h
      exact ⟨c, hlive ▸ hk, (Option.some.inj h).symm⟩
    · rw [if_neg hlive] at h
      cases h
  · rintro ⟨c, hk, rfl⟩
    exact ⟨⟨c, live⟩, hk, if_pos rfl⟩

theorem contents_set {o o' : Obj κ} (hk : s[k]? = some o') :
    contents (s.set k o) k = some o.contents := by
  rw [contents, List.getElem?_set_self (List.getElem?_eq_some_iff.1 hk).1, Option.map_some]

/-! ## What every object keeps -/

theorem forall_change {P : κ → Prop} (hf : ∀ c, P c → P (f c)) (hs : ∀ o ∈ s, P o.contents)
    (h : change s k live f live' = some s') : ∀ o ∈ s', P o.contents := by
  obtain ⟨c, hk, rfl⟩ := change_eq_some.1 h
  intro o ho
  rcases eq_or_mem_of_mem_set ho with rfl | ho
  · exact hf c (hs _ (List.mem_of_getElem? hk))
  · exact hs o (List.mem_of_mem_eraseIdx ho)

/-- What the constructor establishes, and the owners and the clearing keep, is true of every
object. -/
theorem forall_of_run {P : κ → Prop} (hctor : ∀ c, P (m.ctor c))
    (hstore : ∀ w c, P c → P (m.store w c)) (hclear : ∀ c, P c → P (m.clear c))
    (h : run m.step [] as = some s) : ∀ o ∈ s, P o.contents := by
  refine run_inv_of_step (I := fun s => ∀ o ∈ s, P o.contents) (fun {s a s'} hs h => ?_)
    (fun o ho => (by cases ho)) h
  cases a with
  | grow page =>
    cases h
    intro o ho
    rcases List.mem_append.1 ho with ho | ho
    · exact hs o ho
    · obtain ⟨c, -, rfl⟩ := List.mem_map.1 ho
      exact hctor c
  | alloc k =>
    cases k with
    | none => exact Option.some.inj h ▸ hs
    | some k => exact forall_change (fun _ => id) hs h
  | store k w => exact forall_change (hstore w) hs h
  | free k =>
    cases k with
    | none => exact Option.some.inj h ▸ hs
    | some k => exact forall_change hclear hs h

/-! ## Two histories -/

theorem Forall₂.set {R : Obj κ → Obj κ → Prop} {o o' : Obj κ} (h : List.Forall₂ R s t) (ho : R o o')
    (k : Nat) :
    List.Forall₂ R (s.set k o) (t.set k o') := by
  induction h generalizing k with
  | nil => exact .nil
  | cons hhead htail ih =>
    cases k with
    | zero => exact .cons ho htail
    | succ k => exact .cons hhead (ih k)

theorem Forall₂.getElem? {R : Obj κ → Obj κ → Prop} {o : Obj κ} (h : List.Forall₂ R s t)
    (ho : s[k]? = some o) :
    ∃ o', t[k]? = some o' ∧ R o o' := by
  induction h generalizing k with
  | nil => cases ho
  | cons hhead htail ih =>
    cases k with
    | zero => exact ⟨_, rfl, Option.some.inj ho ▸ hhead⟩
    | succ k => exact ih ho

theorem alike_change (hst : List.Forall₂ Obj.Alike s t)
    (hfg : ∀ c c', (live = false → c = c') → live' = false → f c = g c')
    (h : change s k live f live' = some s') :
    ∃ t', change t k live g live' = some t' ∧ List.Forall₂ Obj.Alike s' t' := by
  obtain ⟨c, hk, rfl⟩ := change_eq_some.1 h
  obtain ⟨⟨c', live₀⟩, hk', hlive, hc⟩ := Forall₂.getElem? hst hk
  obtain rfl : live = live₀ := hlive
  refine ⟨t.set k ⟨g c', live'⟩, change_eq_some.2 ⟨c', hk', rfl⟩, Forall₂.set hst ?_ k⟩
  exact ⟨rfl, hfg c c' hc⟩

theorem alike_step (hctor : ∀ c c', m.ctor c = m.ctor c') (hclear : ∀ c c', m.clear c = m.clear c')
    (hst : List.Forall₂ Obj.Alike s t) (hab : a.Alike b) (h : m.step s a = some s') :
    ∃ t', m.step t b = some t' ∧ List.Forall₂ Obj.Alike s' t' := by
  cases hab with
  | @grow page page' hlen =>
    cases h
    refine ⟨_, rfl, List.rel_append hst ?_⟩
    rw [List.forall₂_map_left_iff, List.forall₂_map_right_iff]
    exact List.forall₂_of_length_eq_of_get hlen fun i _ _ => ⟨rfl, fun _ => hctor _ _⟩
  | alloc k =>
    cases k with
    | none => exact ⟨t, rfl, Option.some.inj h ▸ hst⟩
    | some k => exact alike_change hst (fun c c' hc _ => hc rfl) h
  | store k w w' => exact alike_change hst (fun _ _ _ hlive => (by cases hlive)) h
  | free k =>
    cases k with
    | none => exact ⟨t, rfl, Option.some.inj h ▸ hst⟩
    | some k => exact alike_change hst (fun c c' _ _ => hclear c c') h

/-- **Nothing else of the past**: of two histories that differ only in what was stored, the second
runs if the first does, and the same is then in the objects in the cache. -/
theorem alike_of_run (hctor : ∀ c c', m.ctor c = m.ctor c')
    (hclear : ∀ c c', m.clear c = m.clear c') (hab : List.Forall₂ Action.Alike as bs)
    (h : run m.step [] as = some s) :
    ∃ t, run m.step [] bs = some t ∧ List.Forall₂ Obj.Alike s t :=
  run_forall₂ (fun hst hab h => alike_step hctor hclear hst hab h) hab .nil h

theorem alike_alloc (hst : List.Forall₂ Obj.Alike s t) (hk : m.step s (.alloc (some k)) = some s') :
    ∃ t', m.step t (.alloc (some k)) = some t' ∧ contents t' k = contents s' k := by
  obtain ⟨c, hc, rfl⟩ := change_eq_some.1 hk
  obtain ⟨⟨c', live⟩, hc', hlive, hsame⟩ := Forall₂.getElem? hst hc
  obtain rfl : false = live := hlive
  refine ⟨_, change_eq_some.2 ⟨c', hc', rfl⟩, ?_⟩
  rw [contents_set hc, contents_set hc']
  exact congrArg some (hsame rfl).symm

/-! ## Who had an owner -/

/-- What is known of the objects if these have had an owner: the others are as new. -/
structure Known (new old : κ) (ks : List Nat) (s : List (Obj κ)) : Prop where
  cached : ∀ (k : Nat) c, s[k]? = some ⟨c, false⟩ → c = if ks.contains k then old else new
  live : ∀ (k : Nat) c, s[k]? = some ⟨c, true⟩ → k ∈ ks
  lt : ∀ k ∈ ks, k < s.length

namespace Known

variable {new old : κ} {ks : List Nat}

theorem grow (hctor : ∀ c, m.ctor c = new) (h : Known new old ks s) (page : List κ) :
    Known new old ks (s ++ page.map fun c => ⟨m.ctor c, false⟩) where
  cached k c hk := by
    rw [List.getElem?_append] at hk
    split at hk
    · exact h.cached k c hk
    · next hge =>
      have hnot : k ∉ ks := fun hmem => hge (h.lt k hmem)
      rw [if_neg fun hmem => hnot (List.contains_iff_mem.1 hmem)]
      obtain ⟨c', -, hc'⟩ := List.mem_map.1 (List.mem_of_getElem? hk)
      cases hc'
      exact hctor c'
  live k c hk := by
    rw [List.getElem?_append] at hk
    split at hk
    · exact h.live k c hk
    · obtain ⟨c', -, hc'⟩ := List.mem_map.1 (List.mem_of_getElem? hk)
      cases hc'
  lt k hk := by
    rw [List.length_append]
    exact Nat.lt_add_right _ (h.lt k hk)

theorem alloc (h : Known new old ks s) (hk : Slab.change s k false id true = some s') :
    Known new old (ks ++ [k]) s' := by
  obtain ⟨c, hc, rfl⟩ := change_eq_some.1 hk
  refine ⟨fun j d hj => ?_, fun j d hj => ?_, fun j hj => ?_⟩
  · rcases getElem?_set_cases hj with ⟨-, hd⟩ | ⟨hne, hj⟩
    · cases hd
    · have hcontains : (ks ++ [k]).contains j = ks.contains j := by simp [hne]
      rw [hcontains]
      exact h.cached j d hj
  · rcases getElem?_set_cases hj with ⟨rfl, -⟩ | ⟨-, hj⟩
    · exact List.mem_append_right _ List.mem_cons_self
    · exact List.mem_append_left _ (h.live j d hj)
  · rw [List.length_set]
    rcases List.mem_append.1 hj with hj | hj
    · exact h.lt j hj
    · obtain rfl := List.mem_singleton.1 hj
      exact (List.getElem?_eq_some_iff.1 hc).1

/-- What an owner does is done to an object that has had one. -/
theorem change (hf : live' = false → ∀ c, f c = old) (h : Known new old ks s)
    (hk : Slab.change s k true f live' = some s') : Known new old ks s' := by
  obtain ⟨c, hc, rfl⟩ := change_eq_some.1 hk
  refine ⟨fun j d hj => ?_, fun j d hj => ?_, fun j hj => ?_⟩
  · rcases getElem?_set_cases hj with ⟨rfl, hd⟩ | ⟨-, hj⟩
    · cases hd
      rw [if_pos (List.contains_iff_mem.2 (h.live j c hc))]
      exact hf rfl c
    · exact h.cached j d hj
  · rcases getElem?_set_cases hj with ⟨rfl, -⟩ | ⟨-, hj⟩
    · exact h.live j c hc
    · exact h.live j d hj
  · rw [List.length_set]
    exact h.lt j hj

theorem step (hctor : ∀ c, m.ctor c = new) (hclear : ∀ c, m.clear c = old) (hs : Known new old ks s)
    (h : m.step s a = some s') : Known new old (ks ++ a.owned.toList) s' := by
  cases a with
  | grow page =>
    cases h
    exact (List.append_nil ks).symm ▸ hs.grow hctor page
  | alloc k =>
    cases k with
    | none =>
      cases h
      exact (List.append_nil ks).symm ▸ hs
    | some k => exact hs.alloc h
  | store k w => exact (List.append_nil ks).symm ▸ hs.change (fun hlive => (by cases hlive)) h
  | free k =>
    cases k with
    | none =>
      cases h
      exact (List.append_nil ks).symm ▸ hs
    | some k => exact (List.append_nil ks).symm ▸ hs.change (fun _ => hclear) h

end Known

theorem owned_snoc (as : List (Action κ ω)) (a : Action κ ω) :
    owned (as ++ [a]) = owned as ++ a.owned.toList := by
  unfold owned
  rw [List.filterMap_append, List.filterMap_cons]
  cases a.owned <;> rfl

theorem known_of_run {new old : κ} (hctor : ∀ c, m.ctor c = new) (hclear : ∀ c, m.clear c = old)
    (h : run m.step [] as = some s) : Known new old (owned as) s := by
  induction as using List.reverseRecOn generalizing s with
  | nil =>
    cases h
    exact ⟨fun _ _ h => (by cases h), fun _ _ h => (by cases h), fun _ h => (by cases h)⟩
  | append_singleton as a ih =>
    obtain ⟨u, hu, hstep⟩ := run_snoc.1 h
    rw [owned_snoc]
    exact (ih hu).step hctor hclear hstep

/-- **What an object tells** when it is handed out is whether it has had an owner. -/
theorem handed_of_run {new old : κ} (hctor : ∀ c, m.ctor c = new) (hclear : ∀ c, m.clear c = old)
    (h : run m.step [] as = some s) (hk : m.step s (.alloc (some k)) = some s') :
    contents s' k = some (if (owned as).contains k then old else new) := by
  obtain ⟨c, hc, rfl⟩ := change_eq_some.1 hk
  rw [contents_set hc]
  exact congrArg some ((known_of_run hctor hclear h).cached k c hc)

theorem eq_alloc_of_owned (h : a.owned = some k) : a = .alloc (some k) := by
  cases a with
  | alloc k' => exact congrArg _ h
  | grow | store | free => cases h

/-- No object is handed out twice if none is that has had an owner. -/
theorem nodup_owned_iff :
    (owned as).Nodup ↔ ∀ pre k, pre ++ [.alloc (some k)] <+: as → k ∉ owned pre := by
  induction as using List.reverseRecOn with
  | nil => exact ⟨fun _ pre k h => absurd (List.prefix_nil.1 h) (by simp), fun _ => List.nodup_nil⟩
  | append_singleton as a ih =>
    rw [owned_snoc, List.nodup_append, ih]
    constructor
    · rintro ⟨hold, -, hnew⟩ pre k h
      rcases List.prefix_concat_iff.1 h with h | h
      · obtain ⟨rfl, rfl⟩ := List.append_singleton_inj.1 h
        exact fun hk => hnew k hk k List.mem_cons_self rfl
      · exact hold pre k h
    · intro h
      refine ⟨fun pre k hpre => h pre k (List.prefix_concat_iff.2 (.inr hpre)), ?_,
        fun j hj k hk => ?_⟩
      · cases a.owned with
        | none => exact List.nodup_nil
        | some k => exact List.nodup_singleton k
      · have ha := eq_alloc_of_owned (Option.mem_toList.1 hk)
        rintro rfl
        exact h as j (List.prefix_concat_iff.2 (.inl (ha ▸ rfl))) hj

end Slab

end LinuxKernelProg.Lib
