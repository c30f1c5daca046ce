import Mathlib.Data.List.Perm.Basic

/-!
# Runs of a partial step function

A system is a step function `step : σ → α → Option σ`; `none` means that the action is not
enabled. `run` takes a list of actions, `Along` says that every step a run takes meets a
condition on the state before it, and the run rules turn what one step keeps into what a whole
run keeps.
-/

namespace LinuxKernelProg.Lib

variable {σ α : Type} (step : σ → α → Option σ)

/-- The state after a list of actions, if each of them is enabled in its turn. -/
def run : σ → List α → Option σ
  | s, [] => some s
  | s, a :: as => (step s a).bind fun s' => run s' as

/-- Every step of the run meets `C` in the state it is taken from. -/
def Along (C : σ → α → Prop) : σ → List α → Prop
  | _, [] => True
  | s, a :: as => C s a ∧ ∀ s', step s a = some s' → Along C s' as

instance Along.decidable (C : σ → α → Prop) [∀ s a, Decidable (C s a)] :
    ∀ (as : List α) (s : σ), Decidable (Along step C s as)
  | [], _ => inferInstanceAs (Decidable True)
  | a :: as, s =>
    match h : step s a with
    | none => decidable_of_iff (C s a) ⟨fun hc => ⟨hc, fun s' h' => by simp [h] at h'⟩, And.left⟩
    | some t =>
      have := Along.decidable C as t
      decidable_of_iff (C s a ∧ Along step C t as)
        ⟨fun hc => ⟨hc.1, fun s' h' => by rw [h] at h'; cases h'; exact hc.2⟩,
          fun hc => ⟨hc.1, hc.2 t h⟩⟩

variable {step}

@[simp] theorem run_nil (s : σ) : run step s [] = some s := rfl

theorem run_cons {s t : σ} {a : α} {as : List α} :
    run step s (a :: as) = some t ↔ ∃ s', step s a = some s' ∧ run step s' as = some t := by
  simp [run, Option.bind_eq_some_iff]

theorem run_append {s t : σ} {as bs : List α} :
    run step s (as ++ bs) = some t ↔ ∃ s', run step s as = some s' ∧ run step s' bs = some t := by
  induction as generalizing s with
  | nil => simp
  | cons a as ih =>
    simp only [List.cons_append, run_cons, ih]
    constructor
    · rintro ⟨u, hu, v, hv, ht⟩
      exact ⟨v, ⟨u, hu, hv⟩, ht⟩
    · rintro ⟨v, ⟨u, hu, hv⟩, ht⟩
      exact ⟨u, hu, v, hv, ht⟩

theorem run_snoc {s t : σ} {as : List α} {a : α} :
    run step s (as ++ [a]) = some t ↔ ∃ s', run step s as = some s' ∧ step s' a = some t := by
  simp [run_append, run_cons]

/-- A run goes through the states of its beginnings. -/
theorem run_take {s t : σ} {as : List α} (h : run step s as = some t) (i : Nat) :
    ∃ u, run step s (as.take i) = some u ∧ run step u (as.drop i) = some t := by
  rw [← List.take_append_drop i as] at h
  exact run_append.1 h

/-- Each action of a run is a step from the state it is taken in. -/
theorem run_getElem? {s t : σ} {as : List α} (h : run step s as = some t) {i : Nat} {a : α}
    (ha : as[i]? = some a) : ∃ u u', run step s (as.take i) = some u ∧ step u a = some u' ∧
      run step s (as.take (i + 1)) = some u' ∧ run step u' (as.drop (i + 1)) = some t := by
  obtain ⟨u', hu', hrest⟩ := run_take h (i + 1)
  have hsplit := hu'
  rw [List.take_add_one, ha, Option.toList_some, run_snoc] at hsplit
  obtain ⟨u, hu, hstep⟩ := hsplit
  exact ⟨u, u', hu, hstep, hu', hrest⟩

namespace Along

theorem append {C : σ → α → Prop} {s t : σ} {as bs : List α} (h : run step s as = some t) :
    Along step C s (as ++ bs) ↔ Along step C s as ∧ Along step C t bs := by
  induction as generalizing s with
  | nil =>
    cases h
    simp [Along]
  | cons a as ih =>
    obtain ⟨u, hu, ht⟩ := run_cons.1 h
    simp only [List.cons_append, Along, hu, Option.some.injEq, forall_eq']
    rw [ih ht, and_assoc]

theorem take {C : σ → α → Prop} {s : σ} {as : List α} (h : Along step C s as) (i : Nat) :
    Along step C s (as.take i) := by
  induction as generalizing s i with
  | nil => simpa using h
  | cons a as ih =>
    cases i with
    | zero => trivial
    | succ i => exact ⟨h.1, fun s' hs' => ih (h.2 s' hs') i⟩

theorem snoc {C : σ → α → Prop} {s : σ} {as : List α} {a : α} :
    Along step C s (as ++ [a]) ↔ Along step C s as ∧ ∀ t, run step s as = some t → C t a := by
  induction as generalizing s with
  | nil => simp [Along]
  | cons b as ih =>
    simp only [List.cons_append, Along, ih, run_cons]
    constructor
    · rintro ⟨hb, h⟩
      exact ⟨⟨hb, fun u hu => (h u hu).1⟩, fun t ⟨u, hu, ht⟩ => (h u hu).2 t ht⟩
    · rintro ⟨⟨hb, h⟩, ht⟩
      exact ⟨hb, fun u hu => ⟨h u hu, fun t hr => ht t ⟨u, hu, hr⟩⟩⟩

/-- The condition holds of each step, in the state the run takes it from. -/
theorem get {C : σ → α → Prop} {s t : σ} {as : List α} (h : Along step C s as) {i : Nat} {a : α}
    (ha : as[i]? = some a) (ht : run step s (as.take i) = some t) : C t a := by
  have := h.take (i + 1)
  rw [List.take_add_one, ha, Option.toList_some, snoc] at this
  exact this.2 t ht

theorem of_get {C : σ → α → Prop} {s : σ} {as : List α}
    (h : ∀ i a t, as[i]? = some a → run step s (as.take i) = some t → C t a) :
    Along step C s as := by
  induction as generalizing s with
  | nil => trivial
  | cons a as ih =>
    refine ⟨h 0 a s rfl rfl, fun s' hs' => ih fun i b t hb ht => h (i + 1) b t hb ?_⟩
    exact run_cons.2 ⟨s', hs', ht⟩

theorem and_forall {C : σ → α → Prop} {P : α → Prop} {as : List α} {s : σ}
    (h : Along step C s as) (hP : ∀ a ∈ as, P a) : Along step (fun s a => C s a ∧ P a) s as := by
  induction as generalizing s with
  | nil => trivial
  | cons a as ih =>
    exact ⟨⟨h.1, hP a List.mem_cons_self⟩,
      fun s' hs' => ih (h.2 s' hs') fun b hb => hP b (List.mem_cons_of_mem a hb)⟩

theorem of_forall {C : σ → α → Prop} (h : ∀ s a, C s a) (as : List α) :
    ∀ s, Along step C s as := by
  induction as with
  | nil => exact fun _ => trivial
  | cons a as ih => exact fun s => ⟨h s a, fun s' _ => ih s'⟩

/-- Under an invariant that the steps keep, a condition can be replaced by one it implies. -/
theorem imp_of_inv {C D : σ → α → Prop} {J : σ → Prop}
    (hD : ∀ {s a}, J s → C s a → D s a)
    (hJ : ∀ {s a s'}, J s → C s a → step s a = some s' → J s') :
    ∀ {as : List α} {s : σ}, J s → Along step C s as → Along step D s as
  | [], _, _, _ => trivial
  | _ :: _, _, hj, h => ⟨hD hj h.1, fun s' hs' => imp_of_inv hD hJ (hJ hj h.1 hs') (h.2 s' hs')⟩

end Along

/-- **Run rule.** What every step under `C` keeps, every run whose steps meet `C` keeps. -/
theorem run_inv {C : σ → α → Prop} {I : σ → Prop}
    (hstep : ∀ {s a s'}, I s → C s a → step s a = some s' → I s') :
    ∀ {as : List α} {s t : σ}, I s → Along step C s as → run step s as = some t → I t
  | [], _, _, hi, _, h => by cases h; exact hi
  | _ :: _, _, _, hi, hC, h => by
    obtain ⟨u, hu, ht⟩ := run_cons.1 h
    exact run_inv hstep (hstep hi hC.1 hu) (hC.2 u hu) ht

/-- The run rule for what every step keeps, whatever the condition. -/
theorem run_inv_of_step {I : σ → Prop} (hstep : ∀ {s a s'}, I s → step s a = some s' → I s')
    {as : List α} {s t : σ} (hi : I s) (h : run step s as = some t) : I t :=
  run_inv (C := fun _ _ => True) (fun hs _ ht => hstep hs ht) hi
    (Along.of_forall (fun _ _ => trivial) as s) h

/-- **Exact run rule.** Where a step keeps `I` exactly when it meets `C`, a run keeps `I` exactly
when all its steps meet `C`; `J` is what steps keep besides. -/
theorem forall_take_iff_along_of_inv {C : σ → α → Prop} {I J : σ → Prop}
    (hstep : ∀ {s a s'}, I s → J s → step s a = some s' → (I s' ↔ C s a) ∧ (I s' → J s')) :
    ∀ {as : List α} {s t : σ}, I s → J s → run step s as = some t →
      ((∀ i u, run step s (as.take i) = some u → I u) ↔ Along step C s as)
  | [], s, t, hi, _, _ => by
    refine ⟨fun _ => trivial, fun _ i u hu => ?_⟩
    rw [List.take_nil] at hu
    cases hu
    exact hi
  | a :: as, s, t, hi, hj, h => by
    obtain ⟨s', hs', hrest⟩ := run_cons.1 h
    obtain ⟨hiff, hJ⟩ := hstep hi hj hs'
    constructor
    · intro hI
      have hi' : I s' := hI 1 s' (run_cons.2 ⟨s', hs', rfl⟩)
      refine ⟨hiff.1 hi', fun s'' hs'' => ?_⟩
      obtain rfl := Option.some.inj (hs'.symm.trans hs'')
      refine (forall_take_iff_along_of_inv hstep hi' (hJ hi') hrest).1 fun i u hu => hI (i + 1) u ?_
      exact run_cons.2 ⟨s', hs', hu⟩
    · intro hC i u hu
      cases i with
      | zero =>
        cases hu
        exact hi
      | succ i =>
        obtain ⟨s'', hs'', hu⟩ := run_cons.1 hu
        obtain rfl := Option.some.inj (hs'.symm.trans hs'')
        have hi' := hiff.2 hC.1
        exact (forall_take_iff_along_of_inv hstep hi' (hJ hi') hrest).2 (hC.2 s' hs') i u hu

/-- The exact run rule where nothing else is needed. -/
theorem forall_take_iff_along {C : σ → α → Prop} {I : σ → Prop}
    (hstep : ∀ {s a s'}, I s → step s a = some s' → (I s' ↔ C s a)) {as : List α} {s t : σ}
    (hi : I s) (h : run step s as = some t) :
    (∀ i u, run step s (as.take i) = some u → I u) ↔ Along step C s as :=
  forall_take_iff_along_of_inv (J := fun _ => True)
    (fun hi _ hs => ⟨hstep hi hs, fun _ => trivial⟩) hi trivial h

/-- **Simulation rule.** If a step is matched by a step of the abstract system, or by none, then a
run is matched by a run of it. -/
theorem run_sim {τ β : Type} {step' : τ → β → Option τ} {R : σ → τ → Prop}
    (hsim : ∀ {s u a s'}, R s u → step s a = some s' →
      R s' u ∨ ∃ b u', step' u b = some u' ∧ R s' u') :
    ∀ {as : List α} {s t : σ} {u : τ}, R s u → run step s as = some t →
      ∃ bs v, run step' u bs = some v ∧ R t v
  | [], _, _, u, hR, h => by cases h; exact ⟨[], u, rfl, hR⟩
  | _ :: _, _, _, u, hR, h => by
    obtain ⟨s', hs', hrest⟩ := run_cons.1 h
    rcases hsim hR hs' with hR' | ⟨b, u', hu', hR'⟩
    · exact run_sim hsim hR' hrest
    · obtain ⟨bs, v, hv, ht⟩ := run_sim hsim hR' hrest
      exact ⟨b :: bs, v, run_cons.2 ⟨u', hu', hv⟩, ht⟩

/-- **Lock-step rule.** If a step is matched by any step that is like it, then a run is matched by
any run of steps that are like its own. -/
theorem run_forall₂ {τ β : Type} {step' : τ → β → Option τ} {R : σ → τ → Prop} {L : α → β → Prop}
    (hsim : ∀ {s u a b s'}, R s u → L a b → step s a = some s' → ∃ u',
      step' u b = some u' ∧ R s' u')
    {as : List α} {bs : List β} {s t : σ} {u : τ} (hab : List.Forall₂ L as bs) (hR : R s u)
    (h : run step s as = some t) : ∃ v, run step' u bs = some v ∧ R t v := by
  induction hab generalizing s u with
  | nil =>
    cases h
    exact ⟨u, rfl, hR⟩
  | cons hhead _ ih =>
    obtain ⟨s', hs', hrest⟩ := run_cons.1 h
    obtain ⟨u', hu', hR'⟩ := hsim hR hhead hs'
    obtain ⟨v, hv, ht⟩ := ih hR' hrest
    exact ⟨v, run_cons.2 ⟨u', hu', hv⟩, ht⟩

/-! ## Threads

The threads of a system are a list. What is said of all of them does not depend on the order, so a
step of one of them is a step of the first. -/

/-- A thread and the others, before and after a step of the thread. -/
theorem perm_of_getElem? {α : Type} {l : List α} {t : Nat} {a : α} (h : l[t]? = some a) :
    ∃ os, l.Perm (a :: os) ∧ ∀ a', (l.set t a').Perm (a' :: os) := by
  obtain ⟨ht, rfl⟩ := List.getElem?_eq_some_iff.1 h
  refine ⟨l.take t ++ l.drop (t + 1), ?_, fun a' => ?_⟩
  · have : (l.take t ++ l[t] :: l.drop (t + 1)).Perm (l[t] :: (l.take t ++ l.drop (t + 1))) :=
      List.perm_middle
    rwa [List.getElem_cons_drop, List.take_append_drop] at this
  · rw [List.set_eq_take_append_cons_drop, if_pos ht]
    exact List.perm_middle

/-- How many threads have a property, by the first one. -/
theorem countP_cons_toNat {α : Type} (p : α → Bool) (a : α) (os : List α) :
    (a :: os).countP p = os.countP p + (p a).toNat := by
  rw [List.countP_cons]
  cases p a <;> rfl

/-- A step of one thread changes how many have the property by the thread itself. -/
theorem countP_set_add {α : Type} {l : List α} {t : Nat} {a : α} (h : l[t]? = some a) (p : α → Bool)
    (a' : α) :
    (l.set t a').countP p + (p a).toNat = l.countP p + (p a').toNat := by
  obtain ⟨os, hp, hset⟩ := perm_of_getElem? h
  rw [(hset a').countP_eq, hp.countP_eq, countP_cons_toNat, countP_cons_toNat]
  omega

/-- The thread at a place, after a step of one of them. -/
theorem getElem?_set_cases {α : Type} {l : List α} {t i : Nat} {a b : α}
    (h : (l.set t a)[i]? = some b) :
    i = t ∧ b = a ∨ i ≠ t ∧ l[i]? = some b := by
  by_cases hit : i = t
  · subst hit
    rw [List.getElem?_set_self'] at h
    obtain ⟨_, -, rfl⟩ := Option.map_eq_some_iff.1 h
    exact .inl ⟨rfl, rfl⟩
  · rw [List.getElem?_set_ne (Ne.symm hit)] at h
    exact .inr ⟨hit, h⟩

/-- A step that leaves the thread as it is. -/
theorem set_eq_self {α : Type} {l : List α} {t : Nat} {a : α} (h : l[t]? = some a) :
    l.set t a = l := by
  obtain ⟨ht, rfl⟩ := List.getElem?_eq_some_iff.1 h
  exact List.set_getElem_self ht

/-- Whether the thread at a place has a property, after a step of one of them. -/
theorem any_getElem?_set {α : Type} {l : List α} {t : Nat} {a b : α} {p : α → Bool}
    (h : l[t]? = some a) (i : Nat) :
    ((l.set t b)[i]?).any p = if i = t then p b else (l[i]?).any p := by
  split
  · next hit =>
    rw [hit, List.getElem?_set_self', h]
    rfl
  · next hit => rw [List.getElem?_set_ne (Ne.symm hit)]

/-- A thread that comes and does not have it makes no difference. -/
theorem any_getElem?_append {α : Type} {p : α → Bool} {b : α} (hb : p b = false) {l : List α}
    {i : Nat} :
    ((l ++ [b])[i]?).any p = (l[i]?).any p := by
  rcases Nat.lt_trichotomy i l.length with hlt | heq | hgt
  · rw [List.getElem?_append_left hlt]
  · rw [heq, List.getElem?_concat_length, List.getElem?_eq_none (Nat.le_refl _),
      Option.any_some, hb]
    rfl
  · rw [List.getElem?_eq_none (by rw [List.length_append, List.length_singleton]; omega),
      List.getElem?_eq_none (Nat.le_of_lt hgt)]

/-- What the threads have in hand, after a step of one whose hand stays. -/
theorem filterMap_set_eq {α β : Type} {hand : α → Option β} {l : List α} {t : Nat} {a b : α}
    (h : l[t]? = some a) (hb : hand b = hand a) :
    (l.set t b).filterMap hand = l.filterMap hand := by
  have hmap : (l.set t b).map hand = l.map hand := by
    rw [List.map_set, hb]
    exact set_eq_self (by rw [List.getElem?_map, h, Option.map_some])
  have := congrArg (List.filterMap id) hmap
  rwa [List.filterMap_map, List.filterMap_map] at this

/-- Only one thread has something in hand, if any has, and it makes a step. -/
theorem filterMap_set_of_alone {α β : Type} {hand : α → Option β} {l : List α} {t : Nat} {a : α}
    (h : l[t]? = some a) (hl : l.filterMap hand = (hand a).toList) (b : α) :
    (l.set t b).filterMap hand = (hand b).toList := by
  obtain ⟨os, hp, hset⟩ := perm_of_getElem? h
  have hcons : ∀ c, (c :: os).filterMap hand = (hand c).toList ++ os.filterMap hand := by
    intro c
    cases hc : hand c with
    | none => rw [List.filterMap_cons_none hc]; rfl
    | some x => rw [List.filterMap_cons_some hc]; rfl
  have hos : os.filterMap hand = [] := by
    have hlen := (hp.filterMap hand).length_eq
    rw [hl, hcons, List.length_append] at hlen
    exact List.length_eq_zero_iff.1 (by omega)
  have hperm := (hset b).filterMap hand
  rw [hcons, hos, List.append_nil] at hperm
  cases hc : hand b with
  | none =>
    rw [hc] at hperm
    exact hperm.eq_nil
  | some x =>
    rw [hc] at hperm
    exact List.perm_singleton.1 hperm

/-- Whether a thread has something in hand, where one has at most. -/
theorem any_isSome_of_filterMap {α β : Type} {hand : α → Option β} {l : List α} {o : Option β}
    (h : l.filterMap hand = o.toList) : (l.any fun a => (hand a).isSome) = o.isSome := by
  cases o with
  | none =>
    refine List.any_eq_false.2 fun a ha => ?_
    rw [List.filterMap_eq_nil_iff.1 h a ha]
    exact Bool.false_ne_true
  | some x =>
    have hx : x ∈ l.filterMap hand := by
      rw [h]
      exact List.mem_singleton_self x
    obtain ⟨a, ha, hx⟩ := List.mem_filterMap.1 hx
    exact List.any_eq_true.2 ⟨a, ha, by rw [hx]; rfl⟩

/-- What some thread has, some thread has after a step of one that keeps it. -/
theorem exists_mem_set {α : Type} {p : α → Prop} {l : List α} {t : Nat} {a b : α}
    (h : l[t]? = some a) (hp : p a → p b) : (∃ c ∈ l, p c) → ∃ c ∈ l.set t b, p c := by
  rintro ⟨c, hc, hpc⟩
  obtain ⟨i, hi⟩ := List.mem_iff_getElem?.1 hc
  rcases eq_or_ne i t with rfl | hit
  · obtain rfl := Option.some.inj (h.symm.trans hi)
    exact ⟨b, List.mem_set (List.getElem?_eq_some_iff.1 h).1 b, hp hpc⟩
  · exact ⟨c, List.mem_of_getElem? ((List.getElem?_set_ne hit.symm).trans hi), hpc⟩

/-- After a step of one thread, each thread is that one or one of the others. -/
theorem eq_or_mem_of_mem_set {α : Type} {l : List α} {t : Nat} {a b : α} (h : b ∈ l.set t a) :
    b = a ∨ b ∈ l.eraseIdx t := by
  obtain ⟨i, hi⟩ := List.mem_iff_getElem?.1 h
  rcases getElem?_set_cases hi with ⟨-, rfl⟩ | ⟨hit, hi⟩
  · exact .inl rfl
  · exact .inr (List.mem_eraseIdx_iff_getElem?.2 ⟨i, hit, hi⟩)

/-- Where one thread at most has a property, and one has it, none of the others has. -/
theorem eq_false_of_countP_le_one {α : Type} {p : α → Bool} {l : List α} {t : Nat} {a : α}
    (h : l[t]? = some a) (hle : l.countP p ≤ 1) (ha : p a = true) :
    ∀ b ∈ l.eraseIdx t, p b = false := by
  obtain ⟨hlt, rfl⟩ := List.getElem?_eq_some_iff.1 h
  rw [← (List.getElem_cons_eraseIdx_perm hlt).countP_eq, List.countP_cons_of_pos ha] at hle
  have hzero : (l.eraseIdx t).countP p = 0 := by omega
  exact fun b hb => Bool.not_eq_true _ ▸ List.countP_eq_zero.1 hzero b hb

end LinuxKernelProg.Lib
