import Mathlib.Logic.Relation
import LinuxKernelProg.Lib.RingSteps

/-!
# Rings whose `prev` pointers are late

Where the steps of several insertions and removals come in between each other, the `next` pointers
go round while some of the `prev` pointers are still to be stored. `HalfRing` is what is left of a
ring then, and it is kept as long as each store of an operation finds the pointers that it goes by
as they were loaded (`Insert.Current`, `Remove.Current`). With no store left to be made, it is a
ring.
-/

namespace LinuxKernelProg.Lib

open LinkMem

variable {M α : Type} [DecidableEq α] [LinkMem M α]

/-- The pointers that the next store of an insertion goes by are as they were loaded. -/
def Insert.Current (m : M) (new head : α) : Insert α → Prop
  | .publish n => nextOf m head = some n
  | .back n => nextOf m new = some n
  | _ => True

/-- The pointers that the next store of a removal goes by are as they were loaded, and as they were
stored. -/
def Remove.Current (m : M) (a : α) : Remove α → Prop
  | .back p n => prevOf m a = some p ∧ nextOf m p = some a ∧ nextOf m a = some n
  | .forth p n => prevOf m a = some p ∧ nextOf m p = some a ∧
      nextOf m a = some n ∧ prevOf m n = some p
  | _ => True

instance (m : M) (new head : α) : DecidablePred (Insert.Current m new head) := fun op => by
  cases op <;> unfold Insert.Current <;> infer_instance

instance (m : M) (a : α) : DecidablePred (Remove.Current m a) := fun op => by
  cases op <;> unfold Remove.Current <;> infer_instance

/-! ## Going round -/

/-- The `next` pointers lead from `a` over `xs` to `b`. -/
def Leads (m : M) (a : α) (xs : List α) (b : α) : Prop :=
  (a :: xs).map (nextOf m) = (xs ++ [b]).map some

namespace Leads

variable {m m' : M} {a b c d : α} {xs ys : List α}

theorem nil : Leads m a [] b ↔ nextOf m a = some b := by
  simp [Leads]

theorem cons : Leads m a (c :: xs) b ↔ nextOf m a = some c ∧ Leads m c xs b := by
  simp [Leads]

theorem append : Leads m a (xs ++ c :: ys) b ↔ Leads m a xs c ∧ Leads m c ys b := by
  induction xs generalizing a with
  | nil => rw [List.nil_append, cons, nil]
  | cons x xs ih => rw [List.cons_append, cons, cons, ih, and_assoc]

theorem congr (h : Leads m a xs b) (hn : ∀ d ∈ a :: xs, nextOf m' d = nextOf m d) :
    Leads m' a xs b :=
  (List.map_congr_left hn).trans h

/-- Each cell on the way has its `next` pointer on the way. -/
theorem nextOf_mem (h : Leads m a xs b) (hd : d ∈ a :: xs) :
    ∃ e ∈ xs ++ [b], nextOf m d = some e := by
  have hmem : nextOf m d ∈ (xs ++ [b]).map some := h ▸ List.mem_map_of_mem hd
  obtain ⟨e, he, heq⟩ := List.mem_map.1 hmem
  exact ⟨e, he, heq.symm⟩

/-- No two cells on the way have the same `next` pointer. -/
theorem inj (h : Leads m a xs b) (hnd : (xs ++ [b]).Nodup) {e : α} (hd : d ∈ a :: xs)
    (he : e ∈ a :: xs) (hde : nextOf m d = nextOf m e) : d = e := by
  have hnd' : ((a :: xs).map (nextOf m)).Nodup := h ▸ hnd.map fun _ _ => Option.some.inj
  exact List.inj_on_of_nodup_map hnd' hd he hde

theorem nextOf_last (h : Leads m a xs b) : nextOf m (last a xs) = some b := by
  induction xs generalizing a with
  | nil => exact nil.1 h
  | cons x xs ih => exact ih (cons.1 h).2

/-- The last pointer goes elsewhere. -/
theorem retarget (h : Leads m a xs b) (hn : ∀ d ∈ a :: xs, d ≠ last a xs → nextOf m' d = nextOf m d)
    (hlast : nextOf m' (last a xs) = some c) (hnd : (a :: xs).Nodup) : Leads m' a xs c := by
  induction xs generalizing a with
  | nil => exact nil.2 hlast
  | cons x xs ih =>
    obtain ⟨hax, hxb⟩ := cons.1 h
    have hne : a ≠ last x xs := fun e => (List.nodup_cons.1 hnd).1 (e ▸ last_mem x xs)
    refine cons.2 ⟨(hn a List.mem_cons_self hne).trans hax, ih hxb (fun d hd => ?_) hlast ?_⟩
    · exact hn d (List.mem_cons_of_mem a hd)
    · exact (List.nodup_cons.1 hnd).2

/-- The way begins elsewhere. -/
theorem start (h : Leads m a xs b) (ha : nextOf m a = some d) (hc : nextOf m' c = some d)
    (hn : ∀ e ∈ xs, nextOf m' e = nextOf m e) : Leads m' c xs b := by
  cases xs with
  | nil => exact nil.2 (hc.trans (ha.symm.trans (nil.1 h)))
  | cons x xs =>
    obtain ⟨hax, hxb⟩ := cons.1 h
    exact cons.2 ⟨hc.trans (ha.symm.trans hax), hxb.congr hn⟩

/-- With the `prev` pointers in place it is a segment. -/
theorem seg (h : Leads m a xs b)
    (hprev : ∀ d ∈ a :: xs, ∀ e, nextOf m d = some e → prevOf m e = some d) :
    Seg m a xs b := by
  induction xs generalizing a with
  | nil =>
    have hab := nil.1 h
    exact ⟨hab, hprev a List.mem_cons_self b hab⟩
  | cons x xs ih =>
    obtain ⟨hax, hxb⟩ := cons.1 h
    exact ⟨⟨hax, hprev a List.mem_cons_self x hax⟩,
      ih hxb fun d hd => hprev d (List.mem_cons_of_mem a hd)⟩

end Leads

/-- The cells `xs`, in this order, are what the `next` pointers lead through from the head `h`. A
`prev` pointer may be late, and one to a cell that is gone does not lead back. -/
structure HalfRing (m : M) (h : α) (xs : List α) (gone : α → Prop)
    (late : α → α → Prop) : Prop where
  nodup : (h :: xs).Nodup
  leads : Leads m h xs h
  prev : ∀ b ∈ h :: xs, ∃ p, prevOf m b = some p ∧ (p ∈ h :: xs ∨ gone p ∧ nextOf m p ≠ some b)
  back : ∀ a ∈ h :: xs, ∀ b, nextOf m a = some b → prevOf m b = some a ∨ late a b

namespace HalfRing

variable {m m' : M} {h a b c p x new : α} {xs : List α} {gone gone' : α → Prop}
  {late late' : α → α → Prop}

theorem nodup' (hr : HalfRing m h xs gone late) : (xs ++ [h]).Nodup :=
  List.nodup_append_comm.1 hr.nodup

omit [DecidableEq α] in
theorem mem_comm : b ∈ xs ++ [h] ↔ b ∈ h :: xs := by
  simp [or_comm]

/-- With no store left to be made, it is a ring. -/
theorem ring (hr : HalfRing m h xs gone late) (hlate : ∀ a b, ¬ late a b) : Ring m h xs where
  nodup := hr.nodup
  seg := hr.leads.seg fun a ha b hab => (hr.back a ha b hab).resolve_right (hlate a b)

theorem nextOf_mem (hr : HalfRing m h xs gone late) (ha : a ∈ h :: xs) :
    ∃ b ∈ h :: xs, nextOf m a = some b := by
  obtain ⟨b, hb, hab⟩ := hr.leads.nextOf_mem ha
  exact ⟨b, mem_comm.1 hb, hab⟩

theorem mem_of_nextOf (hr : HalfRing m h xs gone late) (ha : a ∈ h :: xs)
    (hab : nextOf m a = some b) :
    b ∈ h :: xs := by
  obtain ⟨c, hc, hac⟩ := hr.nextOf_mem ha
  rw [hac] at hab
  cases hab
  exact hc

theorem inj (hr : HalfRing m h xs gone late) (ha : a ∈ h :: xs) (hb : b ∈ h :: xs)
    (hab : nextOf m a = nextOf m b) : a = b := hr.leads.inj hr.nodup' ha hb hab

/-- What leads back to a cell, and from where the way comes, is the cell in front. -/
theorem front (hr : HalfRing m h xs gone late) (hc : c ∈ h :: xs) (hp : prevOf m c = some p)
    (hpc : nextOf m p = some c) : p ∈ h :: xs := by
  obtain ⟨q, hq, hmem⟩ := hr.prev c hc
  rw [hp] at hq
  cases hq
  exact hmem.resolve_right fun hgone => hgone.2 hpc

/-- The cell in front is the last one on the way there. -/
theorem eq_last {as bs : List α} (hr : HalfRing m h (as ++ c :: bs) gone late)
    (hp : p ∈ h :: (as ++ c :: bs)) (hpc : nextOf m p = some c) : p = last h as := by
  have hlast := (Leads.append.1 hr.leads).1.nextOf_last
  refine hr.inj hp ?_ (hpc.trans hlast.symm)
  rw [← List.cons_append]
  exact List.mem_append_left _ (last_mem h as)

/-- A cell does not follow on itself. -/
theorem front_ne (hr : HalfRing m h xs gone late) (hc : c ∈ xs) (hpc : nextOf m p = some c) :
    p ≠ c := by
  rintro rfl
  obtain ⟨as, bs, rfl⟩ := List.append_of_mem hc
  have hnd := hr.nodup
  rw [← List.cons_append] at hnd
  have hlast := hr.eq_last (List.mem_cons_of_mem h hc) hpc
  exact List.disjoint_of_nodup_append hnd (hlast ▸ last_mem h as) List.mem_cons_self

/-- The way past a cell. -/
theorem leads_erase (hr : HalfRing m h xs gone late) (hc : c ∈ xs) (hp : p ∈ h :: xs)
    (hpc : nextOf m p = some c) (hcx : nextOf m c = some x)
    (hn : ∀ b, b ≠ p → nextOf m' b = nextOf m b) (hpx : nextOf m' p = some x) :
    Leads m' h (xs.erase c) h := by
  obtain ⟨as, bs, rfl⟩ := List.append_of_mem hc
  obtain rfl := hr.eq_last hp hpc
  obtain ⟨hleft, hright⟩ := Leads.append.1 hr.leads
  have hnd := hr.nodup
  rw [← List.cons_append] at hnd
  have hdisj := List.disjoint_of_nodup_append hnd
  have hleft' : Leads m' h as x := hleft.retarget (fun b _ hb => hn b hb) hpx hnd.of_append_left
  have hcas : c ∉ as := fun hcas => hdisj (List.mem_cons_of_mem h hcas) List.mem_cons_self
  rw [List.erase_append_right _ hcas, List.erase_cons_head]
  cases bs with
  | nil =>
    rw [Leads.nil.1 hright] at hcx
    cases hcx
    rwa [List.append_nil]
  | cons y ys =>
    obtain ⟨hcy, hys⟩ := Leads.cons.1 hright
    rw [hcy] at hcx
    cases hcx
    refine Leads.append.2 ⟨hleft', hys.congr fun b hb => hn b ?_⟩
    rintro rfl
    exact hdisj (last_mem h as) (List.mem_cons_of_mem c hb)

/-- Changes to other cells make no difference, if cells that are gone do not come to lead to another
one. -/
theorem frame (hr : HalfRing m h xs gone late) (hl : ∀ b ∈ h :: xs, link m' b = link m b)
    (hnext : ∀ p, gone p → ∀ b, nextOf m' p = some b → nextOf m p = some b)
    (hgone : ∀ p, gone p → gone' p) (hlate : ∀ a b, late a b → prevOf m b = some a ∨ late' a b) :
    HalfRing m' h xs gone' late' := by
  have hn : ∀ b ∈ h :: xs, nextOf m' b = nextOf m b := fun b hb => by rw [nextOf, nextOf, hl b hb]
  have hp : ∀ b ∈ h :: xs, prevOf m' b = prevOf m b := fun b hb => by rw [prevOf, prevOf, hl b hb]
  refine ⟨hr.nodup, hr.leads.congr hn, fun b hb => ?_, fun a ha b hab => ?_⟩
  · obtain ⟨p, hpb, hmem⟩ := hr.prev b hb
    refine ⟨p, (hp b hb).trans hpb, hmem.imp_right fun h => ⟨hgone p h.1, fun hpb => ?_⟩⟩
    exact h.2 (hnext p h.1 b hpb)
  · rw [hn a ha] at hab
    rw [hp b (hr.mem_of_nextOf ha hab)]
    exact (hr.back a ha b hab).elim .inl (hlate a b)

/-- A cell that is put behind the head; the cell behind has to hear of it. -/
theorem publish (hr : HalfRing m h xs gone late) (hnew : new ∉ h :: xs)
    (hnx : nextOf m new = some x) (hnp : prevOf m new = some h) (hcur : nextOf m h = some x)
    (hs : setNext m h new = some m') (hgone : ∀ p, gone p → gone' p)
    (hlate : ∀ a b, late a b → late' a b) (hlate' : late' new x) :
    HalfRing m' h (new :: xs) gone' late' := by
  obtain ⟨hn, hp, -⟩ := of_setNext hs
  have hnh : new ≠ h := fun e => hnew (e ▸ List.mem_cons_self)
  have hn' : ∀ b, b ≠ h → nextOf m' b = nextOf m b := fun b hb => by rw [hn, if_neg hb]
  have hxs : ∀ b ∈ xs, b ≠ h := fun b hb e => (List.nodup_cons.1 hr.nodup).1 (e ▸ hb)
  have hmem : ∀ b ∈ h :: xs, b ∈ h :: new :: xs := by
    intro b hb
    rcases List.mem_cons.1 hb with rfl | hb
    · exact List.mem_cons_self
    · exact List.mem_cons_of_mem h (List.mem_cons_of_mem new hb)
  refine ⟨?_, ?_, fun b hb => ?_, fun a ha b hab => ?_⟩
  · have := hr.nodup
    simp only [List.nodup_cons, List.mem_cons, not_or] at this hnew ⊢
    exact ⟨⟨Ne.symm hnew.1, this.1⟩, hnew.2, this.2⟩
  · refine Leads.cons.2 ⟨by rw [hn, if_pos rfl], ?_⟩
    exact hr.leads.start hcur (by rw [hn' new hnh, hnx]) fun b hb => hn' b (hxs b hb)
  · rcases eq_or_ne b new with rfl | hb
    · exact ⟨h, by rw [hp, hnp], .inl List.mem_cons_self⟩
    · obtain ⟨p, hpb, hor⟩ := hr.prev b (by simpa [hb] using ‹b ∈ h :: new :: xs›)
      by_cases hph : p ∈ h :: xs
      · exact ⟨p, by rw [hp, hpb], .inl (hmem p hph)⟩
      · obtain ⟨hg, hne⟩ := hor.resolve_left hph
        have hph' : p ≠ h := fun e => hph (e ▸ List.mem_cons_self)
        exact ⟨p, by rw [hp, hpb], .inr ⟨hgone p hg, by rwa [hn' p hph']⟩⟩
  · rw [hp]
    rw [hn] at hab
    split at hab
    · next e =>
      cases hab
      exact .inl (e ▸ hnp)
    · next hah =>
      rcases eq_or_ne a new with rfl | hanew
      · rw [hnx] at hab
        cases hab
        exact .inr hlate'
      · exact (hr.back a (by simpa [hanew] using ha) b hab).imp_right (hlate a b)

/-- A `prev` pointer is stored. -/
theorem lead_back (hr : HalfRing m h xs gone late) (hs : setPrev m x p = some m') (hp : p ∈ h :: xs)
    (hgone : ∀ p, gone p → gone' p) (hback : ∀ a ∈ h :: xs, nextOf m a = some x → p = a ∨ late' a x)
    (hlate : ∀ a b, b ≠ x → late a b → late' a b) : HalfRing m' h xs gone' late' := by
  obtain ⟨hn, hprev, -⟩ := of_setPrev hs
  refine ⟨hr.nodup, hr.leads.congr fun b _ => hn b, fun b hb => ?_, fun a ha b hab => ?_⟩
  · rw [hprev]
    split
    · exact ⟨p, rfl, .inl hp⟩
    · obtain ⟨q, hq, hor⟩ := hr.prev b hb
      exact ⟨q, hq, hor.imp_right fun h => ⟨hgone q h.1, by rw [hn]; exact h.2⟩⟩
  · rw [hn] at hab
    rw [hprev]
    split
    · next e =>
      subst e
      exact (hback a ha hab).imp_left (congrArg some)
    · next hb => exact (hr.back a ha b hab).imp_right (hlate a b hb)

/-- A cell is passed over, when the cell behind has heard of it. The cell keeps its `next`
pointer. -/
theorem unlink (hr : HalfRing m h xs gone late) (hc : c ∈ xs) (hpc : prevOf m c = some p)
    (hnp : nextOf m p = some c) (hnc : nextOf m c = some x) (hpx : prevOf m x = some p)
    (hs : setNext m p x = some m') (hgone : ∀ p, gone p → gone' p) (hgone' : gone' c)
    (hlate : ∀ a b, a ≠ c → late a b → late' a b) : HalfRing m' h (xs.erase c) gone' late' := by
  have hcmem := List.mem_cons_of_mem h hc
  have hpmem := hr.front hcmem hpc hnp
  obtain ⟨hn, hp, -⟩ := of_setNext hs
  obtain ⟨hh, hnd⟩ := List.nodup_cons.1 hr.nodup
  have hmem : ∀ b, b ∈ h :: xs.erase c ↔ b ∈ h :: xs ∧ b ≠ c := by
    intro b
    have hhc : h ≠ c := fun e => hh (e ▸ hc)
    rw [List.mem_cons, List.mem_cons, hnd.mem_erase_iff]
    grind
  have hpc' : p ≠ c := hr.front_ne hc hnp
  refine ⟨?_, ?_, fun b hb => ?_, fun a ha b hab => ?_⟩
  · exact List.nodup_cons.2 ⟨fun hm => hh (List.mem_of_mem_erase hm), hnd.erase c⟩
  · exact hr.leads_erase hc hpmem hnp hnc (fun b hb => by rw [hn, if_neg hb])
      (by rw [hn, if_pos rfl])
  · obtain ⟨hb, hbc⟩ := (hmem b).1 hb
    obtain ⟨q, hq, hor⟩ := hr.prev b hb
    rw [hp]
    refine ⟨q, hq, ?_⟩
    by_cases hqmem : q ∈ h :: xs
    · rcases eq_or_ne q c with rfl | hqc
      · refine .inr ⟨hgone', fun hqb => ?_⟩
        rw [hn, if_neg hpc'.symm, hnc] at hqb
        cases hqb
        exact hpc' (Option.some.inj (hpx.symm.trans hq))
      · exact .inl ((hmem q).2 ⟨hqmem, hqc⟩)
    · obtain ⟨hg, hne⟩ := hor.resolve_left hqmem
      have hqp : q ≠ p := fun e => hqmem (e ▸ hpmem)
      exact .inr ⟨hgone q hg, by rwa [hn, if_neg hqp]⟩
  · obtain ⟨ha, hac⟩ := (hmem a).1 ha
    rw [hp]
    rw [hn] at hab
    split at hab
    · next e =>
      cases hab
      exact .inl (e ▸ hpx)
    · exact (hr.back a ha b hab).imp_right (hlate a b hac)

/-- From the head, the `next` pointers lead to no other cells. -/
theorem mem_of_reaches (hr : HalfRing m h xs gone late)
    (ha : Relation.ReflTransGen (fun a b => nextOf m a = some b) h a) : a ∈ h :: xs := by
  induction ha with
  | refl => exact List.mem_cons_self
  | tail _ hab ih => exact hr.mem_of_nextOf ih hab

end HalfRing

end LinuxKernelProg.Lib
