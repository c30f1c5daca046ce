import Mathlib.Data.List.Nodup
import Mathlib.Data.List.Perm.Basic
import Mathlib.Logic.Function.Basic

/-!
# Records that readers may hold

Read-copy update: a record is freed when nobody can hold it any more. Each record that is allocated
has one owner, who is to free it, and the owner says which read-side sections may still hold the
record, by the time at which they began: for a published record all of them, for one that waits for
a grace period those that began before it. `Guarded` says that this is so, and the rules say how a
record goes from owner to owner: a record can be freed once its owner knows that no section holds
it.
-/

namespace LinuxKernelProg.Lib.Rcu

structure Owner where
  record : Nat
  /-- A section that began at this time may hold the record. -/
  may : Nat → Prop

/-- A read-side section that holds a record. -/
structure Hold (V : Type) where
  start : Nat
  record : Nat
  /-- What the section has read from the record, if it has. -/
  seen : Option V

variable {V : Type}

structure Guarded (heap : Nat → Option V) (next : Nat) (frees : List Nat) (owners : List Owner)
    (holds : List (Hold V)) : Prop where
  /-- A record has one owner, or has been freed once. -/
  nodup : (owners.map Owner.record ++ frees).Nodup
  lt_next : ∀ r ∈ owners.map Owner.record ++ frees, r < next
  live : ∀ o ∈ owners, (heap o.record).isSome
  held : ∀ h ∈ holds, ∃ o ∈ owners, o.record = h.record ∧ o.may h.start
  seen : ∀ h ∈ holds, ∀ v, h.seen = some v → heap h.record = some v

namespace Guarded

variable {heap : Nat → Option V} {next : Nat} {frees : List Nat} {owners os : List Owner}
  {holds holds' : List (Hold V)} {o o' : Owner} {h : Hold V}

theorem init (heap : Nat → Option V) (next : Nat) : Guarded heap next [] [] [] :=
  ⟨List.nodup_nil, nofun, nofun, nofun, nofun⟩

theorem perm (hg : Guarded heap next frees owners holds) (hp : owners.Perm os) :
    Guarded heap next frees os holds where
  nodup := (((hp.map _).append_right _).nodup_iff).1 hg.nodup
  lt_next := fun r hr => hg.lt_next r ((((hp.map _).append_right _).mem_iff).2 hr)
  live := fun o ho => hg.live o (hp.mem_iff.2 ho)
  held := by
    intro h hh
    obtain ⟨o, ho, hrecord⟩ := hg.held h hh
    exact ⟨o, hp.mem_iff.1 ho, hrecord⟩
  seen := hg.seen

/-- A record that a section holds is allocated. -/
theorem live_of_hold (hg : Guarded heap next frees owners holds) (hh : h ∈ holds) :
    (heap h.record).isSome := by
  obtain ⟨o, ho, hrecord, -⟩ := hg.held h hh
  exact hrecord ▸ hg.live o ho

/-- Sections end, begin without a record, get one that they may hold, or read it. -/
theorem sections (hg : Guarded heap next frees owners holds)
    (hsub : ∀ h ∈ holds', (∃ o ∈ owners, o.record = h.record ∧ o.may h.start) ∧
      ∀ v, h.seen = some v → heap h.record = some v) : Guarded heap next frees owners holds' :=
  ⟨hg.nodup, hg.lt_next, hg.live, fun h hh => (hsub h hh).1, fun h hh => (hsub h hh).2⟩

theorem alloc (hg : Guarded heap next frees owners holds) (v : V) :
    Guarded (Function.update heap next (some v)) (next + 1) frees (⟨next, fun _ => False⟩ :: owners)
      holds := by
  have hfresh : next ∉ owners.map Owner.record ++ frees := fun h => Nat.lt_irrefl _ (hg.lt_next _ h)
  have hold : ∀ o ∈ owners, o.record ≠ next := by
    rintro o ho rfl
    exact hfresh (List.mem_append_left _ (List.mem_map_of_mem ho))
  refine ⟨List.nodup_cons.2 ⟨hfresh, hg.nodup⟩, ?_, ?_, ?_, ?_⟩
  · intro r hr
    rcases List.mem_cons.1 hr with rfl | hr
    · exact Nat.lt_succ_self _
    · exact Nat.lt_succ_of_lt (hg.lt_next r hr)
  · intro o ho
    rcases List.mem_cons.1 ho with rfl | ho
    · rw [Function.update_self]
      rfl
    · rw [Function.update_of_ne (hold o ho)]
      exact hg.live o ho
  · intro h hh
    obtain ⟨o, ho, hrecord⟩ := hg.held h hh
    exact ⟨o, List.mem_cons_of_mem _ ho, hrecord⟩
  · intro h hh v' hv
    obtain ⟨o, ho, hrecord, -⟩ := hg.held h hh
    rw [Function.update_of_ne (hrecord ▸ hold o ho)]
    exact hg.seen h hh v' hv

/-- The first owner is the only one of its record. -/
theorem ne_record (hg : Guarded heap next frees (o :: os) holds) (ho : o' ∈ os) :
    o'.record ≠ o.record := by
  intro heq
  have hnot := (List.nodup_cons.1 hg.nodup).1
  exact hnot (List.mem_append_left _ (heq ▸ List.mem_map_of_mem ho))

/-- A section that holds the record of the first owner is one that it lets do so. -/
theorem may_of_hold (hg : Guarded heap next frees (o :: os) holds) (hh : h ∈ holds)
    (hrecord : h.record = o.record) : o.may h.start := by
  obtain ⟨o', ho, heq, hmay⟩ := hg.held h hh
  rcases List.mem_cons.1 ho with rfl | ho
  · exact hmay
  · exact absurd (heq.trans hrecord) (hg.ne_record ho)

/-- A record goes to an owner who lets the sections keep it that may hold it now. -/
theorem handOver (hg : Guarded heap next frees (o :: os) holds) (may : Nat → Prop)
    (hmay : ∀ h ∈ holds, o.may h.start → may h.start) :
    Guarded heap next frees (⟨o.record, may⟩ :: os) holds where
  nodup := hg.nodup
  lt_next := hg.lt_next
  live := by
    intro o' ho
    rcases List.mem_cons.1 ho with rfl | ho
    · exact hg.live o List.mem_cons_self
    · exact hg.live o' (List.mem_cons_of_mem _ ho)
  held := by
    intro h hh
    obtain ⟨o', ho, hrecord, hold⟩ := hg.held h hh
    rcases List.mem_cons.1 ho with rfl | ho
    · exact ⟨_, List.mem_cons_self, hrecord, hmay h hh hold⟩
    · exact ⟨o', List.mem_cons_of_mem _ ho, hrecord, hold⟩
  seen := hg.seen

/-- Nobody is left to free a record that no section holds. -/
theorem drop (hg : Guarded heap next frees (o :: os) holds) (hno : ∀ h ∈ holds, ¬ o.may h.start) :
    Guarded heap next frees os holds where
  nodup := (List.nodup_cons.1 hg.nodup).2
  lt_next := fun r hr => hg.lt_next r (List.mem_cons_of_mem _ hr)
  live := fun o' ho => hg.live o' (List.mem_cons_of_mem _ ho)
  held := by
    intro h hh
    obtain ⟨o', ho, hrecord, hmay⟩ := hg.held h hh
    rcases List.mem_cons.1 ho with rfl | ho
    · exact absurd hmay (hno h hh)
    · exact ⟨o', ho, hrecord, hmay⟩
  seen := hg.seen

/-- A record is freed that no section holds. -/
theorem free (hg : Guarded heap next frees (o :: os) holds) (hno : ∀ h ∈ holds, ¬ o.may h.start) :
    Guarded (Function.update heap o.record none) next (o.record :: frees) os holds := by
  have hp : (os.map Owner.record ++ o.record :: frees).Perm ((o :: os).map Owner.record ++ frees) :=
    List.perm_middle
  refine ⟨hp.nodup_iff.2 hg.nodup, fun r hr => hg.lt_next r (hp.mem_iff.1 hr), ?_,
    (hg.drop hno).held, ?_⟩
  · intro o' ho
    rw [Function.update_of_ne (hg.ne_record ho)]
    exact hg.live o' (List.mem_cons_of_mem _ ho)
  · intro h hh v hv
    have hne : h.record ≠ o.record := fun heq => hno h hh (hg.may_of_hold hh heq)
    rw [Function.update_of_ne hne]
    exact hg.seen h hh v hv

end Guarded

end LinuxKernelProg.Lib.Rcu
