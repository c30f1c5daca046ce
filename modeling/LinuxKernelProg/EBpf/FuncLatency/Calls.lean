import LinuxKernelProg.EBpf.FuncLatency.Basic

/-!
# The function latency profiler: count, total and histogram

Without recursion the measured calls are the completed ones, and all that goes wrong is the index
into the histogram, which is cut to 32 bits before it is compared with 63. With recursion the exit
of a call that has called itself is not measured: the inner exit has taken the start time out.
-/

namespace LinuxKernelProg.EBpf.FuncLatency

open LinuxKernelProg.Lib

variable {h past : List Event} {t ts start : BitVec 64}

/-! ## Start times and stacks -/

theorem thread_of_stack (hs : stack h t ≠ []) : t ∈ h.map Event.thread := by
  induction h with
  | nil => exact absurd rfl hs
  | cons e past ih =>
    rw [List.map_cons, List.mem_cons]
    by_cases he : e.thread = t
    · exact .inl he.symm
    · refine .inr (ih fun hn => hs ?_)
      cases e with
      | entry k s => exact (if_neg he).trans hn
      | exit k s => exact (if_neg he).trans hn

theorem mem_inside : t ∈ inside h ↔ stack h t ≠ [] := by
  simp only [inside, Finset.mem_filter, List.mem_toFinset]
  exact ⟨And.right, fun hs => ⟨thread_of_stack hs, hs⟩⟩

/-- The times on a stack are times of events. -/
theorem ts_of_stack (hs : start ∈ stack h t) : ∃ x ∈ h, x.ts = start := by
  induction h with
  | nil => cases hs
  | cons e past ih =>
    have hpast : start ∈ stack past t → ∃ x ∈ e :: past, x.ts = start := fun hs =>
      let ⟨x, hx, hxs⟩ := ih hs
      ⟨x, List.mem_cons_of_mem e hx, hxs⟩
    cases e with
    | entry k s =>
      simp only [stack] at hs
      split at hs
      · rcases List.mem_cons.1 hs with rfl | hs
        · exact ⟨_, List.mem_cons_self, rfl⟩
        · exact hpast hs
      · exact hpast hs
    | exit k s =>
      simp only [stack] at hs
      split at hs
      · exact hpast (List.mem_of_mem_tail hs)
      · exact hpast hs

/-- What the map holds for a thread is the entry of its innermost call. -/
theorem stack_of_slot (hs : watch.slot h t = some start) : ∃ rest, stack h t = start :: rest := by
  induction h with
  | nil => cases hs
  | cons e past ih =>
    cases e with
    | entry k s =>
      rw [slot_entry] at hs
      rw [stack]
      by_cases hk : k = t
      · rw [if_pos hk, Option.some.injEq] at hs
        rw [if_pos hk, hs]
        exact ⟨_, rfl⟩
      · rw [if_neg hk] at hs ⊢
        exact ih hs
    | exit k s =>
      rw [slot_exit] at hs
      rw [stack]
      by_cases hk : k = t
      · rw [if_pos hk] at hs
        cases hs
      · rw [if_neg hk] at hs ⊢
        exact ih hs

theorem slot_of_stack (hs : stack h t = []) : watch.slot h t = none := by
  cases hw : watch.slot h t with
  | none => rfl
  | some start =>
    obtain ⟨rest, hr⟩ := stack_of_slot hw
    rw [hs] at hr
    cases hr

theorem completed_exit_nil (hs : stack past t = []) :
    completed (.exit t ts :: past) = completed past := by
  simp only [completed, calls, hs, List.head?_nil]

theorem completed_exit_cons {rest : List (BitVec 64)} (hs : stack past t = start :: rest) :
    completed (.exit t ts :: past) = ⟨start, ts⟩ :: completed past := by
  simp only [completed, calls, hs, List.head?_cons]

/-! ## Recursion -/

/-- Count and total are those of the completed calls. -/
def Counted (h : List Event) : Prop :=
  (after h).stats 0 = BitVec.ofNat 64 (completed h).length ∧
    (after h).stats 1 = ((completed h).map Call.duration).sum

/-- A call ends without another one inside it: the latest event of the thread is its entry. -/
def Innermost (past : List Event) : Event → Prop
  | .entry _ _ => True
  | .exit t _ => stack past t ≠ [] → watch.slot past t ≠ none

theorem ofNat_succ (n : Nat) : BitVec.ofNat 64 (n + 1) = BitVec.ofNat 64 n + 1 :=
  BitVec.ofNat_add n 1

theorem ofNat_succ_ne (n : Nat) : BitVec.ofNat 64 n ≠ BitVec.ofNat 64 (n + 1) := by
  intro h
  have := congrArg BitVec.toNat h
  simp only [BitVec.toNat_ofNat] at this
  omega

/-- One event. -/
theorem counted_cons {e : Event} (hroom : Each Room past) (hc : Counted past) :
    Counted (e :: past) ↔ Innermost past e := by
  cases e with
  | entry t ts => exact iff_of_true hc trivial
  | exit t ts =>
    rw [Innermost]
    cases hw : watch.slot past t with
    | none =>
      rw [Counted, after_exit_none hroom hw]
      cases hs : stack past t with
      | nil =>
        rw [completed_exit_nil hs]
        exact iff_of_true hc fun hn => absurd rfl hn
      | cons start rest =>
        -- the outer call of a recursion
        rw [completed_exit_cons hs, hc.1]
        exact iff_of_false (fun h => ofNat_succ_ne _ h.1) fun hi => hi (List.cons_ne_nil _ _) rfl
    | some start =>
      obtain ⟨rest, hs⟩ := stack_of_slot hw
      refine iff_of_true ?_ fun _ => Option.some_ne_none start
      rw [Counted, after_exit_some hroom hw, completed_exit_cons hs]
      constructor
      · simp only [Maps.record_count, hc.1, List.length_cons, ofNat_succ]
      · simp only [Maps.record_total, hc.2, List.map_cons, List.sum_cons, Call.duration]
        rw [BitVec.add_comm]

instance (past : List Event) : ∀ e, Decidable (Innermost past e)
  | .entry _ _ => inferInstanceAs (Decidable True)
  | .exit t _ => inferInstanceAs (Decidable (stack past t ≠ [] → watch.slot past t ≠ none))

/-- **Recursive functions.** Count and total are right at every point of a trace exactly when no
call that has completed had another one inside it. -/
theorem counted_iff (hroom : Each Room h) : Always Counted h ↔ Each Innermost h :=
  always_iff_each ⟨rfl, rfl⟩ (fun hr hc => counted_cons hr.2 hc) hroom

theorem counted_of_two_threads :
    let h : List Event := [.exit 1 40, .exit 2 35, .entry 2 30, .exit 2 20,
      .entry 2 15, .entry 1 10]
    Each Room h ∧ Always Counted h :=
  ⟨by decide, (counted_iff (by decide)).2 (by decide)⟩

/-- The thread enters the function at 1 and at 2 and leaves it at 3 and at 4; only the inner call is
counted. -/
theorem outer_call_dropped :
    ¬ ∀ h, Each Nested h → Each Room h → Counted h := by
  intro h
  have hcounted := h [.exit 1 4, .exit 1 3, .entry 1 2, .entry 1 1] (by decide) (by decide)
  exact absurd hcounted.1 (by decide)

/-! ## Calls without recursion -/

theorem stack_eq_slot (hout : Each Outside h) (t : BitVec 64) :
    stack h t = (watch.slot h t).toList := by
  induction h with
  | nil => rfl
  | cons e past ih =>
    have ih := ih hout.2
    cases e with
    | entry k s =>
      rw [slot_entry, stack]
      by_cases hk : k = t
      · have hempty : stack past k = [] := hout.1
        rw [if_pos hk, if_pos hk, ← hk, hempty]
        rfl
      · rw [if_neg hk, if_neg hk, ih]
    | exit k s =>
      rw [slot_exit, stack, ih]
      by_cases hk : k = t
      · rw [if_pos hk, if_pos hk]
        cases watch.slot past t <;> rfl
      · rw [if_neg hk, if_neg hk]

/-- The threads that are inside have room in the map. -/
theorem room_of_flat (hf : Each Flat h) : Each Room h := by
  refine Each.imp (C := Flat) (fun {past e} hroom hpast hflat => ?_) hf
  cases e with
  | exit t ts => trivial
  | entry t ts =>
    apply BoundedMap.hasRoom_of_card hflat.few
    · intro k hk
      have hpast : stack past k ≠ [] := by
        intro hn
        have hslot := slot_of_stack hn
        rw [← lookup_after hroom, BoundedMap.lookup_eq_none_iff] at hslot
        exact hslot hk
      rw [mem_inside, stack]
      split
      · exact List.cons_ne_nil _ _
      · exact hpast
    · rw [mem_inside, stack, if_pos rfl]
      exact List.cons_ne_nil _ _

/-- The index is right for a duration that is short enough, or that is still 63 or more after the
cut to 32 bits. -/
def Call.Short (c : Call) : Prop := c.ns / 10000 < 2 ^ 32 ∨ 63 ≤ c.ns / 10000 % 2 ^ 32

theorem bucket_toNat (d : BitVec 64) : (bucket d).toNat = min (d.toNat / 10000 % 2 ^ 32) 63 := by
  have hq : ((d / 1000 / 10).setWidth 32).toNat = d.toNat / 10000 % 2 ^ 32 := by
    rw [BitVec.toNat_setWidth, BitVec.toNat_udiv, BitVec.toNat_udiv, Nat.div_div_eq_div_mul]
    rfl
  unfold bucket
  simp only
  split
  · rename_i hle
    have hle : 64 ≤ ((d / 1000 / 10).setWidth 32).toNat := hle
    rw [hq] at hle
    change 63 = _
    omega
  · rename_i hlt
    have hlt : ¬ 64 ≤ ((d / 1000 / 10).setWidth 32).toNat := hlt
    rw [hq] at hlt ⊢
    omega

theorem Call.short_iff (c : Call) :
    c.Short ↔ min (c.ns / 10000 % 2 ^ 32) 63 = min (c.ns / 10000) 63 := by
  unfold Call.Short
  omega

instance (c : Call) : Decidable c.Short :=
  inferInstanceAs (Decidable (c.ns / 10000 < 2 ^ 32 ∨ 63 ≤ c.ns / 10000 % 2 ^ 32))

/-- Count, total and histogram are those of the completed calls. -/
structure Profiled (h : List Event) : Prop where
  count : (after h).stats 0 = BitVec.ofNat 64 (completed h).length
  total : (after h).stats 1 = BitVec.ofNat 64 ((completed h).map Call.ns).sum
  hist : ∀ b : Fin 64, (after h).latency_hist b =
    BitVec.ofNat 64 ((completed h).countP fun c => min (c.ns / 10000) 63 = b.val)

theorem Call.duration_toNat {c : Call} (hle : c.start ≤ c.stop) : c.duration.toNat = c.ns := by
  rw [BitVec.le_def] at hle
  have := c.stop.isLt
  simp only [Call.duration, Call.ns, BitVec.toNat_sub]
  omega

/-- The call that the event ends is short. -/
def ShortExit (past : List Event) : Event → Prop
  | .entry _ _ => True
  | .exit t ts => ∀ start ∈ (stack past t).head?, (⟨start, ts⟩ : Call).Short

theorem each_shortExit : Each ShortExit h ↔ ∀ c ∈ completed h, c.Short := by
  induction h with
  | nil => simp [Each, completed, calls]
  | cons e past ih =>
    rw [Each, ih]
    cases e with
    | entry t ts => exact and_iff_right trivial
    | exit t ts =>
      rw [ShortExit]
      cases hs : stack past t with
      | nil =>
        rw [completed_exit_nil hs]
        exact and_iff_right (by simp)
      | cons start rest =>
        rw [completed_exit_cons hs, List.forall_mem_cons]
        simp

/-- The exit of a call that is measured. -/
theorem profiled_exit {c : Call} {rest : List (BitVec 64)} (hroom : Each Room past)
    (hp : Profiled past) (hw : watch.slot past t = some c.start)
    (hs : stack past t = c.start :: rest) (hle : c.start ≤ c.stop) :
    Profiled (.exit t c.stop :: past) ↔ c.Short := by
  have hd : c.duration.toNat = c.ns := Call.duration_toNat hle
  have hb : (bucket c.duration).toNat = min (c.ns / 10000 % 2 ^ 32) 63 := by
    rw [bucket_toNat, hd]
  have hafter := after_exit_some hroom hw c.stop
  have hcomp : completed (.exit t c.stop :: past) = c :: completed past := completed_exit_cons hs
  have hhist : ∀ b : Fin 64, (after (.exit t c.stop :: past)).latency_hist b =
      if b.val = (bucket c.duration).toNat then (after past).latency_hist b + 1
      else (after past).latency_hist b := by
    rw [hafter]
    exact Maps.record_hist _ _
  rw [Call.short_iff, ← hb]
  constructor
  · intro hP
    by_contra hne
    -- the bucket that the call is counted in has one too many
    have hP := hP.hist ⟨(bucket c.duration).toNat, by omega⟩
    rw [hhist, if_pos rfl, hp.hist, hcomp, List.countP_cons_of_neg (by
      rw [decide_eq_true_eq]
      exact Ne.symm hne), ← ofNat_succ] at hP
    exact ofNat_succ_ne _ hP.symm
  · intro hshort
    refine ⟨?_, ?_, fun b => ?_⟩
    · rw [hafter, hcomp, List.length_cons, ofNat_succ, ← hp.count]
      rfl
    · rw [hafter, hcomp, List.map_cons, List.sum_cons, BitVec.ofNat_add, ← hp.total, ← hd,
        BitVec.ofNat_toNat, BitVec.setWidth_eq, BitVec.add_comm]
      rfl
    · rw [hhist, hcomp, List.countP_cons, hp.hist, ← hshort]
      by_cases he : b.val = (bucket c.duration).toNat
      · rw [if_pos he, if_pos (decide_eq_true he.symm), ofNat_succ]
      · rw [if_neg he, if_neg (by simpa using Ne.symm he), Nat.add_zero]

/-- One event. -/
theorem profiled_cons {e : Event} (hflat : Each Flat past) (hclock : Clock past e)
    (hp : Profiled past) : Profiled (e :: past) ↔ ShortExit past e := by
  have hroom := room_of_flat hflat
  cases e with
  | entry t ts => exact iff_of_true ⟨hp.count, hp.total, hp.hist⟩ trivial
  | exit t ts =>
    have hstack := stack_eq_slot (Each.imp (fun _ _ hf => hf.outside) hflat) t
    rw [ShortExit]
    cases hw : watch.slot past t with
    | none =>
      rw [hw, Option.toList_none] at hstack
      have hafter := after_exit_none hroom hw ts
      have hcomp : completed (.exit t ts :: past) = completed past := completed_exit_nil hstack
      refine iff_of_true ?_ (by simp [hstack])
      exact ⟨by rw [hafter, hcomp, hp.count], by rw [hafter, hcomp, hp.total],
        fun b => by rw [hafter, hcomp, hp.hist]⟩
    | some start =>
      rw [hw, Option.toList_some] at hstack
      have hle : start ≤ ts := by
        have hmem : start ∈ stack past t := by simp [hstack]
        obtain ⟨x, hx, rfl⟩ := ts_of_stack hmem
        exact hclock x hx
      rw [profiled_exit (c := ⟨start, ts⟩) hroom hp hw hstack hle]
      simp [hstack]

/-- **Calls without recursion.** Count, total and histogram are right at every point of a trace
exactly when the completed calls are short. -/
theorem profiled_iff (hflat : Each Flat h) (hclock : Each Clock h) :
    Always Profiled h ↔ ∀ c ∈ completed h, c.Short := by
  rw [← each_shortExit]
  apply always_iff_each ⟨rfl, rfl, fun _ => rfl⟩ _ (hflat.and hclock)
  intro past e hA hp
  exact profiled_cons (Each.imp (fun _ _ h => h.1) hA.2) hA.1.2 hp

theorem profiled_of_two_threads :
    let h : List Event := [.exit 1 40000, .exit 2 35000, .entry 2 15000, .entry 1 10000]
    Each Flat h ∧ Each Clock h ∧ Always Profiled h :=
  ⟨by decide, by decide, (profiled_iff (by decide) (by decide)).2 (by decide)⟩

/-- A call of 2 ^ 32 buckets is counted in bucket 0. -/
theorem bucket_cut : ¬ ∀ h, Each Flat h → Each Clock h → Profiled h := by
  intro h
  have hprof := h [.exit 1 42949672960000, .entry 1 0] (by decide) (by decide)
  exact absurd (hprof.hist 63) (by decide)

end LinuxKernelProg.EBpf.FuncLatency
