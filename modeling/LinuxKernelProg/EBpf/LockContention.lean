import Mathlib.Algebra.Order.BigOperators.Group.Finset
import Mathlib.Algebra.Order.Group.Nat
import Mathlib.Data.BitVec
import LinuxKernelProg.Lib.ArrayMap
import LinuxKernelProg.Lib.Stopwatch

/-!
# The lock contention analyzer

`lock_contention.c`: a kprobe on `mutex_lock` and one on `mutex_unlock`. The start times are kept in
a hash map with one element for each thread, whatever the mutex, so an unlock is timed from the
thread's latest lock, and only if nothing was unlocked since then. The counters agree with one
another over every sequence of events (`consistent`).
-/

namespace LinuxKernelProg.EBpf.LockContention

open LinuxKernelProg.Lib

/-! ## The program -/

def MAX_ENTRIES : Nat := 10240

/-- A probe that fires, with `bpf_get_current_pid_tgid()`, the argument of the probed function and
`bpf_ktime_get_ns()`. The handlers do not read the argument. -/
inductive Event where
  | lock (pid_tgid mutex ts : BitVec 64)
  | unlock (pid_tgid mutex ts : BitVec 64)

structure Maps where
  lock_start : BoundedMap (BitVec 64) (BitVec 64) MAX_ENTRIES
  hold_time_hist : ArrayMap (BitVec 64) 32
  lock_stats : ArrayMap (BitVec 64) 4

def Maps.init : Maps := ⟨.empty, fun _ => 0, fun _ => 0⟩

def trace_mutex_lock_entry (pid_tgid ts : BitVec 64) (m : Maps) : Maps :=
  { m with
    lock_start := m.lock_start.put pid_tgid ts
    lock_stats := m.lock_stats.modify 0 (· + 1) }

/-- The index into `hold_time_hist`, a `u32`. -/
def bucket (delta_ns : BitVec 64) : BitVec 32 :=
  let delta_us := delta_ns / 1000
  if delta_us < 1 then 0
  else if delta_us < 10 then 1
  else if delta_us < 100 then 2
  else if delta_us < 1000 then 3
  else if delta_us < 10000 then 4
  else 5

def trace_mutex_unlock (pid_tgid now : BitVec 64) (m : Maps) : Maps :=
  match m.lock_start.lookup pid_tgid with
  | none => m
  | some start_ts =>
    { lock_start := m.lock_start.delete pid_tgid
      hold_time_hist := m.hold_time_hist.modify (bucket (now - start_ts)).toNat (· + 1)
      lock_stats := m.lock_stats.modify 1 (· + 1) }

def handle : Event → Maps → Maps
  | .lock pid_tgid _ ts => trace_mutex_lock_entry pid_tgid ts
  | .unlock pid_tgid _ ts => trace_mutex_unlock pid_tgid ts

/-- The maps after a history, the latest event first. -/
def after (h : List Event) : Maps := h.foldr handle .init

variable {h past : List Event} {t m ts start : BitVec 64}

theorem bucket_lt (d : BitVec 64) : (bucket d).toNat < 6 := by
  unfold bucket
  simp only
  repeat' split
  all_goals decide

theorem after_unlock_none (hs : (after past).lock_start.lookup t = none) :
    after (.unlock t m ts :: past) = after past := by
  change trace_mutex_unlock t ts (after past) = after past
  simp only [trace_mutex_unlock, hs]

theorem after_unlock_some (hs : (after past).lock_start.lookup t = some start) :
    after (.unlock t m ts :: past) =
      { lock_start := (after past).lock_start.delete t
        hold_time_hist := (after past).hold_time_hist.modify (bucket (ts - start)).toNat (· + 1)
        lock_stats := (after past).lock_stats.modify 1 (· + 1) } := by
  change trace_mutex_unlock t ts (after past) = _
  simp only [trace_mutex_unlock, hs]

/-- Induction over a history, where an unlock finds a start time or does not. -/
@[elab_as_elim]
theorem history_induction {P : List Event → Prop} (h : List Event) (nil : P [])
    (lock : ∀ t m ts past, P past → P (.lock t m ts :: past))
    (untimed : ∀ t m ts past, (after past).lock_start.lookup t = none → P past →
      P (.unlock t m ts :: past))
    (timed : ∀ t m ts past start, (after past).lock_start.lookup t = some start → P past →
      P (.unlock t m ts :: past)) : P h := by
  induction h with
  | nil => exact nil
  | cons e past ih =>
    cases e with
    | lock t m ts => exact lock t m ts past ih
    | unlock t m ts =>
      cases hs : (after past).lock_start.lookup t with
      | none => exact untimed t m ts past hs ih
      | some start => exact timed t m ts past start hs ih

/-! ## Start times -/

def Event.thread : Event → BitVec 64
  | .lock t _ _ => t
  | .unlock t _ _ => t

def Event.mutex : Event → BitVec 64
  | .lock _ m _ => m
  | .unlock _ m _ => m

def Event.start? : Event → Option (BitVec 64)
  | .lock _ _ ts => some ts
  | .unlock _ _ _ => none

/-- What the map keeps: the time of a thread's latest event, if it is a lock. -/
def watch : Stopwatch Event (BitVec 64) (BitVec 64) := ⟨Event.thread, Event.start?⟩

/-- What a hold time is: the time since the lock by that thread of that mutex. -/
def held : Stopwatch Event (BitVec 64 × BitVec 64) (BitVec 64) :=
  ⟨fun e => (e.thread, e.mutex), Event.start?⟩

/-- A lock finds room in the map. -/
def Room (past : List Event) : Event → Prop
  | .lock t _ _ => (after past).lock_start.HasRoom t
  | .unlock _ _ _ => True

/-- The unlock of a mutex whose lock was traced adds one sample, in the bucket of the time since
that lock. -/
def Sampled (past : List Event) : Event → Prop
  | .lock _ _ _ => True
  | .unlock t m ts => ∀ start ∈ held.slot past (t, m),
    (after (.unlock t m ts :: past)).hold_time_hist =
      (after past).hold_time_hist.modify (bucket (ts - start)).toNat (· + 1)

/-- The latest event of the thread is a lock, and the time since then is in the same bucket. -/
def SameBucket (past : List Event) : Event → Prop
  | .lock _ _ _ => True
  | .unlock t m ts => ∀ start ∈ held.slot past (t, m),
    ∃ latest ∈ watch.slot past t, bucket (ts - latest) = bucket (ts - start)

instance (past : List Event) : ∀ e, Decidable (Room past e)
  | .lock t _ _ => inferInstanceAs (Decidable ((after past).lock_start.HasRoom t))
  | .unlock _ _ _ => inferInstanceAs (Decidable True)

instance (past : List Event) : ∀ e, Decidable (SameBucket past e)
  | .lock _ _ _ => inferInstanceAs (Decidable True)
  | .unlock t m ts =>
    have (start : BitVec 64) :
        Decidable (∃ latest ∈ watch.slot past t, bucket (ts - latest) = bucket (ts - start)) :=
      Option.decidableExistsMem _
    Option.decidableForallMem (held.slot past (t, m))

theorem lock_start_cons (e : Event) (past : List Event) :
    (after (e :: past)).lock_start = watch.press e (after past).lock_start := by
  cases e with
  | lock t m ts => rfl
  | unlock t m ts =>
    change (trace_mutex_unlock t ts (after past)).lock_start = (after past).lock_start.delete t
    unfold trace_mutex_unlock
    split
    · rename_i hn
      exact (BoundedMap.delete_absent (BoundedMap.lookup_eq_none_iff.1 hn)).symm
    · rfl

theorem lookup_after (hroom : Each Room h) (t : BitVec 64) :
    (after h).lock_start.lookup t = watch.slot h t := by
  apply watch.lookup_eq_slot (m := fun h => (after h).lock_start) rfl lock_start_cons
  apply Each.imp (C := Room) _ hroom
  intro past e _ _ hr hs
  cases e with
  | lock t m ts => exact hr
  | unlock t m ts => exact absurd rfl hs

/-- Different buckets, different histograms. -/
theorem modify_bucket_inj {a : ArrayMap (BitVec 64) 32} {d d' : BitVec 64} :
    a.modify (bucket d).toNat (· + 1) = a.modify (bucket d').toNat (· + 1) ↔
      bucket d = bucket d' := by
  constructor
  · intro he
    have hlt := bucket_lt d
    have hat := congrFun he ⟨(bucket d).toNat, by omega⟩
    rw [ArrayMap.modify_apply, ArrayMap.modify_apply, if_pos rfl] at hat
    by_contra hne
    have hne : (bucket d).toNat ≠ (bucket d').toNat := fun h => hne (BitVec.eq_of_toNat_eq h)
    rw [if_neg hne] at hat
    exact absurd hat (by simp)
  · intro he
    rw [he]

theorem modify_bucket_ne (a : ArrayMap (BitVec 64) 32) (d : BitVec 64) :
    a ≠ a.modify (bucket d).toNat (· + 1) := by
  intro he
  have hlt := bucket_lt d
  have hat := congrFun he ⟨(bucket d).toNat, by omega⟩
  rw [ArrayMap.modify_apply, if_pos rfl] at hat
  exact absurd hat.symm (by simp)

/-- One event. -/
theorem sampled_iff_sameBucket {e : Event} (hroom : Each Room past) :
    Sampled past e ↔ SameBucket past e := by
  cases e with
  | lock t m ts => rfl
  | unlock t m ts =>
    refine forall₂_congr fun start _ => ?_
    have hlookup := lookup_after hroom t
    cases hw : watch.slot past t with
    | none =>
      rw [hw] at hlookup
      rw [after_unlock_none hlookup]
      refine iff_of_false (modify_bucket_ne _ _) ?_
      rintro ⟨latest, hl, -⟩
      cases hl
    | some latest =>
      rw [hw] at hlookup
      rw [after_unlock_some hlookup, modify_bucket_inj]
      simp

/-- **Hold times.** Every unlock of a mutex whose lock was traced adds its sample exactly when, at
each of them, the thread's latest event is a lock and the time since then is in the same bucket. -/
theorem each_sampled_iff (hroom : Each Room h) : Each Sampled h ↔ Each SameBucket h :=
  Each.congr (fun hroom => sampled_iff_sameBucket hroom) hroom

/-- Two threads that take the next mutex before they release the last one. The second thread gets
mutex 7 from the first one. -/
theorem sampled_of_two_threads :
    let h : List Event := [.unlock 1 8 110000, .unlock 2 5 102000, .lock 1 9 95000,
      .lock 2 7 91000, .unlock 1 7 90000, .lock 2 5 25000, .lock 1 8 20000, .lock 1 7 10000]
    Each Room h ∧ Each Sampled h :=
  ⟨by decide, (each_sampled_iff (by decide)).2 (by decide)⟩

/-- The thread locks the mutexes 7 and 8 and unlocks 8 and 7; the unlock of 7 adds no sample. -/
theorem outer_unlock_dropped : ¬ ∀ h, Each Room h → Each Sampled h := by
  intro h
  have hsampled := (h [.unlock 1 7 40000, .unlock 1 8 30000, .lock 1 8 20000, .lock 1 7 10000]
    (by decide)).1 10000 (by decide)
  exact absurd (congrFun hsampled 2) (by decide)

/-! ## The counters -/

/-- The lock events. -/
def locks : List Event → Nat
  | [] => 0
  | .lock _ _ _ :: past => locks past + 1
  | .unlock _ _ _ :: past => locks past

/-- The unlocks that find a start time. -/
def samples : List Event → Nat
  | [] => 0
  | .lock _ _ _ :: past => samples past
  | .unlock t _ _ :: past =>
    match (after past).lock_start.lookup t with
    | none => samples past
    | some _ => samples past + 1

theorem samples_untimed (hs : (after past).lock_start.lookup t = none) :
    samples (.unlock t m ts :: past) = samples past := by
  simp only [samples, hs]

theorem samples_timed (hs : (after past).lock_start.lookup t = some start) :
    samples (.unlock t m ts :: past) = samples past + 1 := by
  simp only [samples, hs]

theorem stats_locks (h : List Event) : (after h).lock_stats 0 = BitVec.ofNat 64 (locks h) := by
  induction h using history_induction with
  | nil => rfl
  | lock t m ts past ih =>
    rw [locks, BitVec.ofNat_add, ← ih]
    rfl
  | untimed t m ts past hs ih =>
    rw [after_unlock_none hs]
    exact ih
  | timed t m ts past start hs ih =>
    rw [after_unlock_some hs]
    exact ih

theorem stats_samples (h : List Event) : (after h).lock_stats 1 = BitVec.ofNat 64 (samples h) := by
  induction h using history_induction with
  | nil => rfl
  | lock t m ts past ih => exact ih
  | untimed t m ts past hs ih => rw [after_unlock_none hs, ih, samples_untimed hs]
  | timed t m ts past start hs ih =>
    rw [after_unlock_some hs, samples_timed hs, BitVec.ofNat_add, ← ih]
    rfl

/-- An unlock that is counted takes an entry out, and a lock puts at most one in. -/
theorem samples_add_entries_le (h : List Event) :
    samples h + (after h).lock_start.entries.length ≤ locks h := by
  induction h using history_induction with
  | nil => exact Nat.le_refl 0
  | lock t m ts past ih =>
    have hput : (after (.lock t m ts :: past)).lock_start.entries.length ≤
        (after past).lock_start.entries.length + 1 := BoundedMap.length_put_le
    rw [samples, locks]
    omega
  | untimed t m ts past hs ih =>
    rw [after_unlock_none hs, samples_untimed hs]
    exact ih
  | timed t m ts past start hs ih =>
    have hk : t ∈ (after past).lock_start.keys := by
      by_contra hk
      rw [BoundedMap.lookup_eq_none_iff.2 hk] at hs
      cases hs
    have hdel := BoundedMap.length_delete hk
    rw [after_unlock_some hs, samples_timed hs, locks]
    simp only
    omega

theorem hist_sum (h : List Event) :
    ∑ b, (after h).hold_time_hist b = BitVec.ofNat 64 (samples h) := by
  induction h using history_induction with
  | nil => exact Finset.sum_const_zero
  | lock t m ts past ih => exact ih
  | untimed t m ts past hs ih => rw [after_unlock_none hs, ih, samples_untimed hs]
  | timed t m ts past start hs ih =>
    have hi : (bucket (ts - start)).toNat < 32 := Nat.lt_trans (bucket_lt _) (by omega)
    rw [after_unlock_some hs, samples_timed hs, BitVec.ofNat_add, ← ih]
    exact ArrayMap.sum_modify (g := fun v => v) (c := 1) (after past).hold_time_hist hi rfl

/-- No bucket has wrapped, as long as the samples fit into 64 bits. -/
theorem hist_sum_toNat (hlt : samples h < 2 ^ 64) :
    ∑ b, ((after h).hold_time_hist b).toNat = samples h := by
  induction h using history_induction with
  | nil => exact Finset.sum_const_zero
  | lock t m ts past ih => exact ih hlt
  | untimed t m ts past hs ih =>
    rw [samples_untimed hs] at hlt ⊢
    rw [after_unlock_none hs]
    exact ih hlt
  | timed t m ts past start hs ih =>
    rw [samples_timed hs] at hlt ⊢
    have ih := ih (by omega)
    have hi : (bucket (ts - start)).toNat < 32 := Nat.lt_trans (bucket_lt _) (by omega)
    have hle : ((after past).hold_time_hist ⟨_, hi⟩).toNat ≤ samples past := by
      rw [← ih]
      exact Finset.single_le_sum_of_canonicallyOrdered
        (f := fun b => ((after past).hold_time_hist b).toNat) (Finset.mem_univ _)
    rw [after_unlock_some hs, ← ih]
    apply ArrayMap.sum_modify (g := BitVec.toNat) _ hi
    rw [BitVec.toNat_add]
    exact Nat.mod_eq_of_lt (Nat.lt_of_le_of_lt (Nat.succ_le_succ hle) hlt)

theorem hist_high (h : List Event) (b : Fin 32) (hb : 6 ≤ b.val) :
    (after h).hold_time_hist b = 0 := by
  induction h using history_induction with
  | nil => rfl
  | lock t m ts past ih => exact ih
  | untimed t m ts past hs ih =>
    rw [after_unlock_none hs]
    exact ih
  | timed t m ts past start hs ih =>
    have hlt := bucket_lt (ts - start)
    rw [after_unlock_some hs]
    simp only
    rw [ArrayMap.modify_apply, if_neg (by omega)]
    exact ih

/-- How the three maps agree. -/
structure Consistent (h : List Event) : Prop where
  hist : ∑ b, (after h).hold_time_hist b = (after h).lock_stats 1
  high : ∀ b : Fin 32, 6 ≤ b.val → (after h).hold_time_hist b = 0
  untimed : ∀ t m ts, t ∉ (after h).lock_start.keys → after (.unlock t m ts :: h) = after h
  unwrapped : locks h < 2 ^ 64 →
    ∑ b, ((after h).hold_time_hist b).toNat = ((after h).lock_stats 1).toNat ∧
      ((after h).lock_stats 1).toNat + (after h).lock_start.entries.length ≤
        ((after h).lock_stats 0).toNat

/-- **Every sequence of events.** The samples in the histogram are the unlocks counted, all of them
in the first six buckets, and there are no more of them and of entries than locks, as long as the
locks fit into 64 bits. -/
theorem consistent (h : List Event) : Consistent h where
  hist := by rw [hist_sum, stats_samples]
  high := hist_high h
  untimed := fun _ _ _ hk => after_unlock_none (BoundedMap.lookup_eq_none_iff.2 hk)
  unwrapped := by
    intro hlt
    have hle := samples_add_entries_le h
    have hs : ((after h).lock_stats 1).toNat = samples h := by
      rw [stats_samples, BitVec.toNat_ofNat]
      exact Nat.mod_eq_of_lt (by omega)
    have hl : ((after h).lock_stats 0).toNat = locks h := by
      rw [stats_locks, BitVec.toNat_ofNat]
      exact Nat.mod_eq_of_lt hlt
    rw [hs, hl]
    exact ⟨hist_sum_toNat (by omega), hle⟩

theorem locks_replicate (n : Nat) : locks (List.replicate n (.lock t m ts)) = n := by
  induction n with
  | zero => rfl
  | succ n ih => rw [List.replicate_succ, locks, ih]

theorem keys_replicate (n : Nat) :
    (after (List.replicate (n + 1) (.lock t m ts))).lock_start.keys = [t] := by
  induction n with
  | zero => rfl
  | succ n ih =>
    rw [List.replicate_succ]
    change ((after (List.replicate (n + 1) (.lock t m ts))).lock_start.put t ts).keys = [t]
    have hk : t ∈ (after (List.replicate (n + 1) (.lock t m ts))).lock_start.keys := by
      rw [ih]
      exact List.mem_singleton_self t
    rw [BoundedMap.keys_put (.inl hk), if_pos hk, ih]

/-- After 2 ^ 64 locks of one thread the lock count is 0, with one entry in the map. -/
theorem lock_count_wraps : ¬ ∀ h, ((after h).lock_stats 1).toNat +
    (after h).lock_start.entries.length ≤ ((after h).lock_stats 0).toNat := by
  intro h
  obtain ⟨n, hn⟩ : ∃ n, n + 1 = 2 ^ 64 := ⟨2 ^ 64 - 1, rfl⟩
  have hle := h (List.replicate (n + 1) (.lock 0 0 0))
  rw [stats_locks, locks_replicate, ← BoundedMap.length_keys, keys_replicate, hn,
    BitVec.toNat_ofNat, Nat.mod_self, List.length_singleton] at hle
  omega

end LinuxKernelProg.EBpf.LockContention
