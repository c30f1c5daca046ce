import Mathlib.Data.BitVec
import Mathlib.Data.Finset.Card
import Mathlib.Data.Finset.Dedup
import LinuxKernelProg.Lib.ArrayMap
import LinuxKernelProg.Lib.Stopwatch

/-!
# The function latency profiler

`func_latency.c`: a kprobe at the entry of a kernel function and a kretprobe at its exit. The start
times are kept in a hash map with one element for each thread, so an exit is measured exactly when
the thread's latest event is an entry (`after_eq`). What a trace really consists of is said by a
stack of open entries for each thread (`completed`). A trace is a history, the latest event first.
-/

namespace LinuxKernelProg.EBpf.FuncLatency

open LinuxKernelProg.Lib

/-! ## The program -/

def MAX_ENTRIES : Nat := 10240

/-- A probe that fires, with `bpf_get_current_pid_tgid()` and `bpf_ktime_get_ns()`. -/
inductive Event where
  | entry (pid_tgid ts : BitVec 64)
  | exit (pid_tgid ts : BitVec 64)

structure Maps where
  func_start : BoundedMap (BitVec 64) (BitVec 64) MAX_ENTRIES
  latency_hist : ArrayMap (BitVec 64) 64
  stats : ArrayMap (BitVec 64) 4

def Maps.init : Maps := ⟨.empty, fun _ => 0, fun _ => 0⟩

def trace_func_entry (pid_tgid ts : BitVec 64) (m : Maps) : Maps :=
  { m with func_start := m.func_start.put pid_tgid ts }

/-- The index into `latency_hist`, a `u32`. -/
def bucket (delta_ns : BitVec 64) : BitVec 32 :=
  let delta_us := delta_ns / 1000
  let bucket := (delta_us / 10).setWidth 32
  if 64 ≤ bucket then 63 else bucket

/-- Lines 67-98: the histogram and the statistics. -/
def Maps.record (delta_ns : BitVec 64) (m : Maps) : Maps :=
  { m with
    latency_hist := m.latency_hist.modify (bucket delta_ns).toNat (· + 1)
    stats :=
      let stats := m.stats.modify 0 (· + 1)
      let stats := stats.modify 1 (· + delta_ns)
      let stats := stats.modify 2 fun v => if v = 0 ∨ delta_ns < v then delta_ns else v
      stats.modify 3 fun v => if v < delta_ns then delta_ns else v }

def trace_func_exit (pid_tgid now : BitVec 64) (m : Maps) : Maps :=
  match m.func_start.lookup pid_tgid with
  | none => m
  | some start_ts =>
    let m := m.record (now - start_ts)
    { m with func_start := m.func_start.delete pid_tgid }

def handle : Event → Maps → Maps
  | .entry pid_tgid ts => trace_func_entry pid_tgid ts
  | .exit pid_tgid ts => trace_func_exit pid_tgid ts

def after (h : List Event) : Maps := h.foldr handle .init

/-! ## Traces -/

def Event.thread : Event → BitVec 64
  | .entry t _ => t
  | .exit t _ => t

def Event.ts : Event → BitVec 64
  | .entry _ ts => ts
  | .exit _ ts => ts

/-- A call of the traced function that has returned. -/
structure Call where
  start : BitVec 64
  stop : BitVec 64

def Call.duration (c : Call) : BitVec 64 := c.stop - c.start

/-- In nanoseconds. -/
def Call.ns (c : Call) : Nat := c.stop.toNat - c.start.toNat

/-- The entry times of the calls a thread is in, the innermost one first. -/
def stack : List Event → BitVec 64 → List (BitVec 64)
  | [], _ => []
  | .entry t ts :: past, k => if t = k then ts :: stack past k else stack past k
  | .exit t _ :: past, k => if t = k then (stack past k).tail else stack past k

/-- The calls that end with an exit, where `opened` says when the call began that an exit of a
thread ends; an exit of no call is left out. -/
def calls (opened : List Event → BitVec 64 → Option (BitVec 64)) : List Event → List Call
  | [] => []
  | .entry _ _ :: past => calls opened past
  | .exit t ts :: past =>
    match opened past t with
    | some start => ⟨start, ts⟩ :: calls opened past
    | none => calls opened past

/-- The completed calls, the latest one first. -/
def completed : List Event → List Call := calls fun past t => (stack past t).head?

/-- The threads that are inside the function. -/
def inside (h : List Event) : Finset (BitVec 64) :=
  (h.map Event.thread).toFinset.filter fun t => stack h t ≠ []

/-- No thread enters the function again before it has left it. -/
def Outside (past : List Event) : Event → Prop
  | .entry t _ => stack past t = []
  | .exit _ _ => True

/-- There is no recursion, and the map is large enough for the threads that are inside at once. -/
structure Flat (past : List Event) (e : Event) : Prop where
  outside : Outside past e
  few : (inside (e :: past)).card ≤ MAX_ENTRIES

/-- The clock does not go back. -/
def Clock (past : List Event) (e : Event) : Prop := ∀ x ∈ past, x.ts ≤ e.ts

/-- Every exit is that of a call whose entry was traced. -/
def Nested (past : List Event) : Event → Prop
  | .entry _ _ => True
  | .exit t _ => stack past t ≠ []

/-- An entry finds room in the map. -/
def Room (past : List Event) : Event → Prop
  | .entry t _ => (after past).func_start.HasRoom t
  | .exit _ _ => True

instance (past : List Event) : ∀ e, Decidable (Outside past e)
  | .entry t _ => inferInstanceAs (Decidable (stack past t = []))
  | .exit _ _ => inferInstanceAs (Decidable True)

instance (past : List Event) (e : Event) : Decidable (Flat past e) :=
  decidable_of_iff (Outside past e ∧ (inside (e :: past)).card ≤ MAX_ENTRIES)
    ⟨fun h => ⟨h.1, h.2⟩, fun h => ⟨h.1, h.2⟩⟩

instance (past : List Event) (e : Event) : Decidable (Clock past e) :=
  inferInstanceAs (Decidable (∀ x ∈ past, x.ts ≤ e.ts))

instance (past : List Event) : ∀ e, Decidable (Nested past e)
  | .entry _ _ => inferInstanceAs (Decidable True)
  | .exit t _ => inferInstanceAs (Decidable (stack past t ≠ []))

instance (past : List Event) : ∀ e, Decidable (Room past e)
  | .entry t _ => inferInstanceAs (Decidable ((after past).func_start.HasRoom t))
  | .exit _ _ => inferInstanceAs (Decidable True)

/-! ## What the program measures -/

def Event.start? : Event → Option (BitVec 64)
  | .entry _ ts => some ts
  | .exit _ _ => none

def watch : Stopwatch Event (BitVec 64) (BitVec 64) := ⟨Event.thread, Event.start?⟩

theorem slot_entry (past : List Event) (k s t : BitVec 64) :
    watch.slot (.entry k s :: past) t = if k = t then some s else watch.slot past t := rfl

theorem slot_exit (past : List Event) (k s t : BitVec 64) :
    watch.slot (.exit k s :: past) t = if k = t then none else watch.slot past t := rfl

/-- The calls that end with an exit whose thread's latest event is an entry. -/
def measured : List Event → List Call := calls watch.slot

/-- The maps after calls of these durations, the latest one first. -/
def recorded (ds : List (BitVec 64)) : Maps := ds.foldr Maps.record .init

theorem func_start_cons (e : Event) (past : List Event) :
    (after (e :: past)).func_start = watch.press e (after past).func_start := by
  cases e with
  | entry t ts => rfl
  | exit t ts =>
    change (trace_func_exit t ts (after past)).func_start = (after past).func_start.delete t
    unfold trace_func_exit
    split
    · rename_i hn
      exact (BoundedMap.delete_absent (BoundedMap.lookup_eq_none_iff.1 hn)).symm
    · rfl

theorem lookup_after {h : List Event} (hroom : Each Room h) (t : BitVec 64) :
    (after h).func_start.lookup t = watch.slot h t := by
  apply watch.lookup_eq_slot (m := fun h => (after h).func_start) rfl func_start_cons
  apply Each.imp (C := Room) _ hroom
  intro past e _ _ hr hs
  cases e with
  | entry t ts => exact hr
  | exit t ts => exact absurd rfl hs

theorem after_exit_none {past : List Event} (hroom : Each Room past) {t : BitVec 64}
    (hs : watch.slot past t = none) (ts : BitVec 64) : after (.exit t ts :: past) = after past := by
  change trace_func_exit t ts (after past) = after past
  simp only [trace_func_exit, lookup_after hroom, hs]

theorem after_exit_some {past : List Event} (hroom : Each Room past) {t start : BitVec 64}
    (hs : watch.slot past t = some start) (ts : BitVec 64) :
    after (.exit t ts :: past) = { (after past).record (ts - start) with
      func_start := (after past).func_start.delete t } := by
  change trace_func_exit t ts (after past) = _
  simp only [trace_func_exit, lookup_after hroom, hs]
  rfl

/-- The histogram and the statistics are those of the measured calls. -/
theorem after_eq {h : List Event} (hroom : Each Room h) :
    after h = { recorded ((measured h).map Call.duration) with
      func_start := (after h).func_start } := by
  induction h with
  | nil => rfl
  | cons e past ih =>
    have ih := ih hroom.2
    cases e with
    | entry t ts =>
      change trace_func_entry t ts (after past) = _
      rw [trace_func_entry, ih]
      rfl
    | exit t ts =>
      cases hs : watch.slot past t with
      | none =>
        rw [after_exit_none hroom.2 hs]
        simp only [measured, calls, hs]
        exact ih
      | some start =>
        rw [after_exit_some hroom.2 hs]
        simp only [measured, calls, hs, List.map_cons, recorded, List.foldr_cons]
        rw [ih]
        rfl

/-! ## The statistics of recorded calls -/

section Recorded

variable (m : Maps) (d : BitVec 64) (ds : List (BitVec 64))

@[simp] theorem Maps.record_count : (m.record d).stats 0 = m.stats 0 + 1 := rfl

@[simp] theorem Maps.record_total : (m.record d).stats 1 = m.stats 1 + d := rfl

@[simp] theorem Maps.record_min : (m.record d).stats 2 =
    if m.stats 2 = 0 ∨ d < m.stats 2 then d else m.stats 2 := rfl

@[simp] theorem Maps.record_max : (m.record d).stats 3 =
    if m.stats 3 < d then d else m.stats 3 := rfl

theorem Maps.record_hist (b : Fin 64) : (m.record d).latency_hist b =
    if b.val = (bucket d).toNat then m.latency_hist b + 1 else m.latency_hist b :=
  ArrayMap.modify_apply m.latency_hist (bucket d).toNat (· + 1) b

theorem recorded_cons : recorded (d :: ds) = (recorded ds).record d := rfl

theorem recorded_count : (recorded ds).stats 0 = BitVec.ofNat 64 ds.length := by
  induction ds with
  | nil => rfl
  | cons d ds ih =>
    rw [recorded_cons, Maps.record_count, ih, List.length_cons, BitVec.ofNat_add]
    rfl

theorem recorded_total : (recorded ds).stats 1 = ds.sum := by
  induction ds with
  | nil => rfl
  | cons d ds ih =>
    rw [recorded_cons, Maps.record_total, ih, List.sum_cons, BitVec.add_comm]

end Recorded

end LinuxKernelProg.EBpf.FuncLatency
