import Mathlib.Data.BitVec
import LinuxKernelProg.EBpf.ExecCount
import LinuxKernelProg.Lib.History

/-!
# The syscall tracer

`syscall_tracer.c`: a tracepoint at the entry of every system call and one at its exit. The start
times are kept in a hash map with one element for each thread, and only an exit takes one out. A
thread that ends is inside `exit` or `exit_group`, whose exit never comes, so its element stays.
-/

namespace LinuxKernelProg.EBpf.SyscallTracer

open LinuxKernelProg.Lib

/-! ## The program -/

def MAX_ENTRIES : Nat := 10240

structure Maps where
  syscall_start : BoundedMap (BitVec 64) (BitVec 64) MAX_ENTRIES
  syscall_latency : BoundedMap (BitVec 32) (BitVec 64) 512
  syscall_count : BoundedMap (BitVec 32) (BitVec 64) 512

def Maps.init : Maps := ⟨.empty, .empty, .empty⟩

/-- `id` is `ctx->id`, a `long`. The number is counted as `handle_exec` counts a file name. -/
def trace_sys_enter (pid_tgid id ts : BitVec 64) (m : Maps) : Maps :=
  { m with
    syscall_start := m.syscall_start.put pid_tgid ts
    syscall_count := count_key (id.setWidth 32) m.syscall_count }

/-- Lines 77-82. -/
def add_latency (syscall_nr : BitVec 32) (delta : BitVec 64)
    (m : BoundedMap (BitVec 32) (BitVec 64) 512) : BoundedMap (BitVec 32) (BitVec 64) 512 :=
  match m.lookup syscall_nr with
  | some _ => m.modify syscall_nr (· + delta)
  | none => m.put syscall_nr delta

def trace_sys_exit (pid_tgid id now : BitVec 64) (m : Maps) : Maps :=
  match m.syscall_start.lookup pid_tgid with
  | none => m
  | some start_ts =>
    { m with
      syscall_latency := add_latency (id.setWidth 32) (now - start_ts) m.syscall_latency
      syscall_start := m.syscall_start.delete pid_tgid }

/-! ## Runs -/

/-- What happens to a thread. The tracer sees its system calls. -/
inductive Event where
  | create (pid_tgid : BitVec 64)
  | sys_enter (pid_tgid id ts : BitVec 64)
  | sys_exit (pid_tgid id ts : BitVec 64)
  | dies (pid_tgid : BitVec 64)
  deriving DecidableEq

def handle : Event → Maps → Maps
  | .create _ => id
  | .sys_enter pid_tgid id ts => trace_sys_enter pid_tgid id ts
  | .sys_exit pid_tgid id ts => trace_sys_exit pid_tgid id ts
  | .dies _ => id

/-- The maps after a history, the latest event first. -/
def after (h : List Event) : Maps := h.foldr handle .init

inductive Status where
  | absent
  | running
  | inside (id ts : BitVec 64)
  deriving DecidableEq

def Status.id? : Status → Option (BitVec 64)
  | .inside id _ => some id
  | _ => none

def Status.start? : Status → Option (BitVec 64)
  | .inside _ ts => some ts
  | _ => none

def Event.thread : Event → BitVec 64
  | .create t => t
  | .sys_enter t _ _ => t
  | .sys_exit t _ _ => t
  | .dies t => t

def Event.next : Event → Status
  | .create _ => .running
  | .sys_enter _ id ts => .inside id ts
  | .sys_exit _ _ _ => .running
  | .dies _ => .absent

/-- Where a thread is, by its latest event. -/
def status : List Event → BitVec 64 → Status
  | [], _ => .absent
  | e :: past, k => if e.thread = k then e.next else status past k

def inside (h : List Event) : Finset (BitVec 64) :=
  (h.map Event.thread).toFinset.filter fun t => (status h t).start? ≠ none

def Event.syscall_nr? : Event → Option (BitVec 32)
  | .create _ => none
  | .sys_enter _ id _ => some (id.setWidth 32)
  | .sys_exit _ id _ => some (id.setWidth 32)
  | .dies _ => none

def numbers (h : List Event) : Finset (BitVec 32) := (h.filterMap Event.syscall_nr?).toFinset

structure Call where
  id : BitVec 64
  start : BitVec 64
  stop : BitVec 64

/-- The completed calls, the latest one first. -/
def completed : List Event → List Call
  | [] => []
  | .create _ :: past => completed past
  | .sys_enter _ _ _ :: past => completed past
  | .sys_exit t id ts :: past =>
    match (status past t).start? with
    | some start => ⟨id, start, ts⟩ :: completed past
    | none => completed past
  | .dies _ :: past => completed past

/-- The sum of exit time minus entry time over the completed calls of a number. -/
def total (h : List Event) (nr : BitVec 32) : BitVec 64 :=
  (((completed h).filter fun c => c.id.setWidth 32 = nr).map fun c => c.stop - c.start).sum

/-- A thread makes one call at a time, and ends inside one of `exits`, which do not return. -/
def Valid (exits : List (BitVec 64)) (past : List Event) : Event → Prop
  | .create t => status past t = .absent
  | .sys_enter t _ _ => status past t = .running
  | .sys_exit t id _ => (status past t).id? = some id ∧ id ∉ exits
  | .dies t => ∃ id ∈ (status past t).id?, id ∈ exits

instance (exits : List (BitVec 64)) (past : List Event) : ∀ e, Decidable (Valid exits past e)
  | .create t => inferInstanceAs (Decidable (status past t = .absent))
  | .sys_enter t _ _ => inferInstanceAs (Decidable (status past t = .running))
  | .sys_exit t id _ => inferInstanceAs (Decidable ((status past t).id? = some id ∧ id ∉ exits))
  | .dies t => Option.decidableExistsMem (status past t).id?

/-- A step of a run in which the maps are large enough for the threads that are inside a call at
once and for the numbers. -/
structure Step (exits : List (BitVec 64)) (past : List Event) (e : Event) : Prop where
  valid : Valid exits past e
  few : (inside (e :: past)).card ≤ MAX_ENTRIES
  numbers : (numbers (e :: past)).card ≤ 512

instance (exits : List (BitVec 64)) (past : List Event) (e : Event) :
    Decidable (Step exits past e) :=
  decidable_of_iff (Valid exits past e ∧ (inside (e :: past)).card ≤ MAX_ENTRIES ∧
    (numbers (e :: past)).card ≤ 512) ⟨fun h => ⟨h.1, h.2.1, h.2.2⟩, fun h => ⟨h.1, h.2, h.3⟩⟩

/-- The start times are those of the threads inside a call, and the latencies those of the completed
calls. -/
structure Traced (h : List Event) : Prop where
  keys : ∀ t, t ∈ (after h).syscall_start.keys ↔ t ∈ inside h
  latency : ∀ nr, ((after h).syscall_latency.lookup nr).getD 0 = total h nr

/-! ## Latencies -/

section Latency

variable {m : BoundedMap (BitVec 32) (BitVec 64) 512} {nr : BitVec 32} (delta : BitVec 64)

theorem lookup_add_latency (hroom : m.HasRoom nr) (k : BitVec 32) :
    ((add_latency nr delta m).lookup k).getD 0 =
      if k = nr then (m.lookup k).getD 0 + delta else (m.lookup k).getD 0 := by
  unfold add_latency
  cases hl : m.lookup nr with
  | none =>
    simp only
    rw [BoundedMap.lookup_put hroom]
    split
    · rename_i hk
      rw [hk, hl]
      exact (BitVec.zero_add delta).symm
    · rfl
  | some v =>
    simp only
    rw [BoundedMap.lookup_modify]
    split
    · rename_i hk
      rw [hk, hl]
      rfl
    · rfl

theorem mem_keys_add_latency {k : BitVec 32} (hk : k ∈ (add_latency nr delta m).keys) :
    k = nr ∨ k ∈ m.keys := by
  unfold add_latency at hk
  split at hk
  · rw [BoundedMap.keys_modify] at hk
    exact .inr hk
  · exact BoundedMap.of_mem_keys_put hk

end Latency

/-! ## Threads inside a call -/

variable {exits : List (BitVec 64)} {h past : List Event} {e : Event} {t : BitVec 64}

theorem status_cons (e : Event) (past : List Event) (k : BitVec 64) :
    status (e :: past) k = if e.thread = k then e.next else status past k := rfl

theorem start?_cons (e : Event) (past : List Event) (k : BitVec 64) :
    (status (e :: past) k).start? = if k = e.thread then e.next.start?
      else (status past k).start? := by
  rw [status_cons]
  by_cases hk : k = e.thread
  · rw [if_pos hk, if_pos hk.symm]
  · rw [if_neg hk, if_neg (Ne.symm hk)]

theorem mem_inside : t ∈ inside h ↔ (status h t).start? ≠ none := by
  rw [inside, Finset.mem_filter, List.mem_toFinset]
  refine ⟨And.right, fun hs => ⟨?_, hs⟩⟩
  induction h with
  | nil => exact absurd rfl hs
  | cons e past ih =>
    rw [List.map_cons, List.mem_cons]
    by_cases he : e.thread = t
    · exact .inl he.symm
    · rw [status_cons, if_neg he] at hs
      exact .inr (ih hs)

theorem numbers_past : numbers past ⊆ numbers (e :: past) := by
  intro nr hnr
  rw [numbers, List.mem_toFinset] at hnr ⊢
  rw [List.filterMap_cons]
  split
  · exact hnr
  · exact List.mem_cons_of_mem _ hnr

/-- The maps hold what they should, with the entry times. -/
structure Exact (h : List Event) : Prop where
  start : ∀ t, (after h).syscall_start.lookup t = (status h t).start?
  numbers : ∀ nr ∈ (after h).syscall_latency.keys, nr ∈ numbers h
  latency : ∀ nr, ((after h).syscall_latency.lookup nr).getD 0 = total h nr

theorem Exact.keys (hx : Exact h) (t : BitVec 64) :
    t ∈ (after h).syscall_start.keys ↔ t ∈ inside h := by
  rw [mem_inside, ← hx.start, ne_eq, BoundedMap.lookup_eq_none_iff, not_not]

theorem exact_nil : Exact [] :=
  ⟨fun _ => rfl, fun _ hk => absurd hk List.not_mem_nil, fun _ => rfl⟩

theorem exact_create (hx : Exact past) (hvalid : status past t = .absent) :
    Exact (.create t :: past) := by
  refine ⟨fun k => ?_, hx.numbers, hx.latency⟩
  change (after past).syscall_start.lookup k = _
  rw [hx.start, status_cons]
  split
  · rename_i hk
    have hk : t = k := hk
    rw [← hk, hvalid]
    rfl
  · rfl

theorem exact_sys_enter {id ts : BitVec 64} (hx : Exact past)
    (hfew : (inside (.sys_enter t id ts :: past)).card ≤ MAX_ENTRIES) :
    Exact (.sys_enter t id ts :: past) := by
  have hroom : (after past).syscall_start.HasRoom t := by
    apply BoundedMap.hasRoom_of_card hfew
    · intro k hk
      have hk := mem_inside.1 ((hx.keys k).1 hk)
      rw [mem_inside, status_cons]
      split
      · exact Option.some_ne_none ts
      · exact hk
    · have ht : (Event.sys_enter t id ts).thread = t := rfl
      rw [mem_inside, status_cons, if_pos ht]
      exact Option.some_ne_none ts
  refine ⟨fun k => ?_, fun nr hnr => numbers_past (hx.numbers nr hnr), hx.latency⟩
  change ((after past).syscall_start.put t ts).lookup k = _
  rw [BoundedMap.lookup_put hroom, hx.start, start?_cons]
  rfl

theorem exact_sys_exit {id ts : BitVec 64} (hx : Exact past)
    (hvalid : (status past t).id? = some id)
    (hnum : (numbers (.sys_exit t id ts :: past)).card ≤ 512) :
    Exact (.sys_exit t id ts :: past) := by
  obtain ⟨start, hs⟩ : ∃ start, (status past t).start? = some start := by
    cases hst : status past t with
    | inside _ start => exact ⟨start, rfl⟩
    | absent => rw [hst] at hvalid; cases hvalid
    | running => rw [hst] at hvalid; cases hvalid
  have hnr : id.setWidth 32 ∈ numbers (.sys_exit t id ts :: past) :=
    List.mem_toFinset.2 List.mem_cons_self
  have hroom : (after past).syscall_latency.HasRoom (id.setWidth 32) :=
    BoundedMap.hasRoom_of_card hnum (fun nr h => numbers_past (hx.numbers nr h)) hnr
  have hafter : after (.sys_exit t id ts :: past) = { after past with
      syscall_latency := add_latency (id.setWidth 32) (ts - start) (after past).syscall_latency
      syscall_start := (after past).syscall_start.delete t } := by
    change trace_sys_exit t id ts (after past) = _
    simp only [trace_sys_exit, hx.start, hs]
  have hcomp : completed (.sys_exit t id ts :: past) = ⟨id, start, ts⟩ :: completed past := by
    simp only [completed, hs]
  refine ⟨fun k => ?_, fun nr hk => ?_, fun nr => ?_⟩
  · rw [hafter, BoundedMap.lookup_delete, hx.start, start?_cons]
    rfl
  · rw [hafter] at hk
    rcases mem_keys_add_latency _ hk with rfl | hk
    · exact hnr
    · exact numbers_past (hx.numbers nr hk)
  · rw [hafter, lookup_add_latency _ hroom, hx.latency, total, total, hcomp]
    by_cases hk : nr = id.setWidth 32
    · rw [if_pos hk, List.filter_cons_of_pos (by simpa using hk.symm), List.map_cons, List.sum_cons,
        BitVec.add_comm]
    · rw [if_neg hk, List.filter_cons_of_neg (by simpa using Ne.symm hk)]

/-- One event, other than the end of a thread. -/
theorem exact_cons (hstep : Step exits past e) (he : ∀ t, e ≠ .dies t) (hx : Exact past) :
    Exact (e :: past) := by
  cases e with
  | create t => exact exact_create hx hstep.valid
  | sys_enter t id ts => exact exact_sys_enter hx hstep.few
  | sys_exit t id ts => exact exact_sys_exit hx hstep.valid.1 hstep.numbers
  | dies t => exact absurd rfl (he t)

/-- At the end of a thread the map keeps its start time, and the thread is inside no call any
more. -/
theorem not_traced_dies (hstep : Step exits past (.dies t)) (ht : Traced past) :
    ¬ Traced (.dies t :: past) := by
  intro hd
  obtain ⟨id, hid, -⟩ := hstep.valid
  have hin : t ∈ inside past := by
    rw [mem_inside]
    intro hn
    cases hs : status past t with
    | inside id ts => rw [hs] at hn; cases hn
    | absent => rw [hs] at hid; cases hid
    | running => rw [hs] at hid; cases hid
  have hout := (hd.keys t).1 ((ht.keys t).2 hin)
  have ht : (Event.dies t).thread = t := rfl
  rw [mem_inside, status_cons, if_pos ht] at hout
  exact hout rfl

theorem always_exact (hrun : Each (Step exits) h) (hd : ∀ t, .dies t ∉ h) : Always Exact h := by
  induction h with
  | nil => exact exact_nil
  | cons e past ih =>
    have ih := ih hrun.2 fun t ht => hd t (List.mem_cons_of_mem e ht)
    refine ⟨exact_cons hrun.1 (fun t he => hd t ?_) ih.now, ih⟩
    rw [he]
    exact List.mem_cons_self

/-- **Thread turnover.** The tables are right at every point of a run exactly when no thread has
ended. -/
theorem traced_iff (hrun : Each (Step exits) h) : Always Traced h ↔ ∀ t, .dies t ∉ h := by
  constructor
  · intro htraced t ht
    induction h with
    | nil => cases ht
    | cons e past ih =>
      rcases List.mem_cons.1 ht with rfl | ht
      · exact not_traced_dies hrun.1 htraced.2.now htraced.1
      · exact ih hrun.2 htraced.2 ht
  · intro hd
    exact (always_exact hrun hd).imp fun hx => ⟨hx.keys, hx.latency⟩

theorem traced_of_two_threads :
    let h : List Event := [.sys_exit 1 3 70, .sys_enter 1 3 60, .sys_exit 1 3 50, .sys_exit 2 4 40,
      .sys_enter 2 4 30, .create 2, .sys_enter 1 3 20, .create 1]
    Each (Step [1, 248]) h ∧ Always Traced h :=
  ⟨by decide, (traced_iff (by decide : Each (Step [1, 248]) _)).2 (by simp)⟩

/-- The thread ends inside `exit`; its start time stays in the map. -/
theorem start_of_dead_thread : ¬ ∀ h, Each (Step [1, 248]) h → Traced h := by
  intro h
  have htraced := h [.dies 1, .sys_enter 1 1 20, .create 1] (by decide)
  exact absurd ((htraced.keys 1).1 (by decide)) (by decide)

end LinuxKernelProg.EBpf.SyscallTracer
