import Mathlib.Data.BitVec
import LinuxKernelProg.Lib.History

/-!
# The sampled stack traces

`dynamic_traces.bpf.c`: four kprobes, each of which sends one event out of so many hits. All of them
advance the same counter and test it, so a probe is sampled by the hits of all four (`sampled_iff`).
-/

namespace LinuxKernelProg.EBpf.DynamicTraces

open LinuxKernelProg.Lib

/-! ## The program -/

/-- `function` is the text up to the NUL. -/
structure trace_data where
  pid : BitVec 32
  stack_id : BitVec 32
  comm : String
  function : String

/-- The counter, and the events that were submitted, the latest one first. The ring buffer is never
full. -/
structure State where
  sample_count : BitVec 64
  events : List trace_data

def State.init : State := ⟨0, []⟩

/-- What the helpers return at a hit: `bpf_get_current_pid_tgid()`, `bpf_get_stackid()` and
`bpf_get_current_comm()`. -/
structure Context where
  pid_tgid : BitVec 64
  stack_id : BitVec 32
  comm : String

/-- The body of the four probes. -/
def sample (rate : BitVec 64) (function : String) (ctx : Context) (s : State) : State :=
  let sample_count := s.sample_count + 1
  if sample_count % rate ≠ 0 then { s with sample_count }
  else
    let event : trace_data :=
      { pid := (ctx.pid_tgid >>> 32).setWidth 32
        stack_id := ctx.stack_id
        comm := ctx.comm
        function }
    { sample_count, events := event :: s.events }

def trace_sys_openat : Context → State → State := sample 10 "sys_openat"

def trace_sys_read : Context → State → State := sample 20 "sys_read"

def trace_sys_write : Context → State → State := sample 15 "sys_write"

def trace_sys_close : Context → State → State := sample 5 "sys_close"

/-! ## Hits -/

inductive Probe where
  | openat
  | read
  | write
  | close
  deriving DecidableEq

structure Hit where
  probe : Probe
  ctx : Context

def handle (e : Hit) : State → State :=
  match e.probe with
  | .openat => trace_sys_openat e.ctx
  | .read => trace_sys_read e.ctx
  | .write => trace_sys_write e.ctx
  | .close => trace_sys_close e.ctx

/-- The state after a history of hits, the latest one first. -/
def after (h : List Hit) : State := h.foldr handle .init

/-- The user program says: "Sampling rates: openat(1/10), read(1/20), write(1/15), close(1/5)". -/
def Probe.rate : Probe → Nat
  | .openat => 10
  | .read => 20
  | .write => 15
  | .close => 5

def Probe.function : Probe → String
  | .openat => "sys_openat"
  | .read => "sys_read"
  | .write => "sys_write"
  | .close => "sys_close"

def hits (p : Probe) (h : List Hit) : Nat := h.countP fun e => e.probe = p

def emitted (p : Probe) (h : List Hit) : Nat :=
  (after h).events.countP fun d => d.function = p.function

/-- Every probe has sent one event out of as many hits as its rate says. -/
def Sampled (h : List Hit) : Prop := ∀ p, emitted p h = hits p h / p.rate

/-- At a hit, the number of all hits so far, in 64 bits, is a multiple of the rate exactly when the
number of the probe's own hits is. -/
def InStep (past : List Hit) (e : Hit) : Prop :=
  e.probe.rate ∣ (past.length + 1) % 2 ^ 64 ↔ e.probe.rate ∣ hits e.probe past + 1

/-! ## Sampling -/

variable {past : List Hit} {e : Hit}

/-- The four probes are one, but for the rate and the name. -/
theorem handle_eq (e : Hit) :
    handle e = sample (BitVec.ofNat 64 e.probe.rate) e.probe.function e.ctx := by
  obtain ⟨p, ctx⟩ := e
  cases p <;> rfl

theorem after_cons (e : Hit) (past : List Hit) :
    after (e :: past) =
      sample (BitVec.ofNat 64 e.probe.rate) e.probe.function e.ctx (after past) := by
  rw [after, List.foldr_cons, handle_eq, ← after]

theorem sample_count_after (h : List Hit) : (after h).sample_count = BitVec.ofNat 64 h.length := by
  induction h with
  | nil => rfl
  | cons e past ih =>
    rw [after_cons, List.length_cons, BitVec.ofNat_add, ← ih]
    unfold sample
    simp only
    split <;> rfl

theorem mod_rate_iff (p : Probe) (n : Nat) :
    BitVec.ofNat 64 n % BitVec.ofNat 64 p.rate = 0 ↔ p.rate ∣ n % 2 ^ 64 := by
  have hr : p.rate % 2 ^ 64 = p.rate := by cases p <;> rfl
  rw [← BitVec.toNat_inj, BitVec.toNat_umod, BitVec.toNat_ofNat, BitVec.toNat_ofNat, hr,
    Nat.dvd_iff_mod_eq_zero]
  rfl

theorem function_inj {p q : Probe} : p.function = q.function ↔ p = q := by
  cases p <;> cases q <;> decide

/-- One hit. -/
theorem emitted_cons (p : Probe) (e : Hit) (past : List Hit) :
    emitted p (e :: past) = emitted p past +
      if e.probe = p ∧ p.rate ∣ (past.length + 1) % 2 ^ 64 then 1 else 0 := by
  have hcount : (after past).sample_count + 1 = BitVec.ofNat 64 (past.length + 1) := by
    rw [sample_count_after, BitVec.ofNat_add]
    rfl
  rw [emitted, emitted, after_cons, sample]
  simp only [hcount, ne_eq, mod_rate_iff, ite_not]
  by_cases hd : e.probe.rate ∣ (past.length + 1) % 2 ^ 64
  · rw [if_pos hd, List.countP_cons]
    simp only [decide_eq_true_eq, function_inj]
    by_cases hp : e.probe = p
    · subst hp
      rw [if_pos rfl, if_pos ⟨rfl, hd⟩]
    · rw [if_neg hp, if_neg fun h => hp h.1]
  · have hn : ¬ (e.probe = p ∧ p.rate ∣ (past.length + 1) % 2 ^ 64) := by
      rintro ⟨rfl, h⟩
      exact hd h
    rw [if_neg hd, if_neg hn]
    rfl

theorem hits_cons (p : Probe) (e : Hit) (past : List Hit) :
    hits p (e :: past) = hits p past + if e.probe = p then 1 else 0 := by
  rw [hits, hits, List.countP_cons]
  simp only [decide_eq_true_eq]

theorem sampled_cons (hs : Sampled past) : Sampled (e :: past) ↔ InStep past e := by
  have hdiv : hits e.probe (e :: past) / e.probe.rate = hits e.probe past / e.probe.rate +
      if e.probe.rate ∣ hits e.probe past + 1 then 1 else 0 := by
    rw [hits_cons, if_pos rfl, Nat.succ_div]
  constructor
  · intro h
    have h := h e.probe
    rw [emitted_cons, hs, hdiv] at h
    have h := Nat.add_left_cancel h
    simp only [true_and] at h
    unfold InStep
    split at h <;> split at h
    · exact iff_of_true ‹_› ‹_›
    · cases h
    · cases h
    · exact iff_of_false ‹_› ‹_›
  · intro hi p
    rw [emitted_cons, hs]
    by_cases hp : e.probe = p
    · subst hp
      rw [hdiv]
      unfold InStep at hi
      simp only [true_and, hi]
    · rw [hits_cons, if_neg hp, if_neg fun h => hp h.1, Nat.add_zero, Nat.add_zero]

/-- **The shared counter.** Every probe sends what its rate says at every point exactly when, at
each hit, the count of all hits and the probe's own are both multiples of the rate or both are
not. -/
theorem sampled_iff (h : List Hit) : Always Sampled h ↔ Each InStep h := by
  apply always_iff_each (A := fun _ _ => True)
  · intro p
    rw [hits, List.countP_nil, Nat.zero_div]
    rfl
  · exact fun _ hs => sampled_cons hs
  · exact Each.of_forall fun _ _ => trivial

/-- After nine reads the first `openat` is sent. -/
theorem openat_sent_early : ¬ ∀ h, Sampled h := by
  intro h
  let ctx : Context := ⟨0, 0, ""⟩
  have hs := h (⟨.openat, ctx⟩ :: List.replicate 9 ⟨.read, ctx⟩) .openat
  exact absurd hs (by decide)

end LinuxKernelProg.EBpf.DynamicTraces
