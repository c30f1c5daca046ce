import LinuxKernelProg.Lib.Run
import LinuxKernelProg.EBpf.DynamicTraces

/-!
# The sampling counter on several CPUs

A probe advances `sample_count` with an atomic add, drops what the add returns and reads the counter
again for the test. Any number of executions run at the same time, one of these two steps at a time.

An execution that is not interrupted samples as `sample` does (`run_alone`). One that is interrupted
may test a value that another execution has left, so that a tenth call is missed or two are sent for
one.
-/

namespace LinuxKernelProg.EBpf.DynamicTraces

open LinuxKernelProg.Lib

inductive Pc where
  | start
  /-- Its add was the `n`-th. The code does not keep what `__sync_fetch_and_add` returns. -/
  | added (n : Nat)
  | passed
  | returned
  deriving DecidableEq

/-- The executions that have advanced the counter. -/
def adds (pcs : List Pc) : Nat := pcs.countP (· ≠ .start)

/-- The executions that have passed the test. -/
def passes (pcs : List Pc) : Nat := pcs.countP (· = .passed)

/-- The counter, and the executions of one probe. -/
structure Race where
  sample_count : BitVec 64
  execs : List Pc
  deriving DecidableEq

def Race.init : Race := ⟨0, []⟩

inductive Step where
  /-- The probe is hit. -/
  | hit
  | run (t : Nat)

def Race.step (p : Probe) (s : Race) : Step → Option Race
  | .hit => some { s with execs := s.execs ++ [.start] }
  | .run t =>
    match s.execs[t]? with
    | some .start => some ⟨s.sample_count + 1, s.execs.set t (.added (adds s.execs + 1))⟩
    | some (.added _) =>
      some { s with
        execs := s.execs.set t
          (if s.sample_count % BitVec.ofNat 64 p.rate ≠ 0 then .returned else .passed) }
    | _ => none

def Race.Finished (s : Race) : Prop := ∀ pc ∈ s.execs, pc = .passed ∨ pc = .returned

instance (s : Race) : Decidable s.Finished := inferInstanceAs (Decidable (∀ pc ∈ s.execs, _))

/-- A test with this value of the counter finds a multiple of the rate exactly when the execution's
own add was one. -/
def Pc.InTurn (p : Probe) (sample_count : BitVec 64) : Pc → Prop
  | .added n => p.rate ∣ sample_count.toNat ↔ p.rate ∣ n
  | _ => True

def InTurn (p : Probe) (s : Race) : Step → Prop
  | .hit => True
  | .run t => ∀ pc ∈ s.execs[t]?, pc.InTurn p s.sample_count

instance (p : Probe) (c : BitVec 64) : ∀ pc : Pc, Decidable (pc.InTurn p c)
  | .added n => inferInstanceAs (Decidable (p.rate ∣ c.toNat ↔ p.rate ∣ n))
  | .start | .passed | .returned => inferInstanceAs (Decidable True)

instance (p : Probe) (s : Race) : ∀ a, Decidable (InTurn p s a)
  | .hit => inferInstanceAs (Decidable True)
  | .run t => inferInstanceAs (Decidable (∀ pc ∈ s.execs[t]?, _))

/-! ## One step -/

variable {p : Probe} {s s' : Race} {t n : Nat}

theorem step_run (h : s.step p (.run t) = some s') :
    (s.execs[t]? = some .start ∧
      s' = ⟨s.sample_count + 1, s.execs.set t (.added (adds s.execs + 1))⟩) ∨
    ∃ n, s.execs[t]? = some (.added n) ∧
      s' = ⟨s.sample_count, s.execs.set t
        (if p.rate ∣ s.sample_count.toNat then .passed else .returned)⟩ := by
  have hmod := mod_rate_iff p s.sample_count.toNat
  rw [BitVec.ofNat_toNat, BitVec.setWidth_eq, Nat.mod_eq_of_lt s.sample_count.isLt] at hmod
  simp only [Race.step] at h
  split at h
  · rename_i hpc
    cases h
    exact .inl ⟨hpc, rfl⟩
  · rename_i n hpc
    cases h
    refine .inr ⟨n, hpc, ?_⟩
    simp only [ne_eq, hmod, ite_not]
  · cases h

/-- An execution that is not interrupted samples as `sample` does. -/
theorem run_alone {ctx : Context} {function : String} {d : State}
    (hd : d.sample_count = s.sample_count)
    (h : run (Race.step p) s [.hit, .run s.execs.length, .run s.execs.length] = some s') :
    s'.sample_count = (sample (BitVec.ofNat 64 p.rate) function ctx d).sample_count ∧
      passes s'.execs + d.events.length =
        passes s.execs + (sample (BitVec.ofNat 64 p.rate) function ctx d).events.length := by
  simp only [run_cons, run_nil, Option.some.injEq] at h
  obtain ⟨s₁, h₁, s₂, h₂, s₃, h₃, rfl⟩ := h
  cases h₁
  obtain rfl : _ = s₂ := by simpa [Race.step] using h₂
  obtain rfl : _ = s₃ := by simpa [Race.step] using h₃
  unfold sample
  simp only [hd]
  split
  · rename_i hm
    have hm : ¬ (s.sample_count + 1#64) % BitVec.ofNat 64 p.rate = 0#64 := hm
    refine ⟨rfl, ?_⟩
    simp [passes, hm]
  · rename_i hm
    have hm : (s.sample_count + 1#64) % BitVec.ofNat 64 p.rate = 0#64 := not_not.1 hm
    refine ⟨rfl, ?_⟩
    simp [passes, hm, Nat.add_assoc, Nat.add_comm 1]

/-! ## Any interleaving -/

/-- The executions that have yet to make the test and whose own add was a multiple of the rate. -/
def due (p : Probe) (pcs : List Pc) : Nat :=
  pcs.countP fun pc => match pc with
    | .added n => p.rate ∣ n
    | _ => False

/-- The counter is the number of the adds, and what is sampled or about to be is one out of as many
as the rate says. -/
structure Inv (p : Probe) (sample_count : BitVec 64) (pcs : List Pc) : Prop where
  count : sample_count = BitVec.ofNat 64 (adds pcs)
  one_in : passes pcs + due p pcs = adds pcs / p.rate

namespace Inv

variable {c : BitVec 64} {os os' : List Pc}

theorem perm (h : Inv p c os) (hp : os.Perm os') : Inv p c os' where
  count := by
    rw [h.count, adds, adds, hp.countP_eq]
  one_in := by
    have := h.one_in
    rwa [passes, due, adds, hp.countP_eq, hp.countP_eq, hp.countP_eq] at this

theorem hit (h : Inv p c os) : Inv p c (.start :: os) where
  count := by simpa [adds] using h.count
  one_in := by simpa [adds, passes, due] using h.one_in

theorem add (h : Inv p c (.start :: os)) :
    Inv p (c + 1) (.added (adds (.start :: os) + 1) :: os) := by
  have hadds : adds (.start :: os) = adds os := by simp [adds]
  rw [hadds]
  have hcount := h.count
  have hone := h.one_in
  rw [hadds] at hcount hone
  constructor
  · have : adds (.added (adds os + 1) :: os) = adds os + 1 := by simp [adds]
    rw [this, BitVec.ofNat_add, hcount]
    rfl
  · have hadds' : adds (.added (adds os + 1) :: os) = adds os + 1 := by simp [adds]
    have hpasses : passes (.added (adds os + 1) :: os) = passes (.start :: os) := by simp [passes]
    have hdue : due p (.added (adds os + 1) :: os) =
        due p (.start :: os) + if p.rate ∣ adds os + 1 then 1 else 0 := by
      simp [due, List.countP_cons]
    rw [hadds', hpasses, hdue, ← Nat.add_assoc, hone, Nat.succ_div]

theorem test (h : Inv p c (.added n :: os)) (ht : p.rate ∣ c.toNat ↔ p.rate ∣ n) :
    Inv p c ((if p.rate ∣ c.toNat then .passed else .returned) :: os) := by
  have hcount := h.count
  have hone := h.one_in
  by_cases hn : p.rate ∣ n
  · rw [if_pos (ht.2 hn)]
    constructor
    · simpa [adds] using hcount
    · simp [adds, passes, due, hn] at hone ⊢
      omega
  · rw [if_neg (mt ht.1 hn)]
    constructor
    · simpa [adds] using hcount
    · simpa [adds, passes, due, hn] using hone

end Inv

theorem inv_step {a : Step} (h : Inv p s.sample_count s.execs) (ht : InTurn p s a)
    (hs : s.step p a = some s') : Inv p s'.sample_count s'.execs := by
  cases a with
  | hit =>
    cases hs
    apply h.hit.perm
    exact (List.perm_append_singleton Pc.start s.execs).symm
  | run t =>
    rcases step_run hs with ⟨hpc, rfl⟩ | ⟨n, hpc, rfl⟩
    · obtain ⟨os, hp, hset⟩ := perm_of_getElem? hpc
      have hadds : adds s.execs = adds (.start :: os) := hp.countP_eq _
      rw [hadds]
      exact (h.perm hp).add.perm (hset _).symm
    · obtain ⟨os, hp, hset⟩ := perm_of_getElem? hpc
      exact ((h.perm hp).test (ht _ hpc)).perm (hset _).symm

/-- When all are done, one out of as many as the rate says has passed. -/
theorem Inv.passes_of_finished (h : Inv p s.sample_count s.execs) (hf : s.Finished) :
    passes s.execs = s.execs.length / p.rate := by
  have hdue : due p s.execs = 0 := by
    apply List.countP_eq_zero.2
    intro pc hpc
    rcases hf pc hpc with rfl | rfl <;> simp
  have hadds : adds s.execs = s.execs.length := by
    apply List.countP_eq_length.2
    intro pc hpc
    rcases hf pc hpc with rfl | rfl <;> simp
  rw [← hadds, ← h.one_in, hdue, Nat.add_zero]

/-- **One call in ten.** In every run whose tests are in turn, however its steps are interleaved,
`k` executions of `trace_sys_openat` sample `k / 10` when they are done. -/
theorem openat_one_in_ten {as : List Step} (h : run (Race.step .openat) .init as = some s)
    (ht : Along (Race.step .openat) (InTurn .openat) .init as) (hf : s.Finished) :
    passes s.execs = s.execs.length / 10 := by
  have hinit : Inv .openat Race.init.sample_count Race.init.execs := by
    constructor
    · rfl
    · rfl
  have hinv : Inv .openat s.sample_count s.execs :=
    run_inv (I := fun s => Inv .openat s.sample_count s.execs) inv_step hinit ht h
  exact hinv.passes_of_finished hf

/-- The first two of ten calls overlap. -/
theorem one_of_ten_passes :
    passes (List.replicate 9 .returned ++ [.passed]) =
      (List.replicate 9 Pc.returned ++ [Pc.passed]).length / 10 := by
  let overlap : List Step := [.hit, .hit, .run 0, .run 1, .run 0, .run 1]
  let others : List Step := (List.range 8).flatMap fun i => [.hit, .run (i + 2), .run (i + 2)]
  have h : run (Race.step .openat) .init (overlap ++ others) =
      some ⟨10, List.replicate 9 .returned ++ [.passed]⟩ := by decide
  exact openat_one_in_ten h (by decide) (by decide)

/-- After nine calls, two more at once: both of them read eleven. -/
example :
    (run (Race.step .openat) ⟨9, List.replicate 9 .returned⟩
      [.hit, .hit, .run 9, .run 10, .run 9, .run 10]).map (fun s => passes s.execs) = some 0 := by
  decide

/-- Ten calls at once: each of them reads ten and is sampled. -/
theorem ten_at_once : ¬ ∀ as s, run (Race.step .openat) .init as = some s → s.Finished →
    passes s.execs = s.execs.length / 10 := by
  intro h
  let hits := List.replicate 10 Step.hit
  let runs := (List.range 10).map Step.run
  have := h (hits ++ runs ++ runs) ⟨10, List.replicate 10 .passed⟩ (by decide) (by decide)
  exact absurd this (by decide)

end LinuxKernelProg.EBpf.DynamicTraces
