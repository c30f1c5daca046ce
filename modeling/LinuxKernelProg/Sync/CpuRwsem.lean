import LinuxKernelProg.Lib.RwSem
import Mathlib.Data.BitVec
import Mathlib.Logic.Function.Basic

/-!
# A semaphore for each CPU

`kthread_cpurwsem.c`: like `kthread_rwsem.c`, with a counter and a semaphore of each CPU. Every
statement asks again which CPU it runs on, and preemption is enabled, so a thread may release
another semaphore than the one it has taken. The calls belong together exactly as long as no thread
is on a foreign CPU when it downgrades or releases, or increments a counter that no writer has taken
(`paired_iff`).
-/

namespace LinuxKernelProg.Sync.CpuRwsem

open LinuxKernelProg.Lib

/-! ## The program -/

inductive Role where
  | writer
  | reader
  deriving DecidableEq

/-- Where `writer_function` or `read_function` is, by what comes next. -/
inductive Pc where
  /-- `while (!kthread_should_stop())`, the sleep before it included. -/
  | test
  /-- `this_cpu_ptr(&counter_rwsem)`, which says what `down_write` or `down_read` waits for. -/
  | point
  | down
  /-- `this_cpu_inc(counter)`. -/
  | inc
  | downgrade
  | print
  | up
  | returned
  deriving DecidableEq

structure Thread where
  role : Role
  pc : Pc
  /-- The CPU the thread runs on. -/
  cpu : Nat
  /-- The CPU whose semaphore the thread waits for, or has taken last. -/
  taken : Nat
  /-- The semaphores that the thread has acquired and holds. -/
  held : List (Nat × Mode)
  deriving DecidableEq

structure Sys where
  /-- The number of possible CPUs. -/
  cpus : Nat
  threads : List Thread
  counter_rwsem : Nat → RwSem
  counter : Nat → BitVec 32

inductive Action where
  /-- The thread at an index takes a step; `stop` is what `kthread_should_stop` returns. -/
  | thread (i : Nat) (stop : Bool)
  | migrate (i : Nat) (cpu : Nat)

def Sys.put (s : Sys) (i : Nat) (th : Thread) : Sys := { s with threads := s.threads.set i th }

def Sys.setSem (s : Sys) (cpu : Nat) (sem : RwSem) : Sys :=
  { s with counter_rwsem := Function.update s.counter_rwsem cpu sem }

def Thread.acquire (th : Thread) (m : Mode) (pc : Pc) : Thread :=
  { th with pc := pc, held := (th.taken, m) :: th.held }

/-- `down_write` or `down_read`. -/
def Sys.down (s : Sys) (th : Thread) : Option RwSem :=
  match th.role with
  | .writer => (s.counter_rwsem th.taken).down_write
  | .reader => (s.counter_rwsem th.taken).down_read

def Role.mode : Role → Mode
  | .writer => .write
  | .reader => .read

/-- What comes behind `down_write` or `down_read`. -/
def Role.locked : Role → Pc
  | .writer => .inc
  | .reader => .print

/-- A step of the thread `th` at the index `i`. -/
def Sys.thread (s : Sys) (i : Nat) (th : Thread) (stop : Bool) : Option Sys :=
  match th.pc with
  | .test => some (s.put i { th with pc := if stop then .returned else .point })
  | .point => some (s.put i { th with pc := .down, taken := th.cpu })
  | .down =>
    (s.down th).map fun sem =>
      (s.put i (th.acquire th.role.mode th.role.locked)).setSem th.taken sem
  | .inc =>
    some { s.put i { th with pc := .downgrade } with
      counter := Function.update s.counter th.cpu (s.counter th.cpu + 1) }
  | .downgrade =>
    let held := th.held.map fun p => if p = (th.cpu, .write) then (th.cpu, .read) else p
    some ((s.put i { th with pc := .print, held := held }).setSem th.cpu
      (s.counter_rwsem th.cpu).downgrade_write)
  | .print => some (s.put i { th with pc := .up })
  | .up =>
    some ((s.put i { th with pc := .test, held := th.held.erase (th.cpu, .read) }).setSem th.cpu
      (s.counter_rwsem th.cpu).up_read)
  | .returned => none

def Sys.step (s : Sys) : Action → Option Sys
  | .thread i stop => (s.threads[i]?).bind fun th => s.thread i th stop
  | .migrate i cpu =>
    (s.threads[i]?).bind fun th =>
      if cpu < s.cpus then some (s.put i { th with cpu := cpu }) else none

/-- `my_mod_init` has returned; each thread is somewhere. -/
def Sys.init (cpus : Nat) (threads : List (Role × Nat)) : Sys where
  cpus := cpus
  threads := threads.map fun p => ⟨p.1, .test, p.2, p.2, []⟩
  counter_rwsem := fun _ => .init
  counter := fun _ => 0

/-- **What belongs together**, when a thread is about to take a step: a counter is incremented while
the semaphore of its CPU is held for writing, and a semaphore that is downgraded or released is held
by the thread as it has to be. -/
def Right (s : Sys) : Action → Prop
  | .migrate _ _ => True
  | .thread i _ => ∀ th, s.threads[i]? = some th →
    match th.pc with
    | .inc => (s.counter_rwsem th.cpu).writer = true
    | .downgrade => (th.cpu, .write) ∈ th.held
    | .up => (th.cpu, .read) ∈ th.held
    | _ => True

/-- The thread has come behind `down_write`, and not yet behind `downgrade_write`. -/
def Thread.Writes (th : Thread) : Prop := th.pc = .inc ∨ th.pc = .downgrade

/-- A thread downgrades or releases on the CPU whose semaphore it has taken, and increments a
counter of a CPU whose semaphore a writer has taken. -/
def AtHome (s : Sys) : Action → Prop
  | .migrate _ _ => True
  | .thread i _ => ∀ th, s.threads[i]? = some th →
    match th.pc with
    | .inc => ∃ w ∈ s.threads, w.Writes ∧ w.taken = th.cpu
    | .downgrade | .up => th.taken = th.cpu
    | _ => True

/-! ## Who holds what -/

def Pc.mode : Pc → Mode
  | .inc | .downgrade => .write
  | .print | .up => .read
  | .test | .point | .down | .returned => .none

/-- What the thread has of the semaphore of a CPU. -/
def Thread.modeOn (c : Nat) (th : Thread) : Mode := if th.taken = c then th.pc.mode else .none

/-- The thread holds the semaphore it has taken, and no other one. -/
def Thread.HoldsTaken (th : Thread) : Prop :=
  th.held = if th.pc.mode = .none then [] else [(th.taken, th.pc.mode)]

structure Inv (s : Sys) : Prop where
  holds : ∀ c, (s.counter_rwsem c).Holds (s.threads.map (Thread.modeOn c))
  held : ∀ (i : Nat) (th : Thread), s.threads[i]? = some th → th.HoldsTaken

variable {s t : Sys} {a : Action} {as : List Action} {i : Nat} {th : Thread}

theorem modeOn_taken (th : Thread) : th.modeOn th.taken = th.pc.mode := if_pos rfl

theorem modeOn_eq_write_iff {w : Thread} {c : Nat} :
    w.modeOn c = .write ↔ w.Writes ∧ w.taken = c := by
  have hmode : w.pc.mode = .write ↔ w.Writes := by
    unfold Thread.Writes
    cases w.pc <;> decide
  unfold Thread.modeOn
  split
  · next hc => rw [hmode, and_iff_left hc]
  · next hc => exact iff_of_false nofun fun h => hc h.2

theorem modeOn_getElem? (hi : s.threads[i]? = some th) (c : Nat) :
    (s.threads.map (Thread.modeOn c))[i]? = some (th.modeOn c) := by
  rw [List.getElem?_map, hi]
  rfl

theorem held_put {th' : Thread} (hs : Inv s) (hth : th'.HoldsTaken) :
    ∀ (j : Nat) (o : Thread), (s.put i th').threads[j]? = some o → o.HoldsTaken := by
  intro j o hj
  rcases getElem?_set_cases hj with ⟨-, rfl⟩ | ⟨-, hj⟩
  · exact hth
  · exact hs.held j o hj

/-- A step that leaves the semaphores. -/
theorem Inv.put {th' : Thread} (hs : Inv s) (hi : s.threads[i]? = some th)
    (hmode : ∀ c, th'.modeOn c = th.modeOn c) (hth : th'.HoldsTaken) : Inv (s.put i th') where
  holds := by
    intro c
    obtain ⟨hlt, hget⟩ := List.getElem?_eq_some_iff.1 (modeOn_getElem? hi c)
    have hmap : (s.put i th').threads.map (Thread.modeOn c) = s.threads.map (Thread.modeOn c) := by
      rw [Sys.put, List.map_set, hmode, ← hget, List.set_getElem_self]
    exact hmap ▸ hs.holds c
  held := held_put hs hth

/-- A step that changes the semaphore that the thread has taken. -/
theorem Inv.put_setSem {th' : Thread} {sem : RwSem} (hs : Inv s) (hi : s.threads[i]? = some th)
    (htaken : th'.taken = th.taken)
    (hsem : sem.Holds ((s.threads.map (Thread.modeOn th.taken)).set i th'.pc.mode))
    (hth : th'.HoldsTaken) : Inv ((s.put i th').setSem th.taken sem) where
  holds := by
    intro c
    change (Function.update s.counter_rwsem th.taken sem c).Holds ((s.threads.set i th').map _)
    rw [List.map_set]
    by_cases hc : c = th.taken
    · subst hc
      rw [Function.update_self, Thread.modeOn, if_pos htaken]
      exact hsem
    · have hnone : th'.modeOn c = th.modeOn c := by
        rw [Thread.modeOn, Thread.modeOn, htaken, if_neg (Ne.symm hc), if_neg (Ne.symm hc)]
      obtain ⟨hlt, hget⟩ := List.getElem?_eq_some_iff.1 (modeOn_getElem? hi c)
      rw [Function.update_of_ne hc, hnone, ← hget, List.set_getElem_self]
      exact hs.holds c
  held := held_put hs hth

/-- At home, the calls belong together, and otherwise they do not. -/
theorem right_iff_atHome (hs : Inv s) (a : Action) : Right s a ↔ AtHome s a := by
  cases a with
  | migrate i cpu => rfl
  | thread i stop =>
    refine forall_congr' fun th => forall_congr' fun hi => ?_
    have hheld := hs.held i th hi
    unfold Thread.HoldsTaken at hheld
    cases hpc : th.pc <;> rw [hpc] at hheld <;> simp only
    case inc =>
      rw [(hs.holds th.cpu).writer_iff, List.mem_map]
      exact exists_congr fun w => and_congr_right fun _ => modeOn_eq_write_iff
    case downgrade | up =>
      simp only [Pc.mode, reduceCtorEq, if_false] at hheld
      rw [hheld, List.mem_singleton, Prod.mk.injEq]
      exact ⟨fun h => h.1.symm, fun h => ⟨h.symm, rfl⟩⟩

theorem modeOn_of_none (h : th.pc.mode = .none) (c : Nat) : th.modeOn c = .none := by
  unfold Thread.modeOn
  split
  · exact h
  · rfl

/-- A thread that had nothing goes on without taking anything. -/
theorem Inv.put_none {th' : Thread} (hs : Inv s) (hi : s.threads[i]? = some th)
    (hmode : th.pc.mode = .none) (hmode' : th'.pc.mode = .none) (hheld : th'.held = th.held) :
    Inv (s.put i th') := by
  apply hs.put hi
  · intro c
    rw [modeOn_of_none hmode, modeOn_of_none hmode']
  · have h := hs.held i th hi
    unfold Thread.HoldsTaken at h ⊢
    rw [hheld, h, if_pos hmode, if_pos hmode']

/-- A thread goes on with what it has. -/
theorem Inv.put_pc (hs : Inv s) (hi : s.threads[i]? = some th) (pc : Pc)
    (hmode : pc.mode = th.pc.mode) :
    Inv (s.put i { th with pc := pc }) := by
  apply hs.put hi
  · intro c
    rw [Thread.modeOn, Thread.modeOn, hmode]
  · have h := hs.held i th hi
    unfold Thread.HoldsTaken at h ⊢
    rw [hmode]
    exact h

theorem inv_down {sem : RwSem} (hs : Inv s) (hi : s.threads[i]? = some th) (hpc : th.pc = .down)
    (hsem : s.down th = some sem) :
    Inv ((s.put i (th.acquire th.role.mode th.role.locked)).setSem th.taken sem) := by
  have hmode := modeOn_getElem? hi th.taken
  rw [modeOn_taken, hpc] at hmode
  have hempty : th.held = [] := by
    have h := hs.held i th hi
    rwa [Thread.HoldsTaken, hpc] at h
  have hlocked : th.role.locked.mode = th.role.mode := by
    cases th.role <;> rfl
  refine hs.put_setSem hi rfl ?_ ?_
  · change sem.Holds ((s.threads.map _).set i th.role.locked.mode)
    rw [hlocked]
    unfold Sys.down at hsem
    cases hrole : th.role <;> rw [hrole] at hsem
    · exact (hs.holds th.taken).down_write hmode hsem
    · exact (hs.holds th.taken).down_read hmode hsem
  · change (th.taken, th.role.mode) :: th.held = if th.role.locked.mode = .none then _ else _
    rw [hlocked, hempty]
    cases th.role <;> rfl

theorem thread_inv {stop : Bool} (hs : Inv s) (hi : s.threads[i]? = some th)
    (hC : AtHome s (.thread i stop)) (h : s.thread i th stop = some t) : Inv t := by
  have hheld := hs.held i th hi
  have hmode := modeOn_getElem? hi th.taken
  have hC := hC th hi
  rw [modeOn_taken] at hmode
  unfold Thread.HoldsTaken at hheld
  cases hpc : th.pc <;> simp only [Sys.thread, hpc] at h <;> simp only [hpc] at hC <;>
    rw [hpc] at hmode hheld
  case test =>
    cases h
    apply hs.put_pc hi
    rw [hpc]
    cases stop <;> rfl
  case point =>
    cases h
    exact hs.put_none hi (hpc ▸ rfl) rfl rfl
  case down =>
    obtain ⟨sem, hsem, rfl⟩ := Option.map_eq_some_iff.1 h
    exact inv_down hs hi hpc hsem
  case inc =>
    cases h
    have hput := hs.put_pc hi .downgrade (hpc ▸ rfl)
    exact ⟨hput.holds, hput.held⟩
  case downgrade =>
    rw [← hC] at h
    cases h
    refine hs.put_setSem hi rfl ?_ ?_
    · exact (hs.holds th.taken).downgrade_write hmode
    · rw [hheld]
      simp [Thread.HoldsTaken, Pc.mode]
  case print =>
    cases h
    exact hs.put_pc hi _ (hpc ▸ rfl)
  case up =>
    rw [← hC] at h
    cases h
    refine hs.put_setSem hi rfl ?_ ?_
    · exact (hs.holds th.taken).up_read hmode
    · rw [hheld]
      simp [Thread.HoldsTaken, Pc.mode]
  case returned => nomatch h

theorem step_inv (hs : Inv s) (hC : AtHome s a) (h : s.step a = some t) : Inv t := by
  cases a with
  | thread i stop =>
    obtain ⟨th, hi, hth⟩ := Option.bind_eq_some_iff.1 h
    exact thread_inv hs hi hC hth
  | migrate i cpu =>
    obtain ⟨th, hi, hth⟩ := Option.bind_eq_some_iff.1 h
    split at hth
    · cases hth
      exact hs.put hi (fun _ => rfl) (hs.held i th hi)
    · nomatch hth

theorem inv_init (cpus : Nat) (threads : List (Role × Nat)) : Inv (.init cpus threads) where
  holds := by
    intro c
    have hmodes : (Sys.init cpus threads).threads.map (Thread.modeOn c) =
        List.replicate threads.length .none := by
      rw [Sys.init, List.map_map, ← List.map_const']
      exact List.map_congr_left fun p _ => modeOn_of_none rfl c
    rw [hmodes]
    exact RwSem.Holds.init _
  held := by
    intro i th hi
    simp only [Sys.init, List.getElem?_map] at hi
    obtain ⟨p, -, rfl⟩ := Option.map_eq_some_iff.1 hi
    rfl

/-- **The calls** belong together at every step of a run exactly when the threads are at home at
every step. -/
theorem paired_iff (cpus : Nat) (threads : List (Role × Nat)) (as : List Action) :
    Along Sys.step Right (.init cpus threads) as ↔
      Along Sys.step AtHome (.init cpus threads) as := by
  constructor
  · apply Along.imp_of_inv (J := Inv) (fun hs hR => (right_iff_atHome hs _).1 hR) ?_ (inv_init _ _)
    exact fun hs hR h => step_inv hs ((right_iff_atHome hs _).1 hR) h
  · exact Along.imp_of_inv (J := Inv) (fun hs hC => (right_iff_atHome hs _).2 hC) step_inv
      (inv_init _ _)

/-- A writer is moved to another CPU between the increment and the downgrade. -/
theorem migrated_writer : ¬ ∀ cpus threads as, Along Sys.step Right (.init cpus threads) as := by
  intro h
  let step : Action := .thread 0 false
  have hright := (h 2 [(.writer, 0)] [step, step, step, step, .migrate 0 1, step]).get
    (i := 5) rfl rfl ⟨.writer, .downgrade, 1, 0, [(0, .write)]⟩ rfl
  have hmem : (1, Mode.write) ∉ [(0, Mode.write)] := by decide
  exact hmem hright

end LinuxKernelProg.Sync.CpuRwsem
