import LinuxKernelProg.Lib.RwSem
import Mathlib.Data.BitVec

/-!
# A counter under a reader-writer semaphore

`kthread_rwsem.c`: writers increment a counter, and print it after they have downgraded the
semaphore. The increment is a load and a store. No reader comes in between, no increment is lost,
and since no other writer comes in before the print, what a writer prints is what it has stored
(`safe_of_run`).
-/

namespace LinuxKernelProg.Sync.Rwsem

open LinuxKernelProg.Lib

/-! ## The program -/

inductive Role where
  | writer
  | reader
  deriving DecidableEq

/-- Where `writer_function` or `read_function` is, by the statement that comes next. -/
inductive Pc where
  /-- `while (!kthread_should_stop())`, the sleep before it included. -/
  | test
  /-- `down_write` or `down_read`. -/
  | down
  /-- `counter++`. -/
  | load
  | store
  | downgrade
  | print
  | up
  | returned
  deriving DecidableEq

structure Thread where
  role : Role
  pc : Pc
  /-- The register of `counter++`. -/
  loaded : BitVec 32
  /-- What the thread has stored last. -/
  stored : BitVec 32
  deriving DecidableEq

/-- A line of the kernel log. -/
inductive Line where
  /-- A writer prints the counter; it had stored `stored`. -/
  | writer (value stored : BitVec 32)
  | reader (value : BitVec 32)
  deriving DecidableEq

structure Sys where
  threads : List Thread
  counter_rwsem : RwSem
  counter : BitVec 32
  /-- How many stores there were. -/
  increments : Nat
  lines : List Line
  deriving DecidableEq

/-- The thread at an index takes a step; `stop` is what `kthread_should_stop` returns. -/
structure Action where
  thread : Nat
  stop : Bool

def Sys.put (s : Sys) (i : Nat) (th : Thread) : Sys := { s with threads := s.threads.set i th }

/-- A step of the thread `th` at the index `i`. -/
def Sys.thread (s : Sys) (i : Nat) (th : Thread) (stop : Bool) : Option Sys :=
  match th.pc with
  | .test => some (s.put i { th with pc := if stop then .returned else .down })
  | .down =>
    match th.role with
    | .writer =>
      s.counter_rwsem.down_write.map fun sem =>
        { s.put i { th with pc := .load } with counter_rwsem := sem }
    | .reader =>
      s.counter_rwsem.down_read.map fun sem =>
        { s.put i { th with pc := .print } with counter_rwsem := sem }
  | .load => some (s.put i { th with pc := .store, loaded := s.counter })
  | .store =>
    some { s.put i { th with pc := .downgrade, stored := th.loaded + 1 } with
      counter := th.loaded + 1, increments := s.increments + 1 }
  | .downgrade =>
    some { s.put i { th with pc := .print } with counter_rwsem := s.counter_rwsem.downgrade_write }
  | .print =>
    let line :=
      match th.role with
      | .writer => .writer s.counter th.stored
      | .reader => .reader s.counter
    some { s.put i { th with pc := .up } with lines := line :: s.lines }
  | .up => some { s.put i { th with pc := .test } with counter_rwsem := s.counter_rwsem.up_read }
  | .returned => none

def Sys.step (s : Sys) (a : Action) : Option Sys :=
  (s.threads[a.thread]?).bind fun th => s.thread a.thread th a.stop

/-- `my_mod_init` has returned. -/
def Sys.init (roles : List Role) : Sys := ⟨roles.map fun r => ⟨r, .test, 0, 0⟩, .init, 0, 0, []⟩

/-- **What the semaphore is there for.** -/
structure Safe (s : Sys) : Prop where
  counts : s.counter = BitVec.ofNat 32 s.increments
  /-- A writer prints what it has stored. -/
  printed : ∀ value stored, Line.writer value stored ∈ s.lines → value = stored
  /-- No reader is in its section while a thread is between the load and the store. -/
  apart : ∀ w ∈ s.threads, w.pc = .store → ∀ r ∈ s.threads, r.role = .reader →
    r.pc ≠ .print ∧ r.pc ≠ .up

/-! ## What a thread has and knows -/

def Pc.mode : Pc → Mode
  | .load | .store | .downgrade => .write
  | .print | .up => .read
  | .test | .down | .returned => .none

def Thread.mode (th : Thread) : Mode := th.pc.mode

/-- What a thread knows of the counter. -/
structure Thread.Knows (th : Thread) (counter : BitVec 32) : Prop where
  loaded : th.pc = .store → th.loaded = counter
  stored : th.pc = .downgrade ∨ th.pc = .print ∧ th.role = .writer → th.stored = counter

structure Inv (s : Sys) : Prop where
  holds : s.counter_rwsem.Holds (s.threads.map Thread.mode)
  counts : s.counter = BitVec.ofNat 32 s.increments
  knows : ∀ (i : Nat) (th : Thread), s.threads[i]? = some th → th.Knows s.counter
  printed : ∀ value stored, Line.writer value stored ∈ s.lines → value = stored

variable {s t : Sys} {a : Action} {as : List Action} {i : Nat} {th : Thread}

/-- A thread that has nothing of the semaphore knows nothing. -/
theorem Thread.Knows.of_none (h : th.mode = .none) (counter : BitVec 32) : th.Knows counter := by
  constructor
  · intro hpc
    rw [Thread.mode, hpc] at h
    nomatch h
  · rintro (hpc | ⟨hpc, -⟩) <;> rw [Thread.mode, hpc] at h <;> nomatch h

theorem mode_getElem? (hi : s.threads[i]? = some th) :
    (s.threads.map Thread.mode)[i]? = some th.mode := by
  rw [List.getElem?_map, hi]
  rfl

theorem map_mode_put (s : Sys) (i : Nat) (th : Thread) :
    (s.put i th).threads.map Thread.mode = (s.threads.map Thread.mode).set i th.mode :=
  List.map_set

/-- The threads know the counter after a step of one of them if that one does and the others do. -/
theorem knows_put {counter : BitVec 32} {th' : Thread} (hth : th'.Knows counter)
    (hothers : ∀ (j : Nat) (o : Thread), j ≠ i → s.threads[j]? = some o → o.Knows counter) :
    ∀ (j : Nat) (o : Thread), (s.put i th').threads[j]? = some o → o.Knows counter := by
  intro j o hj
  rcases getElem?_set_cases hj with ⟨-, rfl⟩ | ⟨hji, hj⟩
  · exact hth
  · exact hothers j o hji hj

theorem map_mode_put_same {th' : Thread} (hi : s.threads[i]? = some th)
    (hmode : th'.mode = th.mode) :
    (s.put i th').threads.map Thread.mode = s.threads.map Thread.mode := by
  obtain ⟨hlt, hget⟩ := List.getElem?_eq_some_iff.1 (mode_getElem? hi)
  rw [map_mode_put, hmode, ← hget, List.set_getElem_self]

/-- A step that leaves the counter and the semaphore. -/
theorem Inv.put {th' : Thread} (hs : Inv s) (hi : s.threads[i]? = some th)
    (hmode : th'.mode = th.mode) (hth : th'.Knows s.counter) : Inv (s.put i th') where
  holds := (map_mode_put_same hi hmode).symm ▸ hs.holds
  counts := hs.counts
  knows := knows_put hth fun j o _ ho => hs.knows j o ho
  printed := hs.printed

/-- A step that leaves the counter and changes the semaphore. -/
theorem Inv.put_sem {th' : Thread} {sem : RwSem} (hs : Inv s)
    (hsem : sem.Holds ((s.threads.map Thread.mode).set i th'.mode)) (hth : th'.Knows s.counter) :
    Inv { s.put i th' with counter_rwsem := sem } where
  holds := (map_mode_put s i th').symm ▸ hsem
  counts := hs.counts
  knows := knows_put hth fun j o _ ho => hs.knows j o ho
  printed := hs.printed

/-- The store: nobody else has anything of the semaphore, so nobody else knows the old counter. -/
theorem inv_store (hs : Inv s) (hi : s.threads[i]? = some th) (hpc : th.pc = .store) :
    Inv { s.put i { th with pc := .downgrade, stored := th.loaded + 1 } with
      counter := th.loaded + 1, increments := s.increments + 1 } where
  holds := by
    have hmode : Thread.mode { th with pc := .downgrade, stored := th.loaded + 1 } = th.mode := by
      rw [Thread.mode, Thread.mode, hpc]
      rfl
    exact (map_mode_put_same hi hmode).symm ▸ hs.holds
  counts := by
    have hloaded := (hs.knows i th hi).loaded hpc
    rw [hloaded, hs.counts, BitVec.ofNat_add]
    rfl
  knows := by
    apply knows_put
    · exact ⟨nofun, fun _ => rfl⟩
    · intro j o hji hj
      have hwrite : (s.threads.map Thread.mode)[i]? = some .write := by
        rw [mode_getElem? hi, Thread.mode, hpc]
        rfl
      exact Thread.Knows.of_none (hs.holds.alone hwrite (mode_getElem? hj) hji) _
  printed := hs.printed

theorem inv_print (hs : Inv s) (hi : s.threads[i]? = some th) (hpc : th.pc = .print) {line : Line}
    (hline : ∀ value stored, line = .writer value stored → value = stored) :
    Inv { s.put i { th with pc := .up } with lines := line :: s.lines } := by
  have hmode : Thread.mode { th with pc := .up } = th.mode := by
    rw [Thread.mode, Thread.mode, hpc]
    rfl
  have hput := hs.put hi hmode ⟨nofun, by rintro (h | ⟨h, -⟩) <;> nomatch h⟩
  refine ⟨hput.holds, hput.counts, hput.knows, fun value stored hmem => ?_⟩
  rcases List.mem_cons.1 hmem with heq | hmem
  · exact hline value stored heq.symm
  · exact hs.printed value stored hmem

theorem thread_inv {stop : Bool} (hs : Inv s) (hi : s.threads[i]? = some th)
    (h : s.thread i th stop = some t) : Inv t := by
  have hmode := mode_getElem? hi
  have hknows := hs.knows i th hi
  unfold Thread.mode at hmode
  cases hpc : th.pc <;> rw [hpc] at hmode <;> simp only [Sys.thread, hpc] at h
  case test =>
    cases h
    apply hs.put hi
    · rw [Thread.mode, Thread.mode, hpc]
      cases stop <;> rfl
    · cases stop <;> exact Thread.Knows.of_none rfl _
  case down =>
    split at h
    · obtain ⟨sem, hsem, rfl⟩ := Option.map_eq_some_iff.1 h
      refine hs.put_sem (hs.holds.down_write hmode hsem) ⟨nofun, ?_⟩
      rintro (h | ⟨h, -⟩) <;> nomatch h
    · next hrole =>
      obtain ⟨sem, hsem, rfl⟩ := Option.map_eq_some_iff.1 h
      refine hs.put_sem (hs.holds.down_read hmode hsem) ⟨nofun, ?_⟩
      rintro (h | ⟨-, h⟩)
      · nomatch h
      · nomatch hrole.symm.trans h
  case load =>
    cases h
    refine hs.put hi ?_ ⟨fun _ => rfl, by rintro (h | ⟨h, -⟩) <;> nomatch h⟩
    rw [Thread.mode, Thread.mode, hpc]
    rfl
  case store =>
    cases h
    exact inv_store hs hi hpc
  case downgrade =>
    cases h
    refine hs.put_sem (hs.holds.downgrade_write hmode) ⟨nofun, ?_⟩
    exact fun _ => hknows.stored (.inl hpc)
  case print =>
    cases h
    apply inv_print hs hi hpc
    intro value stored heq
    split at heq
    · next hrole =>
      cases heq
      exact (hknows.stored (.inr ⟨hpc, hrole⟩)).symm
    · nomatch heq
  case up =>
    cases h
    exact hs.put_sem (hs.holds.up_read hmode) (Thread.Knows.of_none rfl _)
  case returned => nomatch h

theorem step_inv (hs : Inv s) (h : s.step a = some t) : Inv t := by
  obtain ⟨th, hi, hth⟩ := Option.bind_eq_some_iff.1 h
  exact thread_inv hs hi hth

theorem inv_init (roles : List Role) : Inv (.init roles) where
  holds := by
    have hmodes : (Sys.init roles).threads.map Thread.mode = List.replicate roles.length .none := by
      simp only [Sys.init, List.map_map]
      exact List.map_const' ..
    rw [hmodes]
    exact RwSem.Holds.init _
  counts := rfl
  knows := by
    intro i th hi
    simp only [Sys.init, List.getElem?_map] at hi
    obtain ⟨r, -, rfl⟩ := Option.map_eq_some_iff.1 hi
    exact Thread.Knows.of_none rfl _
  printed := nofun

theorem Inv.safe (hs : Inv s) : Safe s where
  counts := hs.counts
  printed := hs.printed
  apart := by
    intro w hw hwpc r hr _
    obtain ⟨i, hi⟩ := List.mem_iff_getElem?.1 hw
    obtain ⟨j, hj⟩ := List.mem_iff_getElem?.1 hr
    have hwrite : (s.threads.map Thread.mode)[i]? = some .write := by
      rw [mode_getElem? hi, Thread.mode, hwpc]
      rfl
    constructor
    all_goals
      intro hrpc
      refine hs.holds.no_writer (i := j) ?_ hwrite
      rw [mode_getElem? hj, Thread.mode, hrpc]
      rfl

/-- **The counter** is safe with any number of writers and readers. -/
theorem safe_of_run (roles : List Role) (as : List Action)
    (h : run Sys.step (.init roles) as = some s) : Safe s :=
  (run_inv_of_step step_inv (inv_init roles) h).safe

/-- A reader comes in after the downgrade, and both print. -/
theorem safe_of_run_two :
    Safe ⟨[⟨.writer, .up, 0, 1⟩, ⟨.reader, .up, 0, 0⟩], ⟨false, 2⟩, 1, 1,
      [.writer 1 1, .reader 1]⟩ :=
  safe_of_run [.writer, .reader] [⟨0, false⟩, ⟨1, false⟩, ⟨0, false⟩, ⟨0, false⟩,
    ⟨0, false⟩, ⟨0, false⟩, ⟨1, false⟩, ⟨1, false⟩, ⟨0, false⟩] rfl

/-! ## The log -/

def Line.isWriter : Line → Bool
  | .writer .. => true
  | .reader _ => false

/-- The lines of writers. -/
def writers (lines : List Line) : Nat := lines.countP Line.isWriter

theorem writers_cons (line : Line) (lines : List Line) :
    writers (line :: lines) = writers lines + line.isWriter.toNat := countP_cons_toNat ..

/-- What a line has where the writers have printed `n` lines before: a reader may be ahead of the
writer that has incremented the counter and goes on with the downgraded semaphore. -/
def Line.Near (n : Nat) : Line → Prop
  | .writer value _ => value = BitVec.ofNat 32 (n + 1)
  | .reader value => value = BitVec.ofNat 32 n ∨ value = BitVec.ofNat 32 (n + 1)

/-- The thread has incremented the counter and has not printed it yet. -/
def Thread.unprinted (th : Thread) : Bool :=
  th.role = .writer && (th.pc = .downgrade || th.pc = .print)

structure LogInv (s : Sys) : Prop where
  writer : ∀ (i : Nat) (th : Thread), s.threads[i]? = some th → th.mode = .write → th.role = .writer
  increments : s.increments = writers s.lines + s.threads.countP Thread.unprinted
  one : s.threads.countP Thread.unprinted ≤ 1
  near : ∀ newer l older, s.lines = newer ++ l :: older → l.Near (writers older)

theorem not_unprinted_of_mode (h : th.mode = .none) : th.unprinted = false := by
  cases hpc : th.pc with
  | downgrade | print =>
    rw [Thread.mode, hpc] at h
    exact absurd h (by decide)
  | _ => simp [Thread.unprinted, hpc]

/-- A step that prints nothing and increments nothing. -/
theorem LogInv.put {th' : Thread} {sem : RwSem} (hs : LogInv s) (hi : s.threads[i]? = some th)
    (hunprinted : th'.unprinted = th.unprinted) (hwriter : th'.mode = .write → th'.role = .writer) :
    LogInv { s.put i th' with counter_rwsem := sem } := by
  have hcount := countP_set_add hi Thread.unprinted th'
  rw [hunprinted, Nat.add_right_cancel_iff] at hcount
  refine ⟨fun j o hj => ?_, ?_, ?_, hs.near⟩
  · rcases getElem?_set_cases hj with ⟨-, rfl⟩ | ⟨-, hj⟩
    · exact hwriter
    · exact hs.writer j o hj
  · exact hs.increments.trans (congrArg (writers s.lines + ·) hcount.symm)
  · exact hcount ▸ hs.one

/-- The store: the others have nothing of the semaphore, so they have nothing left to print. -/
theorem LogInv.store (hs : LogInv s) (hinv : Inv s) (hi : s.threads[i]? = some th)
    (hpc : th.pc = .store) :
    LogInv { s.put i { th with pc := .downgrade, stored := th.loaded + 1 } with
      counter := th.loaded + 1, increments := s.increments + 1 } := by
  have hwrite : th.mode = .write := by
    rw [Thread.mode, hpc]
    rfl
  have hrole := hs.writer i th hi hwrite
  have hcount := countP_set_add hi Thread.unprinted
    { th with pc := .downgrade, stored := th.loaded + 1 }
  have hnot : th.unprinted = false := by simp [Thread.unprinted, hpc]
  have hth' : Thread.unprinted { th with pc := .downgrade, stored := th.loaded + 1 } = true := by
    simp [Thread.unprinted, hrole]
  have hnone : s.threads.countP Thread.unprinted = 0 := by
    rw [List.countP_eq_zero]
    intro o ho hunprinted
    obtain ⟨j, hj⟩ := List.mem_iff_getElem?.1 ho
    by_cases hji : j = i
    · obtain rfl : th = o := Option.some.inj ((hji ▸ hi).symm.trans hj)
      exact absurd hunprinted (by rw [hnot]; nofun)
    · have hmode : o.mode = .none :=
        hinv.holds.alone (hwrite ▸ mode_getElem? hi) (mode_getElem? hj) hji
      rw [not_unprinted_of_mode hmode] at hunprinted
      nomatch hunprinted
  rw [hnot, hth', hnone] at hcount
  have hone : (s.threads.set i { th with pc := .downgrade, stored := th.loaded + 1 }).countP
      Thread.unprinted = 1 := hcount
  refine ⟨fun j o hj => ?_, ?_, Nat.le_of_eq hone, hs.near⟩
  · rcases getElem?_set_cases hj with ⟨-, rfl⟩ | ⟨-, hj⟩
    · exact fun _ => hrole
    · exact hs.writer j o hj
  · have hincrements := hs.increments
    rw [hnone] at hincrements
    exact (congrArg (· + 1) hincrements).trans (congrArg (writers s.lines + ·) hone.symm)

theorem LogInv.print (hs : LogInv s) (hi : s.threads[i]? = some th)
    {line : Line} (hwriter : line.isWriter = th.unprinted) (hnear : line.Near (writers s.lines)) :
    LogInv { s.put i { th with pc := .up } with lines := line :: s.lines } := by
  have hcount := countP_set_add hi Thread.unprinted { th with pc := .up }
  have hnot : Thread.unprinted { th with pc := .up } = false := by simp [Thread.unprinted]
  rw [hnot, Bool.toNat_false, Nat.add_zero] at hcount
  have hone := hs.one
  refine ⟨fun j o hj => ?_, ?_, ?_, fun newer l older hsplit => ?_⟩
  · rcases getElem?_set_cases hj with ⟨-, rfl⟩ | ⟨-, hj⟩
    · exact fun hwrite => nomatch hwrite
    · exact hs.writer j o hj
  · change s.increments =
      writers (line :: s.lines) + (s.threads.set i { th with pc := .up }).countP _
    rw [hs.increments, writers_cons, hwriter]
    omega
  · change (s.threads.set i { th with pc := .up }).countP Thread.unprinted ≤ 1
    omega
  · cases newer with
    | nil =>
      obtain ⟨rfl, rfl⟩ := List.cons.inj hsplit
      exact hnear
    | cons l' newer => exact hs.near newer l older (List.cons.inj hsplit).2

theorem LogInv.thread {stop : Bool} (hs : LogInv s) (hinv : Inv s) (hi : s.threads[i]? = some th)
    (h : s.thread i th stop = some t) : LogInv t := by
  have hrole := hs.writer i th hi
  cases hpc : th.pc <;> simp only [Sys.thread, hpc] at h
  case test =>
    cases h
    refine hs.put hi ?_ ?_
    · cases stop <;> simp [Thread.unprinted, hpc]
    · cases stop <;> nofun
  case down =>
    split at h
    · next hwriter =>
      obtain ⟨sem, hsem, rfl⟩ := Option.map_eq_some_iff.1 h
      exact hs.put hi (by simp [Thread.unprinted, hpc]) fun _ => hwriter
    · next hreader =>
      obtain ⟨sem, hsem, rfl⟩ := Option.map_eq_some_iff.1 h
      exact hs.put hi (by simp [Thread.unprinted, hpc, hreader]) nofun
  case load =>
    cases h
    refine hs.put hi (by simp [Thread.unprinted, hpc]) fun _ => hrole ?_
    rw [Thread.mode, hpc]
    rfl
  case store =>
    cases h
    exact hs.store hinv hi hpc
  case downgrade =>
    cases h
    exact hs.put hi (by simp [Thread.unprinted, hpc]) nofun
  case print =>
    cases h
    have hcounter : s.counter = BitVec.ofNat 32
        (writers s.lines + s.threads.countP Thread.unprinted) := by
      rw [hinv.counts, hs.increments]
    have hone := hs.one
    split
    · next hwriter =>
      have hunprinted : th.unprinted = true := by simp [Thread.unprinted, hpc, hwriter]
      refine hs.print hi hunprinted.symm ?_
      have hpos : 0 < s.threads.countP Thread.unprinted :=
        List.countP_pos_iff.2 ⟨th, List.mem_of_getElem? hi, hunprinted⟩
      have hone : s.threads.countP Thread.unprinted = 1 := by omega
      rw [Line.Near, hcounter, hone]
    · next hreader =>
      refine hs.print hi (by simp [Thread.unprinted, hreader, Line.isWriter]) ?_
      rw [Line.Near, hcounter]
      rcases Nat.le_one_iff_eq_zero_or_eq_one.1 hone with hzero | hone
      · exact .inl (by rw [hzero, Nat.add_zero])
      · exact .inr (by rw [hone])
  case up =>
    cases h
    exact hs.put hi (by simp [Thread.unprinted, hpc]) nofun
  case returned => nomatch h

theorem LogInv.init (roles : List Role) : LogInv (.init roles) := by
  have hnone : (Sys.init roles).threads.countP Thread.unprinted = 0 := by
    simp [Sys.init, Thread.unprinted]
  refine ⟨fun i th hi hwrite => ?_, ?_, hnone ▸ Nat.zero_le 1, fun newer l older h => ?_⟩
  · simp only [Sys.init, List.getElem?_map] at hi
    obtain ⟨r, -, rfl⟩ := Option.map_eq_some_iff.1 hi
    exact nomatch (show Mode.none = .write from hwrite)
  · rw [hnone]
    rfl
  · exact absurd h.symm (by simp [Sys.init])

/-- In every run the writers print 1, 2, 3 and so on, and a reader prints the number of the lines
that writers have printed before, or one more. -/
theorem lines_near (roles : List Role) (as : List Action)
    (h : run Sys.step (.init roles) as = some s) (newer older : List Line) {l : Line}
    (hsplit : s.lines = newer ++ l :: older) : l.Near (writers older) := by
  have hinv : Inv s ∧ LogInv s := by
    refine run_inv_of_step (I := fun s => Inv s ∧ LogInv s) ?_ ⟨inv_init roles, .init roles⟩ h
    rintro s a t ⟨hs, hlog⟩ hstep
    obtain ⟨th, hi, hth⟩ := Option.bind_eq_some_iff.1 hstep
    exact ⟨step_inv hs hstep, hlog.thread hs hi hth⟩
  exact hinv.2.near newer l older hsplit

/-- A reader that is ahead of the writer. -/
theorem lines_near_reader : (Line.reader 1).Near (writers []) :=
  lines_near [.writer, .reader] [⟨0, false⟩, ⟨1, false⟩, ⟨0, false⟩, ⟨0, false⟩,
    ⟨0, false⟩, ⟨0, false⟩,
    ⟨1, false⟩, ⟨1, false⟩] rfl [] [] rfl

end LinuxKernelProg.Sync.Rwsem
