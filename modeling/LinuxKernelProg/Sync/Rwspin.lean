import LinuxKernelProg.Lib.RwSem
import Mathlib.Data.BitVec

/-!
# A counter under a reader-writer spinlock

`kthread_rwspin.c`: the writer increments a counter and prints it before it lets the lock go, so
nobody prints in between. What readers and writers print together is determined: each line has the
number of the lines of writers up to it (`log_determined`).
-/

namespace LinuxKernelProg.Sync.Rwspin

open LinuxKernelProg.Lib

/-! ## The program -/

/-- Where `reader_fn` or `writer_fn` is. -/
inductive Pc where
  /-- `while (!kthread_should_stop() && !stop_threads)`, the sleep before it included. -/
  | test
  /-- `read_lock` or `write_lock`. -/
  | lock
  /-- `shared_counter++`. -/
  | load
  | store (loaded : BitVec 32)
  | print
  | unlock
  | returned
  deriving DecidableEq

structure Thread where
  writer : Bool
  pc : Pc
  deriving DecidableEq

structure Line where
  writer : Bool
  value : BitVec 32
  deriving DecidableEq

structure State where
  threads : List Thread
  rw_spinlock : RwSem
  shared_counter : BitVec 32
  log : List Line
  stop_threads : Bool
  /-- The threads for which `kthread_stop` was called. -/
  asked : List Nat

inductive Action where
  | thread (i : Nat)
  /-- The exit function: `stop_threads = true`. -/
  | stop
  | kthread_stop (i : Nat)

def State.put (s : State) (i : Nat) (th : Thread) : State :=
  { s with threads := s.threads.set i th }

/-- A step of the thread `th` at the index `i`. -/
def threadStep (s : State) (i : Nat) (th : Thread) : Option State :=
  match th.pc with
  | .test => some (s.put i { th with
      pc := if i ∈ s.asked ∨ s.stop_threads then .returned else .lock })
  | .lock =>
    if th.writer then
      s.rw_spinlock.down_write.map fun lock =>
        { s.put i { th with pc := .load } with rw_spinlock := lock }
    else
      s.rw_spinlock.down_read.map fun lock =>
        { s.put i { th with pc := .print } with rw_spinlock := lock }
  | .load => some (s.put i { th with pc := .store s.shared_counter })
  | .store loaded => some { s.put i { th with pc := .print } with shared_counter := loaded + 1 }
  | .print =>
    some { s.put i { th with pc := .unlock } with log := s.log ++ [⟨th.writer, s.shared_counter⟩] }
  | .unlock =>
    some { s.put i { th with pc := .test } with
      rw_spinlock := if th.writer then s.rw_spinlock.up_write else s.rw_spinlock.up_read }
  | .returned => none

def step (s : State) : Action → Option State
  | .thread i => s.threads[i]?.bind (threadStep s i)
  | .stop => some { s with stop_threads := true }
  | .kthread_stop i => some { s with asked := i :: s.asked }

/-- After the init function, with these threads; `true` is a writer. -/
def start (roles : List Bool) : State := ⟨roles.map fun r => ⟨r, .test⟩, .init, 0, [], false, []⟩

/-! ## What is printed -/

def Thread.mode (th : Thread) : Mode :=
  match th.pc with
  | .load | .store _ => .write
  | .print | .unlock => if th.writer then .write else .read
  | .test | .lock | .returned => .none

/-- The thread has incremented the counter and has not printed it yet. -/
def Thread.printing (th : Thread) : Bool := th.writer && th.pc = .print

/-- The lines of writers. -/
def writers (log : List Line) : Nat := log.countP (·.writer)

/-- What a thread has in hand. -/
structure Thread.Knows (th : Thread) (counter : BitVec 32) : Prop where
  writer : th.mode = .write → th.writer
  loaded : ∀ v, th.pc = .store v → v = counter

structure Inv (s : State) : Prop where
  holds : s.rw_spinlock.Holds (s.threads.map Thread.mode)
  counts : s.shared_counter = BitVec.ofNat 32 (writers s.log + s.threads.countP Thread.printing)
  knows : ∀ (i : Nat) (th : Thread), s.threads[i]? = some th → th.Knows s.shared_counter
  log : ∀ (n : Nat) (l : Line), s.log[n]? = some l →
    l.value = BitVec.ofNat 32 (writers (s.log.take (n + 1)))

variable {s s' : State} {i : Nat} {th th' : Thread}

theorem mode_getElem? (hi : s.threads[i]? = some th) :
    (s.threads.map Thread.mode)[i]? = some th.mode := by
  rw [List.getElem?_map, hi]
  rfl

theorem map_mode_set :
    (s.threads.set i th').map Thread.mode = (s.threads.map Thread.mode).set i th'.mode :=
  List.map_set

theorem mode_of_printing (h : th.printing = true) : th.mode = .write := by
  obtain ⟨hwriter, hpc⟩ : th.writer = true ∧ th.pc = .print := by simpa [Thread.printing] using h
  rw [Thread.mode, hpc]
  exact if_pos hwriter

/-- A thread that has nothing of the lock knows nothing. -/
theorem Thread.Knows.of_none (h : th.mode = .none) (counter : BitVec 32) : th.Knows counter := by
  refine ⟨fun hwrite => absurd (h.symm.trans hwrite) nofun, fun v hv => ?_⟩
  rw [Thread.mode, hv] at h
  nomatch h

/-- While a thread has the lock for writing, nobody else has anything of it. -/
theorem Inv.others_none (hs : Inv s) (hi : s.threads[i]? = some th) (hth : th.mode = .write)
    {j : Nat} {o : Thread} (hj : s.threads[j]? = some o) (hji : j ≠ i) : o.mode = .none :=
  hs.holds.alone (hth ▸ mode_getElem? hi) (mode_getElem? hj) hji

/-- A step that leaves counter and log, of a thread that prints no counter of its own next. -/
theorem Inv.put {lock : RwSem} (hs : Inv s) (hi : s.threads[i]? = some th)
    (hlock : lock.Holds ((s.threads.map Thread.mode).set i th'.mode))
    (hprinting : th'.printing = th.printing) (hth : th'.Knows s.shared_counter) :
    Inv { s.put i th' with rw_spinlock := lock } where
  holds := map_mode_set.symm ▸ hlock
  counts := by
    have hcount := countP_set_add hi Thread.printing th'
    rw [hprinting, Nat.add_right_cancel_iff] at hcount
    exact hs.counts.trans (congrArg (fun n => BitVec.ofNat 32 (writers s.log + n)) hcount.symm)
  knows := by
    intro j o hj
    rcases getElem?_set_cases hj with ⟨-, rfl⟩ | ⟨-, hj⟩
    · exact hth
    · exact hs.knows j o hj
  log := hs.log

/-- A step that leaves the lock as well. -/
theorem Inv.put_same (hs : Inv s) (hi : s.threads[i]? = some th) (hmode : th'.mode = th.mode)
    (hprinting : th'.printing = th.printing) (hth : th'.Knows s.shared_counter) :
    Inv (s.put i th') := by
  have hset : (s.threads.map Thread.mode).set i th'.mode = s.threads.map Thread.mode := by
    rw [hmode]
    exact set_eq_self (mode_getElem? hi)
  exact hs.put hi (hset.symm ▸ hs.holds) hprinting hth

/-- While a thread has the lock for writing, no other one is about to print what it has stored. -/
theorem Inv.printing_of_write (hs : Inv s) (hi : s.threads[i]? = some th) (hth : th.mode = .write) :
    s.threads.countP Thread.printing = th.printing.toNat := by
  have hcount := countP_set_add hi Thread.printing { th with pc := .test }
  have hothers : (s.threads.set i { th with pc := .test }).countP Thread.printing = 0 := by
    rw [List.countP_eq_zero]
    intro o ho hprinting
    obtain ⟨j, hj⟩ := List.mem_iff_getElem?.1 ho
    have hwrite := mode_of_printing hprinting
    rcases getElem?_set_cases hj with ⟨-, rfl⟩ | ⟨hji, hj⟩
    · nomatch hwrite
    · nomatch (hs.others_none hi hth hj hji).symm.trans hwrite
  have htest : Thread.printing { th with pc := .test } = false := by simp [Thread.printing]
  rw [hothers, htest, Nat.zero_add] at hcount
  exact hcount.symm

/-- While a thread has the lock for reading, nobody is about to print what it has stored. -/
theorem Inv.printing_of_read (hs : Inv s) (hi : s.threads[i]? = some th) (hth : th.mode = .read) :
    s.threads.countP Thread.printing = 0 := by
  rw [List.countP_eq_zero]
  intro o ho hprinting
  obtain ⟨j, hj⟩ := List.mem_iff_getElem?.1 ho
  exact hs.holds.no_writer (hth ▸ mode_getElem? hi) (mode_of_printing hprinting ▸ mode_getElem? hj)

/-- The store of the increment: nobody else knows the old counter. -/
theorem Inv.store (hs : Inv s) (hi : s.threads[i]? = some th) {loaded : BitVec 32}
    (hpc : th.pc = .store loaded) :
    Inv { s.put i { th with pc := .print } with shared_counter := loaded + 1 } := by
  have hmode : th.mode = .write := by rw [Thread.mode, hpc]
  have hwriter : th.writer = true := (hs.knows i th hi).writer hmode
  have hmode' : Thread.mode { th with pc := .print } = th.mode := hmode.symm ▸ if_pos hwriter
  have hprinting : Thread.printing { th with pc := .print } = true := by simp
    [Thread.printing, hwriter]
  have hnot : th.printing = false := by simp [Thread.printing, hpc]
  have hcount := countP_set_add hi Thread.printing { th with pc := .print }
  rw [hs.printing_of_write hi hmode, hnot, hprinting] at hcount
  have hcounter := hs.counts
  rw [hs.printing_of_write hi hmode, hnot] at hcounter
  refine ⟨?_, ?_, ?_, hs.log⟩
  · have hset : (s.threads.map Thread.mode).set i (Thread.mode { th with pc := .print }) =
        s.threads.map Thread.mode := hmode'.symm ▸ set_eq_self (mode_getElem? hi)
    exact map_mode_set.symm ▸ hset.symm ▸ hs.holds
  · change loaded + 1 = BitVec.ofNat 32
      (writers s.log + (s.threads.set i { th with pc := .print }).countP _)
    have hone : (s.threads.set i { th with pc := .print }).countP Thread.printing = 1 := hcount
    rw [(hs.knows i th hi).loaded loaded hpc, hcounter, hone]
    exact (BitVec.ofNat_add (writers s.log) 1).symm
  · intro j o hj
    rcases getElem?_set_cases hj with ⟨-, rfl⟩ | ⟨hji, hj⟩
    · exact ⟨fun _ => hwriter, nofun⟩
    · exact .of_none (hs.others_none hi hmode hj hji) _

theorem writers_append (log : List Line) (l : Line) :
    writers (log ++ [l]) = writers log + l.writer.toNat := by
  rw [writers, List.countP_append, List.countP_singleton, writers]
  cases l.writer <;> rfl

/-- A line that has the number of the writers' lines up to it. -/
theorem Inv.print (hs : Inv s) (hi : s.threads[i]? = some th) (hpc : th.pc = .print) :
    Inv { s.put i { th with pc := .unlock } with log := s.log ++
      [⟨th.writer, s.shared_counter⟩] } := by
  have hmode : th.mode = if th.writer then .write else .read := by rw [Thread.mode, hpc]
  have hmode' : Thread.mode { th with pc := .unlock } = th.mode := hmode.symm ▸ rfl
  have hall : s.threads.countP Thread.printing = th.writer.toNat := by
    cases hw : th.writer with
    | true =>
      have hprinting : th.printing = true := by simp [Thread.printing, hw, hpc]
      rw [hs.printing_of_write hi (hmode.trans (if_pos hw)), hprinting]
    | false => exact hs.printing_of_read hi (hmode.trans (if_neg (by rw [hw]; nofun)))
  have hnot : Thread.printing { th with pc := .unlock } = false := by simp [Thread.printing]
  have hcount := countP_set_add hi Thread.printing { th with pc := .unlock }
  have hth : th.printing = th.writer := by simp [Thread.printing, hpc]
  rw [hnot, hth, hall] at hcount
  have hvalue : s.shared_counter = BitVec.ofNat 32
      (writers (s.log ++ [⟨th.writer, s.shared_counter⟩])) := by
    rw [writers_append, ← hall]
    exact hs.counts
  refine ⟨?_, ?_, ?_, ?_⟩
  · have hset : (s.threads.map Thread.mode).set i (Thread.mode { th with pc := .unlock }) =
        s.threads.map Thread.mode := hmode'.symm ▸ set_eq_self (mode_getElem? hi)
    exact map_mode_set.symm ▸ hset.symm ▸ hs.holds
  · have hnone : (s.threads.set i { th with pc := .unlock }).countP Thread.printing = 0 := by
      rw [Bool.toNat_false] at hcount
      omega
    refine hvalue.trans (congrArg (BitVec.ofNat 32) ?_)
    change _ = writers _ + (s.threads.set i { th with pc := .unlock }).countP Thread.printing
    rw [hnone]
    rfl
  · intro j o hj
    rcases getElem?_set_cases hj with ⟨-, rfl⟩ | ⟨-, hj⟩
    · refine ⟨fun hwrite => ?_, nofun⟩
      rw [hmode', hmode] at hwrite
      by_contra hw
      rw [if_neg hw] at hwrite
      nomatch hwrite
    · exact hs.knows j o hj
  · intro n l hl
    dsimp only at hl ⊢
    rcases Nat.lt_trichotomy n s.log.length with hlt | rfl | hgt
    · rw [List.getElem?_append_left hlt] at hl
      rw [List.take_append_of_le_length hlt]
      exact hs.log n l hl
    · rw [List.getElem?_append_right (Nat.le_refl _), Nat.sub_self] at hl
      cases hl
      rw [List.take_of_length_le (by simp)]
      exact hvalue
    · rw [List.getElem?_eq_none (by simpa using Nat.succ_le_of_lt hgt)] at hl
      nomatch hl

theorem Inv.thread (hs : Inv s) (hi : s.threads[i]? = some th) (h : threadStep s i th = some s') :
    Inv s' := by
  have hmode := mode_getElem? hi
  have hknows := hs.knows i th hi
  unfold Thread.mode at hmode
  unfold threadStep at h
  cases hpc : th.pc with
  | test =>
    rw [hpc] at h
    cases h
    have hnone : ∀ {pc}, (pc = .returned ∨ pc = .lock) →
        Thread.mode { th with pc := pc } = .none := by
      rintro pc (rfl | rfl) <;> rfl
    have hpc' : ∀ c : Prop, [Decidable c] → (if c then Pc.returned else .lock) = .returned ∨
        (if c then Pc.returned else .lock) = .lock := by
      intro c _
      by_cases hc : c <;> simp [hc]
    apply hs.put_same hi
    · rw [hnone (hpc' _), Thread.mode, hpc]
    · rcases hpc' (i ∈ s.asked ∨ s.stop_threads) with hpc' | hpc' <;> simp
        [Thread.printing, hpc, hpc']
    · exact .of_none (hnone (hpc' _)) _
  | lock =>
    rw [hpc] at h hmode
    dsimp only at h
    split at h
    · next hwriter =>
      obtain ⟨lock, hlock, rfl⟩ := Option.map_eq_some_iff.1 h
      refine hs.put hi (hs.holds.down_write hmode hlock) ?_ ⟨fun _ => hwriter, nofun⟩
      simp [Thread.printing, hpc]
    · next hreader =>
      obtain ⟨lock, hlock, rfl⟩ := Option.map_eq_some_iff.1 h
      have hread : Thread.mode { th with pc := .print } = .read := if_neg hreader
      refine hs.put hi (hread ▸ hs.holds.down_read hmode hlock) ?_ ⟨fun hwrite => ?_, nofun⟩
      · simp [Thread.printing, hpc, hreader]
      · nomatch hread.symm.trans hwrite
  | load =>
    rw [hpc] at h
    cases h
    have hwrite : th.mode = .write := by rw [Thread.mode, hpc]
    refine hs.put_same hi hwrite.symm ?_ ⟨fun _ => hknows.writer hwrite, fun v hv => ?_⟩
    · simp [Thread.printing, hpc]
    · exact (Pc.store.inj hv).symm
  | store loaded =>
    rw [hpc] at h
    cases h
    exact hs.store hi hpc
  | print =>
    rw [hpc] at h
    cases h
    exact hs.print hi hpc
  | unlock =>
    rw [hpc] at h hmode
    cases h
    refine hs.put hi ?_ (by simp [Thread.printing, hpc]) (.of_none rfl _)
    dsimp only at hmode
    split
    · next hwriter => exact hs.holds.up_write (hmode.trans (congrArg some (if_pos hwriter)))
    · next hreader => exact hs.holds.up_read (hmode.trans (congrArg some (if_neg hreader)))
  | returned =>
    rw [hpc] at h
    nomatch h

theorem Inv.step {a : Action} (hs : Inv s) (h : step s a = some s') : Inv s' := by
  cases a with
  | thread i =>
    obtain ⟨th, hi, h⟩ := Option.bind_eq_some_iff.1 h
    exact hs.thread hi h
  | stop | kthread_stop =>
    cases h
    exact ⟨hs.holds, hs.counts, hs.knows, hs.log⟩

theorem Inv.start (roles : List Bool) : Inv (start roles) where
  holds := by
    have hmodes : (Rwspin.start roles).threads.map Thread.mode =
        List.replicate roles.length .none := by
      simp only [Rwspin.start, List.map_map]
      exact List.map_const' ..
    rw [hmodes]
    exact RwSem.Holds.init _
  counts := by
    have hnone : (Rwspin.start roles).threads.countP Thread.printing = 0 := by
      simp [Rwspin.start, Thread.printing]
    rw [hnone]
    rfl
  knows := by
    intro i th hi
    simp only [Rwspin.start, List.getElem?_map] at hi
    obtain ⟨r, -, rfl⟩ := Option.map_eq_some_iff.1 hi
    exact .of_none rfl _
  log := nofun

/-- With any number of readers and writers, and whenever they are stopped, each line has the number
of the lines of writers up to it. -/
theorem log_determined (roles : List Bool) {as : List Action}
    (h : run step (start roles) as = some s) {n : Nat} {l : Line} (hl : s.log[n]? = some l) :
    l.value = BitVec.ofNat 32 (writers (s.log.take (n + 1))) := by
  have hinv : Inv s := run_inv_of_step (fun hs h => hs.step h) (Inv.start roles) h
  exact hinv.log n l hl

/-- A reader prints between two lines of the writer. -/
theorem log_determined_reader :
    (1 : BitVec 32) = BitVec.ofNat 32 (writers [⟨true, 1⟩, ⟨false, 1⟩]) := by
  let as : List Action := (List.replicate 6 (.thread 1) ++ List.replicate 4 (.thread 0) ++
    List.replicate 5 (.thread 1))
  exact @log_determined _ [false, true] as rfl 1 ⟨false, 1⟩ rfl

end LinuxKernelProg.Sync.Rwspin
