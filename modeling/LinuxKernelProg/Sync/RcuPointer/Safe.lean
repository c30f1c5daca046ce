import LinuxKernelProg.Sync.RcuPointer.Basic

/-!
# The pointer is safe

Every record has one owner: the updater, the pointer, the exit, or a callback. A record that waits
for a grace period is one that a section may hold only if it began before, and what is left of the
program that reclaims it says which ones these are (`Module.Pending`).
-/

namespace LinuxKernelProg.Sync.RcuPointer

open LinuxKernelProg.Lib LinuxKernelProg.Lib.Rcu

/-! ## Owners and holders -/

/-- Which sections may hold a record, by what is left to be done to reclaim it. -/
def Module.Pending (m : Module) : List Instr → Nat → Prop
  | .sync :: _, _ => True
  | .wait g :: _, b => b ≤ g
  | .call_rcu :: _, _ => m.waits = true
  | _, _ => False

def Job.owners (m : Module) (job : Job) : List Owner :=
  job.record.toList.map fun r => ⟨r, m.Pending job.prog⟩

/-- Which records the updater is to free. -/
def Updater.Pc.owners (m : Module) : Updater.Pc → List Owner
  | .publish new => [⟨new, fun _ => False⟩]
  | .reclaim job => job.owners m
  | _ => []

/-- Which records the exit is to free: before it takes the last one, it is that of the pointer. -/
def Exit.owners (m : Module) (ptr : Option Nat) : Exit → List Owner
  | .cleanup job => job.owners m
  | .returned => []
  | _ => ptr.toList.map fun r => ⟨r, fun _ => True⟩

def Module.callbackOwners (m : Module) (callbacks : List (Nat × Nat)) : List Owner :=
  callbacks.map fun q => ⟨q.1, fun b => m.waits = true ∧ b ≤ q.2⟩

def Sys.owners (m : Module) (s : Sys) : List Owner :=
  s.updater.pc.owners m ++ (s.exit.owners m s.ptr ++ m.callbackOwners s.callbacks)

def Reader.Pc.hold? : Reader.Pc → Option (Hold Int)
  | .read b r => some ⟨b, r, none⟩
  | .reread b r v => some ⟨b, r, some v⟩
  | _ => none

def Sys.holds (s : Sys) : List (Hold Int) := s.readers.filterMap fun rd => rd.pc.hold?

/-- How many threads the exit has stopped. -/
def Exit.joined (readers : Nat) : Exit → Nat
  | .begin => 0
  | .stop k => k
  | .join k => k
  | .cleanup _ | .returned => readers + 1

structure Inv (m : Module) (s : Sys) : Prop where
  guarded : Guarded s.heap s.next s.frees (s.owners m) s.holds
  began : ∀ rd ∈ s.readers, ∀ b, rd.pc.section? = some b → b ≤ s.clock
  joined : ∀ i < s.exit.joined s.readers.length, s.hasReturned i = true
  no_oops : s.oops = false
  same : ∀ p ∈ s.rereads, p.1 = p.2

variable {m : Module} {s t : Sys} {a : Action} {as : List Action} {job job' : Job}

theorem section_of_hold {pc : Reader.Pc} {h : Hold Int} (hpc : pc.hold? = some h) :
    pc.section? = some h.start := by
  cases pc <;> cases hpc <;> rfl

theorem mem_holds {h : Hold Int} (hh : h ∈ s.holds) :
    ∃ rd ∈ s.readers, rd.pc.section? = some h.start := by
  obtain ⟨rd, hrd, hpc⟩ := List.mem_filterMap.1 hh
  exact ⟨rd, hrd, section_of_hold hpc⟩

theorem Inv.start_le (hs : Inv m s) {h : Hold Int} (hh : h ∈ s.holds) : h.start ≤ s.clock := by
  obtain ⟨rd, hrd, hsec⟩ := mem_holds hh
  exact hs.began rd hrd _ hsec

/-- When a grace period is over, a section that holds a record began after its start. -/
theorem lt_start_of_elapsed {g : Nat} (hg : s.elapsed g = true) {h : Hold Int} (hh : h ∈ s.holds) :
    g < h.start := by
  obtain ⟨rd, hrd, hsec⟩ := mem_holds hh
  have hall := List.all_eq_true.1 hg rd hrd
  rw [hsec] at hall
  exact of_decide_eq_true hall

/-- An updater that has not returned has not been stopped. -/
theorem Inv.joined_eq_zero (hs : Inv m s) (hpc : s.updater.pc ≠ .returned) :
    s.exit.joined s.readers.length = 0 := by
  by_contra hne
  exact hpc (of_decide_eq_true (hs.joined 0 (Nat.pos_of_ne_zero hne)))

/-- As long as a thread runs, the pointer owns its record. -/
theorem exit_owners_of_joined {n : Nat} {e : Exit} (h : e.joined n ≤ n) (ptr : Option Nat) :
    e.owners m ptr = ptr.toList.map fun r => ⟨r, fun _ => True⟩ := by
  cases e with
  | cleanup job => exact absurd h (Nat.not_succ_le_self n)
  | returned => exact absurd h (Nat.not_succ_le_self n)
  | _ => rfl

theorem Inv.exit_owners (hs : Inv m s) (hpc : s.updater.pc ≠ .returned) (ptr : Option Nat) :
    s.exit.owners m ptr = ptr.toList.map fun r => ⟨r, fun _ => True⟩ :=
  exit_owners_of_joined ((hs.joined_eq_zero hpc).trans_le (Nat.zero_le _)) ptr

/-! ## The program that reclaims a record -/

/-- The record of a pointer may be held by every section, so every reclaiming program has to
wait. -/
theorem pending_reclaim (m : Module) (b : Nat) : m.Pending m.reclaim b := by
  cases m <;> trivial

/-- Another program is left for the record, which lets the same sections hold it. -/
theorem guarded_prog {heap : Nat → Option Int} {next : Nat} {frees : List Nat} {os : List Owner}
    {holds : List (Hold Int)} {r : Option Nat} {is is' : List Instr}
    (hg : Guarded heap next frees (Job.owners m ⟨r, is⟩ ++ os) holds)
    (hmay : ∀ h ∈ holds, m.Pending is h.start → m.Pending is' h.start) :
    Guarded heap next frees (Job.owners m ⟨r, is'⟩ ++ os) holds := by
  cases r with
  | none => exact hg
  | some r => exact hg.handOver _ hmay

theorem callbackOwners_append (m : Module) (callbacks : List (Nat × Nat)) (q : Nat × Nat) :
    m.callbackOwners (callbacks ++ [q]) =
      m.callbackOwners callbacks ++ [⟨q.1, fun b => m.waits = true ∧ b ≤ q.2⟩] := List.map_append

/-- One statement of such a program keeps the record from being freed too early, or twice. -/
theorem guarded_work (hs : Inv m s) {os : List Owner}
    (hg : Guarded s.heap s.next s.frees
      (job.owners m ++ (os ++ m.callbackOwners s.callbacks)) s.holds)
    (h : s.work job = some (t, job')) :
    Guarded t.heap t.next t.frees
      (job'.owners m ++ (os ++ m.callbackOwners t.callbacks)) s.holds := by
  obtain ⟨r, is⟩ := job
  match is with
  | [] => nomatch h
  | .sync :: is =>
    cases h
    exact guarded_prog hg fun _ hh _ => hs.start_le hh
  | .wait g :: is =>
    simp only [Sys.work] at h
    split at h
    · next helapsed =>
      cases h
      -- the sections that might hold it have ended
      exact guarded_prog hg fun _ hh hle =>
        absurd hle (Nat.not_le_of_lt (lt_start_of_elapsed helapsed hh))
    · nomatch h
  | .kfree :: is =>
    cases h
    cases r with
    | none => exact hg
    | some r => exact hg.free fun _ _ => id
  | .call_rcu :: is =>
    cases h
    cases r with
    | none => exact hg
    | some r =>
      have hcallback := hg.handOver (fun b => m.waits = true ∧ b ≤ s.clock)
        fun _ hh hwaits => ⟨hwaits, hs.start_le hh⟩
      apply hcallback.perm
      change List.Perm _ (os ++ m.callbackOwners (s.callbacks ++ [(r, s.clock)]))
      rw [callbackOwners_append, ← List.append_assoc]
      exact (List.perm_append_singleton ..).symm

theorem work_frame (h : s.work job = some (t, job')) :
    t.readers = s.readers ∧ t.updater = s.updater ∧ t.exit = s.exit ∧ t.ptr = s.ptr ∧
      t.oops = s.oops ∧ t.rereads = s.rereads ∧ t.clock = s.clock := by
  obtain ⟨r, is⟩ := job
  match is with
  | [] => nomatch h
  | .sync :: is =>
    cases h
    exact ⟨rfl, rfl, rfl, rfl, rfl, rfl, rfl⟩
  | .wait g :: is =>
    simp only [Sys.work] at h
    split at h
    · cases h
      exact ⟨rfl, rfl, rfl, rfl, rfl, rfl, rfl⟩
    · nomatch h
  | .kfree :: is | .call_rcu :: is =>
    cases h
    cases r <;> exact ⟨rfl, rfl, rfl, rfl, rfl, rfl, rfl⟩

/-! ## The steps -/

/-- The updater leaves the readers and the exit alone, and never clears the pointer. -/
theorem updater_frame {random : Option (BitVec 32)} (h : s.updater_step m random = some t) :
    s.updater.pc ≠ .returned ∧ t.readers = s.readers ∧ t.exit = s.exit ∧ t.clock = s.clock ∧
      t.oops = s.oops ∧ t.rereads = s.rereads ∧ (s.ptr ≠ none → t.ptr ≠ none) := by
  unfold Sys.updater_step at h
  cases hpc : s.updater.pc <;> rw [hpc] at h <;> simp only at h
  case test =>
    cases h
    exact ⟨nofun, rfl, rfl, rfl, rfl, rfl, id⟩
  case kmalloc =>
    cases random <;> cases h <;> exact ⟨nofun, rfl, rfl, rfl, rfl, rfl, id⟩
  case publish new =>
    split at h <;> cases h <;> exact ⟨nofun, rfl, rfl, rfl, rfl, rfl, fun _ => nofun⟩
  case reclaim job =>
    split at h
    · cases h
      exact ⟨nofun, rfl, rfl, rfl, rfl, rfl, id⟩
    · obtain ⟨⟨u, job'⟩, hwork, rfl⟩ := Option.map_eq_some_iff.1 h
      obtain ⟨hreaders, -, hexit, hptr, hoops, hrereads, hclock⟩ := work_frame hwork
      exact ⟨nofun, hreaders, hexit, hclock, hoops, hrereads, fun hs => hptr ▸ hs⟩
  case returned => nomatch h

/-- After a step of the updater, the owners are what there is to see to. -/
theorem Inv.of_updater {random : Option (BitVec 32)} (hs : Inv m s)
    (h : s.updater_step m random = some t)
    (hg : Guarded t.heap t.next t.frees (t.owners m) s.holds) : Inv m t.tick := by
  obtain ⟨hpc, hreaders, hexit, hclock, hoops, hrereads, -⟩ := updater_frame h
  refine ⟨?_, ?_, ?_, hoops.trans hs.no_oops, fun p hp => hs.same p (hrereads ▸ hp)⟩
  · have hholds : t.tick.holds = s.holds := congrArg (List.filterMap _) hreaders
    rw [hholds]
    exact hg
  · intro rd hrd b hb
    change rd ∈ t.readers at hrd
    rw [hreaders] at hrd
    exact Nat.le_succ_of_le (hclock ▸ hs.began rd hrd b hb)
  · intro i hi
    change i < t.exit.joined t.readers.length at hi
    rw [hexit, hreaders, hs.joined_eq_zero hpc] at hi
    nomatch hi

/-- The pointer is changed by an updater that has prepared a new record. -/
theorem guarded_publish {new : Nat} (hs : Inv m s) (hpc : s.updater.pc = .publish new) :
    Guarded s.heap s.next s.frees
      (Job.owners m ⟨s.ptr, m.reclaim⟩ ++ (⟨new, fun _ => True⟩ :: m.callbackOwners s.callbacks))
      s.holds := by
  have hg := hs.guarded
  rw [Sys.owners, hs.exit_owners (hpc ▸ nofun), hpc] at hg
  have hnew := hg.handOver (fun _ => True) fun _ _ _ => trivial
  cases hptr : s.ptr with
  | none =>
    rw [hptr] at hnew
    exact hnew
  | some old =>
    rw [hptr] at hnew
    exact (hnew.perm (List.Perm.swap ..)).handOver _ fun h _ _ => pending_reclaim m h.start

/-- What the updater is to free after its step. -/
theorem updater_guarded {random : Option (BitVec 32)} (hs : Inv m s)
    (h : s.updater_step m random = some t) :
    Guarded t.heap t.next t.frees (t.owners m) s.holds := by
  have hg := hs.guarded
  unfold Sys.owners at hg
  unfold Sys.updater_step at h
  cases hpc : s.updater.pc <;> rw [hpc] at h hg <;> simp only at h
  case test =>
    cases h
    unfold Sys.owners
    change Guarded _ _ _ (Updater.Pc.owners m (if _ then _ else _) ++ _) _
    split <;> exact hg
  case kmalloc =>
    cases random with
    | none =>
      cases h
      exact hg
    | some random =>
      cases h
      exact hg.alloc _
  case publish new =>
    have hpublish := guarded_publish hs hpc
    split at h
    · next hptr =>
      cases h
      rw [hptr] at hpublish
      unfold Sys.owners
      change Guarded _ _ _ ([] ++ (s.exit.owners m (some new) ++ _)) _
      rw [hs.exit_owners (hpc ▸ nofun)]
      exact hpublish
    · next old hptr =>
      cases h
      rw [hptr] at hpublish
      unfold Sys.owners
      change Guarded _ _ _ (_ ++ (s.exit.owners m (some new) ++ _)) _
      rw [hs.exit_owners (hpc ▸ nofun)]
      exact hpublish
  case reclaim job =>
    split at h
    · next hprog =>
      cases h
      obtain ⟨r, is⟩ := job
      obtain rfl : is = [] := hprog
      cases r with
      | none => exact hg
      | some r => exact hg.drop fun _ _ => id
    · obtain ⟨⟨u, job'⟩, hwork, rfl⟩ := Option.map_eq_some_iff.1 h
      obtain ⟨-, -, hexit, hptr, -, -, -⟩ := work_frame hwork
      have hdone := guarded_work hs hg hwork
      unfold Sys.owners
      change Guarded u.heap u.next u.frees (job'.owners m ++ (u.exit.owners m u.ptr ++ _)) s.holds
      rw [hexit, hptr]
      exact hdone
  case returned => nomatch h

section

variable {i : Nat} {rd rd' : Thread Reader.Pc}

theorem hold_mem (hi : s.readers[i]? = some rd) {h : Hold Int} (hpc : rd.pc.hold? = some h) :
    h ∈ s.holds := List.mem_filterMap.2 ⟨rd, List.mem_of_getElem? hi, hpc⟩

/-- While a reader runs, the exit has not come past it. -/
theorem Inv.joined_le (hs : Inv m s) (hi : s.readers[i]? = some rd) (hpc : rd.pc ≠ .returned) :
    s.exit.joined s.readers.length ≤ i + 1 := by
  by_contra hlt
  have hret := hs.joined (i + 1) (Nat.lt_of_not_le hlt)
  rw [Sys.hasReturned, hi, Option.all_some] at hret
  exact hpc (of_decide_eq_true hret)

/-- A step of a reader, to a place where it may hold what it holds. -/
theorem Inv.of_reader (hs : Inv m s) (hi : s.readers[i]? = some rd) (hpc : rd.pc ≠ .returned)
    (hsection : ∀ b, rd'.pc.section? = some b → b ≤ s.clock + 1)
    (hhold : ∀ h, rd'.pc.hold? = some h → (∃ o ∈ s.owners m, o.record = h.record ∧ o.may h.start) ∧
      ∀ v, h.seen = some v → s.heap h.record = some v) : Inv m (s.set_reader i rd').tick where
  guarded := by
    refine hs.guarded.sections fun h hh => ?_
    obtain ⟨o, ho, hpc⟩ := List.mem_filterMap.1 hh
    rcases List.mem_or_eq_of_mem_set ho with ho | rfl
    · have hmem : h ∈ s.holds := List.mem_filterMap.2 ⟨o, ho, hpc⟩
      exact ⟨hs.guarded.held h hmem, hs.guarded.seen h hmem⟩
    · exact hhold h hpc
  began := by
    intro o ho b hb
    rcases List.mem_or_eq_of_mem_set ho with ho | rfl
    · exact Nat.le_succ_of_le (hs.began o ho b hb)
    · exact hsection b hb
  joined := by
    intro j hj
    have hj' : j < s.exit.joined s.readers.length := by
      rwa [← List.length_set (i := i) (a := rd')]
    have hret := hs.joined j hj'
    cases j with
    | zero => exact hret
    | succ k =>
      have hki : i ≠ k := by
        rintro rfl
        exact absurd hj' (Nat.not_lt_of_le (hs.joined_le hi hpc))
      change ((s.readers.set i rd')[k]?).all _ = true
      rw [List.getElem?_set_ne hki]
      exact hret
  no_oops := hs.no_oops
  same := hs.same

theorem reader_inv (hs : Inv m s) (hi : s.readers[i]? = some rd)
    (h : s.reader_step m i rd = some t) : Inv m t.tick := by
  have hlt := (List.getElem?_eq_some_iff.1 hi).1
  have hbegan : ∀ {b}, rd.pc.section? = some b → b ≤ s.clock + 1 := fun hb =>
    Nat.le_succ_of_le (hs.began rd (List.mem_of_getElem? hi) _ hb)
  unfold Sys.reader_step at h
  cases hpc : rd.pc <;> rw [hpc] at h hbegan <;> simp only at h
  case test =>
    cases h
    refine hs.of_reader hi (hpc ▸ nofun) ?_ ?_
    · split <;> nofun
    · split <;> nofun
  case lock =>
    cases h
    refine hs.of_reader hi (hpc ▸ nofun) ?_ nofun
    rintro b hb
    cases hb
    exact Nat.le_refl _
  case deref b =>
    split at h
    · cases h
      exact hs.of_reader hi (hpc ▸ nofun) (fun _ hb => hbegan hb) nofun
    · next r hptr =>
      cases h
      refine hs.of_reader hi (hpc ▸ nofun) (fun _ hb => hbegan hb) ?_
      rintro _ ⟨⟩
      refine ⟨⟨⟨r, fun _ => True⟩, ?_, rfl, trivial⟩, nofun⟩
      have howners := exit_owners_of_joined (m := m)
        ((hs.joined_le hi (hpc ▸ nofun)).trans hlt) s.ptr
      refine List.mem_append_right _ (List.mem_append_left _ ?_)
      rw [howners, hptr]
      exact List.mem_singleton_self _
  case read b r =>
    have hhold : ⟨b, r, none⟩ ∈ s.holds := hold_mem hi (by rw [hpc]; rfl)
    split at h
    · next hfreed =>
      exact absurd hfreed (Option.isSome_iff_ne_none.1 (hs.guarded.live_of_hold hhold))
    · next v hv =>
      cases h
      refine hs.of_reader hi (hpc ▸ nofun) ?_ ?_
      · split <;> exact fun _ hb => hbegan hb
      · have howner := hs.guarded.held _ hhold
        split
        · rintro _ ⟨⟩
          refine ⟨howner, ?_⟩
          rintro _ ⟨⟩
          exact hv
        · nofun
  case reread b r v =>
    have hhold : ⟨b, r, some v⟩ ∈ s.holds := hold_mem hi (by rw [hpc]; rfl)
    have hv := hs.guarded.seen _ hhold v rfl
    split at h
    · next hfreed => nomatch hv.symm.trans hfreed
    · next w hw =>
      cases h
      have hread : Inv m (s.set_reader i { rd with pc := .unlock b }).tick :=
        hs.of_reader hi (hpc ▸ nofun) (fun _ hb => hbegan hb) nofun
      refine ⟨hread.guarded, hread.began, hread.joined, hread.no_oops, fun p hp => ?_⟩
      rcases List.mem_cons.1 hp with rfl | hp
      · exact Option.some.inj (hv.symm.trans hw)
      · exact hs.same p hp
  case unlock b =>
    cases h
    exact hs.of_reader hi (hpc ▸ nofun) nofun nofun
  case returned => nomatch h

end

/-- A step of the exit, which moves no thread. -/
theorem Inv.of_exit (hs : Inv m s) (hreaders : t.readers.map Thread.pc = s.readers.map Thread.pc)
    (hupdater : t.updater.pc = s.updater.pc)
    (hjoined : ∀ i < t.exit.joined s.readers.length, s.hasReturned i = true)
    (hclock : t.clock = s.clock) (hoops : t.oops = s.oops) (hrereads : t.rereads = s.rereads)
    (hg : Guarded t.heap t.next t.frees (t.owners m) s.holds) : Inv m t.tick where
  guarded := by
    have hholds : t.tick.holds = s.holds := by
      have hfilter (l : List (Thread Reader.Pc)) :
          (l.filterMap fun rd => rd.pc.hold?) = (l.map Thread.pc).filterMap Reader.Pc.hold? := by
        rw [List.filterMap_map]
        rfl
      change t.readers.filterMap _ = s.readers.filterMap _
      rw [hfilter, hfilter, hreaders]
    rw [hholds]
    exact hg
  began := by
    intro rd hrd b hb
    have hmem : rd.pc ∈ s.readers.map Thread.pc := hreaders ▸ List.mem_map_of_mem hrd
    obtain ⟨rd', hrd', hpc⟩ := List.mem_map.1 hmem
    exact Nat.le_succ_of_le (hclock ▸ hs.began rd' hrd' b (hpc.symm ▸ hb))
  joined := by
    intro i hi
    have hlength : t.readers.length = s.readers.length := by
      rw [← List.length_map (f := Thread.pc), hreaders, List.length_map]
    have hret := hjoined i (hlength ▸ hi)
    cases i with
    | zero => exact (congrArg (fun pc => decide (pc = Updater.Pc.returned)) hupdater).trans hret
    | succ i =>
      have hall (l : List (Thread Reader.Pc)) : ((l[i]?).all fun rd => decide (rd.pc = .returned)) =
          ((l.map Thread.pc)[i]?).all fun pc => decide (pc = .returned) := by
        rw [List.getElem?_map, Option.all_map]
      change ((t.readers[i]?).all _) = true
      rw [hall, hreaders, ← hall]
      exact hret
  no_oops := hoops.trans hs.no_oops
  same := fun p hp => hs.same p (hrereads ▸ hp)

/-- Once all threads have returned, no section is open. -/
theorem holds_of_joined (h : ∀ i < s.readers.length + 1, s.hasReturned i = true) :
    s.updater.pc = .returned ∧ s.holds = [] := by
  refine ⟨of_decide_eq_true (h 0 (Nat.succ_pos _)), List.filterMap_eq_nil_iff.2 fun rd hrd => ?_⟩
  obtain ⟨i, hi⟩ := List.mem_iff_getElem?.1 hrd
  have hret := h (i + 1) (Nat.succ_lt_succ (List.getElem?_eq_some_iff.1 hi).1)
  rw [Sys.hasReturned, hi, Option.all_some] at hret
  rw [of_decide_eq_true hret]
  rfl

/-- A stop flag moves no thread. -/
theorem set_stop_pc (s : Sys) (k : Nat) :
    (s.set_stop k).readers.map Thread.pc = s.readers.map Thread.pc := by
  change (s.readers.mapIdx _).map _ = _
  apply List.ext_getElem?
  intro i
  rw [List.getElem?_map, List.getElem?_map, List.getElem?_mapIdx]
  cases s.readers[i]? <;> rfl

/-- The exit takes the record of the pointer, which nobody holds any more. -/
theorem guarded_take (hs : Inv m s)
    (hexit : s.exit.owners m s.ptr = s.ptr.toList.map fun r => ⟨r, fun _ => True⟩)
    (hall : ∀ i < s.readers.length + 1, s.hasReturned i = true) :
    Guarded s.heap s.next s.frees
      (s.updater.pc.owners m ++
        (Job.owners m ⟨s.ptr, m.cleanup s.ptr⟩ ++ m.callbackOwners s.callbacks))
      s.holds := by
  obtain ⟨hupdater, hholds⟩ := holds_of_joined hall
  have hg := hs.guarded
  rw [Sys.owners, hexit, hupdater] at hg
  rw [hupdater]
  cases hptr : s.ptr with
  | none =>
    rw [hptr] at hg
    exact hg
  | some r =>
    rw [hptr] at hg
    refine hg.handOver _ fun h hh => ?_
    rw [hholds] at hh
    nomatch hh

theorem exit_inv (hs : Inv m s) (h : s.exit_step m = some t) : Inv m t.tick := by
  have hg := hs.guarded
  have hjoined := hs.joined
  unfold Sys.owners at hg
  unfold Sys.exit_step at h
  cases hexit : s.exit <;> rw [hexit] at h hg hjoined <;> simp only at h
  case begin =>
    cases h
    exact hs.of_exit rfl rfl (fun _ hi => nomatch hi) rfl rfl rfl hg
  case stop k =>
    split at h
    · cases h
      exact hs.of_exit (set_stop_pc s k) rfl hjoined rfl rfl rfl hg
    · next hlast =>
      cases h
      have hall : ∀ i < s.readers.length + 1, s.hasReturned i = true := fun i hi =>
        hjoined i (Nat.lt_of_lt_of_le hi (Nat.lt_of_not_le hlast))
      exact hs.of_exit rfl rfl hall rfl rfl rfl (guarded_take hs (by rw [hexit]; rfl) hall)
  case join k =>
    split at h
    · next hret =>
      cases h
      refine hs.of_exit rfl rfl (fun i hi => ?_) rfl rfl rfl hg
      rcases Nat.lt_succ_iff_lt_or_eq.1 hi with hlt | rfl
      · exact hjoined i hlt
      · exact hret
    · nomatch h
  case cleanup job =>
    have hall : ∀ i < s.readers.length + 1, s.hasReturned i = true := hjoined
    rw [(holds_of_joined hall).1] at hg
    split at h
    · next hprog =>
      cases h
      refine hs.of_exit rfl rfl hall rfl rfl rfl ?_
      obtain ⟨r, is⟩ := job
      obtain rfl : is = [] := hprog
      unfold Sys.owners
      change Guarded _ _ _ (s.updater.pc.owners m ++ _) _
      rw [(holds_of_joined hall).1]
      cases r with
      | none => exact hg
      | some r => exact hg.drop fun _ _ => id
    · obtain ⟨⟨u, job'⟩, hwork, rfl⟩ := Option.map_eq_some_iff.1 h
      obtain ⟨hreaders, hupdater, -, hptr, hoops, hrereads, hclock⟩ := work_frame hwork
      refine hs.of_exit (congrArg _ hreaders) (congrArg _ hupdater) hall hclock hoops hrereads ?_
      have hdone : Guarded u.heap u.next u.frees
          (job'.owners m ++ ([] ++ m.callbackOwners u.callbacks)) s.holds :=
        guarded_work hs hg hwork
      unfold Sys.owners
      change Guarded _ _ _ (u.updater.pc.owners m ++ _) _
      rw [hupdater, (holds_of_joined hall).1]
      exact hdone
  case returned => nomatch h

theorem callback_inv {q : Nat × Nat} (hs : Inv m s) (h : s.callback_step m q = some t) :
    Inv m t.tick := by
  unfold Sys.callback_step at h
  split at h
  · next hq =>
    cases h
    refine hs.of_exit rfl rfl hs.joined rfl rfl rfl ?_
    have hp : (s.owners m).Perm (⟨q.1, fun b => m.waits = true ∧ b ≤ q.2⟩ ::
        (s.updater.pc.owners m ++
          (s.exit.owners m s.ptr ++ m.callbackOwners (s.callbacks.erase q)))) := by
      have hcallbacks := (List.perm_cons_erase (List.contains_iff_mem.1 hq.1)).map
        fun q => (⟨q.1, fun b => m.waits = true ∧ b ≤ q.2⟩ : Owner)
      refine List.Perm.trans ((hcallbacks.append_left _).append_left _) ?_
      rw [List.map_cons]
      exact (List.perm_middle.append_left _).trans List.perm_middle
    refine (hs.guarded.perm hp).free fun h hh hmay => ?_
    exact absurd hmay.2 (Nat.not_le_of_lt (lt_start_of_elapsed (hq.2 hmay.1) hh))
  · nomatch h

theorem step_inv (hs : Inv m s) (h : s.step m a = some t) : Inv m t := by
  obtain ⟨u, hu, rfl⟩ := Option.map_eq_some_iff.1 h
  cases a with
  | updater random => exact hs.of_updater hu (updater_guarded hs hu)
  | reader i =>
    obtain ⟨rd, hi, hrd⟩ := Option.bind_eq_some_iff.1 hu
    exact reader_inv hs hi hrd
  | exit => exact exit_inv hs hu
  | callback q => exact callback_inv hs hu

theorem holds_init (m : Module) (readers : Nat) : (Sys.init m readers).holds = [] :=
  List.filterMap_eq_nil_iff.2 fun rd hrd => by
    rw [List.eq_of_mem_replicate hrd]
    rfl

theorem guarded_init (m : Module) (readers : Nat) :
    Guarded (Sys.init m readers).heap 1 [] ((Sys.init m readers).owners m) [] := by
  cases m with
  | srcu =>
    refine ⟨List.nodup_singleton 0, ?_, ?_, nofun, nofun⟩
    · intro r hr
      rw [List.mem_singleton.1 hr]
      exact Nat.one_pos
    · intro o ho
      rw [List.mem_singleton.1 ho]
      rfl
  | rctest => exact Guarded.init _ _
  | rcasync => exact Guarded.init _ _

theorem inv_init (m : Module) (readers : Nat) : Inv m (.init m readers) where
  guarded := (holds_init m readers).symm ▸ guarded_init m readers
  began := by
    intro rd hrd b hb
    rw [List.eq_of_mem_replicate hrd] at hb
    nomatch hb
  joined := nofun
  no_oops := rfl
  same := nofun

theorem Inv.safe (hs : Inv m s) : Safe s where
  no_oops := hs.no_oops
  same := hs.same
  frees_once := (List.nodup_append.1 hs.guarded.nodup).2.1

/-- **The published pointer** is safe in each of the modules, with any number of readers. -/
theorem published_safe (m : Module) (readers : Nat) (as : List Action)
    (h : run (Sys.step m) (.init m readers) as = some s) : Safe s :=
  (run_inv_of_step step_inv (inv_init m readers) h).safe

/-- A reader sleeps in its section, and holds the first record up: the updater waits for it, and a
callback frees the record. -/
def sleeper : List Action :=
  [.reader 0, .reader 0, .reader 0, .reader 0, .updater none, .updater (some 7),
    .updater none, .updater none,
    .reader 0, .reader 0, .updater none, .updater none, .callback (0, 11)]

theorem published_safe_sleeper : ∃ s, run (Sys.step .srcu) (.init .srcu 1) sleeper = some s ∧
    s.rereads = [(0, 0)] ∧ s.frees = [0] ∧ Safe s :=
  ⟨_, rfl, rfl, rfl, published_safe .srcu 1 sleeper rfl⟩

end LinuxKernelProg.Sync.RcuPointer
