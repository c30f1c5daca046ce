import LinuxKernelProg.Lib.Ledger
import LinuxKernelProg.Sync.RcuPointer.Safe

/-!
# The callbacks of the pointer at the unload

A module that reclaims its records by callbacks owes one for each record the updater allocates: the
record replaces an old one that is queued, or, in `kthread_rcasync.c`, the first record, and then
the exit queues the last. `srcu_example.c` starts with a record and frees the last one itself.
-/

namespace LinuxKernelProg.Sync.RcuPointer

open LinuxKernelProg.Lib

/-- What is left of the program queues its record. -/
def queues : List Instr → Bool
  | [] => false
  | .sync :: is => queues is
  | .wait _ :: is => queues is
  | .kfree :: _ => false
  | .call_rcu :: _ => true

def Job.queues (job : Job) : Bool := job.record.isSome && RcuPointer.queues job.prog

/-- How many records of the updater will be queued. -/
def Updater.Pc.hand (m : Module) : Updater.Pc → Nat
  | .publish _ => (queues m.reclaim).toNat
  | .reclaim job => job.queues.toNat
  | _ => 0

def Exit.hand : Exit → Nat
  | .cleanup job => job.queues.toNat
  | _ => 0

/-- The records that will be queued: those of the updater, the exit, and the pointer. -/
def Sys.hand (m : Module) (s : Sys) : Nat :=
  s.updater.pc.hand m + s.exit.hand + (queues (m.cleanup s.ptr)).toNat

/-- Unless the updater frees its records itself, a callback is owed for each record it allocates. -/
def Updater.Pc.owes (m : Module) : Updater.Pc → Option (BitVec 32) → Bool
  | .kmalloc, some _ => queues m.reclaim
  | _, _ => false

/-- A module from its loading on. -/
def unload (m : Module) (readers : Nat) : Unload (Nat × Nat) where
  State := Sys
  Action := Action
  step := Sys.step m
  init := .init m readers
  returned s := s.exit = .returned
  pending := Sys.callbacks
  callback
    | .callback _ => true
    | _ => false
  owes s
    | .updater random => s.updater.pc.owes m random
    | _ => false

variable {m : Module} {s t : Sys} {a : Action} {job job' : Job}

theorem work_due (h : s.work job = some (t, job')) :
    t.callbacks.length + job'.queues.toNat = s.callbacks.length + job.queues.toNat := by
  obtain ⟨r, is⟩ := job
  match is with
  | [] => cases h
  | .sync :: is =>
    cases h
    rfl
  | .wait g :: is =>
    simp only [Sys.work] at h
    split at h
    · cases h
      rfl
    · cases h
  | .kfree :: is =>
    cases h
    cases r <;> rfl
  | .call_rcu :: is =>
    cases h
    cases r with
    | none => rfl
    | some r =>
      change (s.callbacks ++ [(r, s.clock)]).length + 0 = s.callbacks.length + 1
      rw [List.length_append]
      rfl

theorem reader_frame {i : Nat} {rd : Thread Reader.Pc} (h : s.reader_step m i rd = some t) :
    t.updater = s.updater ∧ t.exit = s.exit ∧ t.ptr = s.ptr ∧ t.callbacks = s.callbacks := by
  unfold Sys.reader_step at h
  split at h
  case h_3 =>
    split at h <;> cases h <;> exact ⟨rfl, rfl, rfl, rfl⟩
  case h_4 =>
    split at h <;> cases h <;> exact ⟨rfl, rfl, rfl, rfl⟩
  case h_5 =>
    split at h <;> cases h <;> exact ⟨rfl, rfl, rfl, rfl⟩
  case h_7 => nomatch h
  all_goals
    cases h
    exact ⟨rfl, rfl, rfl, rfl⟩

/-- The exit has taken the record of the pointer. -/
def Exit.took : Exit → Bool
  | .cleanup _ | .returned => true
  | _ => false

/-- What is known of the pointer: `srcu_example.c` starts with a record, and `kthread_rcasync.c` has
none left once the exit has taken it. -/
structure Known (m : Module) (s : Sys) : Prop extends Inv m s where
  loaded : m = .srcu → s.ptr ≠ none
  taken : s.exit.took → m.clears → s.ptr = none

/-- Publishing turns the record of the updater into one that is to be queued, or one the exit will
queue. -/
theorem publish_due (hs : m = .srcu → s.ptr ≠ none) (new : Nat) :
    (queues (m.cleanup (some new))).toNat + (Job.queues ⟨s.ptr, m.reclaim⟩).toNat =
      (queues m.reclaim).toNat + (queues (m.cleanup s.ptr)).toNat := by
  cases hptr : s.ptr with
  | some old => cases m <;> rfl
  | none =>
    cases m with
    | srcu => exact absurd hptr (hs rfl)
    | rctest => rfl
    | rcasync => rfl

theorem take_due (m : Module) (ptr : Option Nat) :
    (Job.queues ⟨ptr, m.cleanup ptr⟩).toNat +
      (queues (m.cleanup (if m.clears then none else ptr))).toNat =
      (queues (m.cleanup ptr)).toNat := by
  cases m <;> cases ptr <;> rfl

theorem updater_due {random : Option (BitVec 32)} (hs : Known m s)
    (h : s.updater_step m random = some t) :
    t.callbacks.length + t.hand m =
      s.callbacks.length + s.hand m + (s.updater.pc.owes m random).toNat := by
  unfold Sys.updater_step at h
  unfold Sys.hand
  cases hpc : s.updater.pc <;> rw [hpc] at h <;> simp only at h
  case test =>
    cases h
    change _ + (Updater.Pc.hand m (if _ then _ else _) + _ + _) = _
    split <;> rfl
  case kmalloc =>
    cases random with
    | none =>
      cases h
      rfl
    | some random =>
      cases h
      change s.callbacks.length +
        ((queues m.reclaim).toNat + s.exit.hand + (queues (m.cleanup s.ptr)).toNat) =
        s.callbacks.length + (0 + s.exit.hand + _) + (queues m.reclaim).toNat
      omega
  case publish new =>
    have hdue := publish_due hs.loaded new
    split at h
    · next hptr =>
      cases h
      rw [hptr] at hdue ⊢
      change _ + 0 = _ at hdue
      change s.callbacks.length + (0 + s.exit.hand + (queues (m.cleanup (some new))).toNat) =
        s.callbacks.length + ((queues m.reclaim).toNat + s.exit.hand + _) + 0
      omega
    · next old hptr =>
      cases h
      rw [hptr] at hdue ⊢
      change s.callbacks.length + ((Job.queues ⟨some old, m.reclaim⟩).toNat + s.exit.hand +
        (queues (m.cleanup (some new))).toNat) =
        s.callbacks.length + ((queues m.reclaim).toNat + s.exit.hand + _) + 0
      omega
  case reclaim job =>
    split at h
    · next hprog =>
      cases h
      obtain ⟨r, is⟩ := job
      obtain rfl : is = [] := hprog
      cases r <;> rfl
    · obtain ⟨⟨u, job'⟩, hwork, rfl⟩ := Option.map_eq_some_iff.1 h
      obtain ⟨-, -, hexit, hptr, -, -, -⟩ := work_frame hwork
      have hdue := work_due hwork
      change u.callbacks.length +
        (job'.queues.toNat + u.exit.hand + (queues (m.cleanup u.ptr)).toNat) =
        s.callbacks.length + (job.queues.toNat + s.exit.hand + _) + 0
      rw [hexit, hptr]
      omega
  case returned => nomatch h

theorem exit_due (h : s.exit_step m = some t) :
    t.callbacks.length + t.hand m = s.callbacks.length + s.hand m := by
  unfold Sys.exit_step at h
  unfold Sys.hand
  cases hexit : s.exit <;> rw [hexit] at h <;> simp only at h
  case begin =>
    cases h
    rfl
  case stop k =>
    split at h
    · cases h
      rfl
    · cases h
      have hdue := take_due m s.ptr
      change s.callbacks.length +
        (s.updater.pc.hand m + (Job.queues ⟨s.ptr, m.cleanup s.ptr⟩).toNat +
        (queues (m.cleanup (if m.clears then none else s.ptr))).toNat) =
        s.callbacks.length + (s.updater.pc.hand m + 0 + _)
      omega
  case join k =>
    split at h
    · cases h
      rfl
    · nomatch h
  case cleanup job =>
    split at h
    · next hprog =>
      cases h
      obtain ⟨r, is⟩ := job
      obtain rfl : is = [] := hprog
      cases r <;> rfl
    · obtain ⟨⟨u, job'⟩, hwork, rfl⟩ := Option.map_eq_some_iff.1 h
      obtain ⟨-, hupdater, -, hptr, -, -, -⟩ := work_frame hwork
      have hdue := work_due hwork
      change u.callbacks.length +
        (u.updater.pc.hand m + job'.queues.toNat + (queues (m.cleanup u.ptr)).toNat) =
        s.callbacks.length + (s.updater.pc.hand m + job.queues.toNat + _)
      rw [hupdater, hptr]
      omega
  case returned => nomatch h

theorem callback_due {q : Nat × Nat} (h : s.callback_step m q = some t) :
    t.callbacks.length + t.hand m + 1 = s.callbacks.length + s.hand m := by
  unfold Sys.callback_step at h
  split at h
  · next hq =>
    cases h
    have hlength := List.length_erase_add_one (List.contains_iff_mem.1 hq.1)
    change (s.callbacks.erase q).length + s.hand m + 1 = _
    omega
  · nomatch h

/-! ## The steps -/

theorem Inv.not_took (hs : Inv m s) (hpc : s.updater.pc ≠ .returned) : s.exit.took = false := by
  have hjoined := hs.joined_eq_zero hpc
  cases hexit : s.exit <;> rw [hexit] at hjoined
  case cleanup job => nomatch hjoined
  case returned => nomatch hjoined
  all_goals rfl

/-- The exit clears the pointer when it takes the record, if it does. -/
theorem exit_ptr (hs : Known m s) (h : s.exit_step m = some t) :
    (m = .srcu → t.ptr ≠ none) ∧ (t.exit.took → m.clears → t.ptr = none) := by
  have htaken := hs.taken
  unfold Sys.exit_step at h
  cases hexit : s.exit <;> rw [hexit] at h htaken <;> simp only at h
  case begin =>
    cases h
    exact ⟨hs.loaded, nofun⟩
  case stop k =>
    split at h
    · cases h
      exact ⟨hs.loaded, nofun⟩
    · cases h
      refine ⟨?_, fun _ hclears => if_pos hclears⟩
      rintro rfl
      exact hs.loaded rfl
  case join k =>
    split at h
    · cases h
      exact ⟨hs.loaded, nofun⟩
    · nomatch h
  case cleanup job =>
    split at h
    · cases h
      exact ⟨hs.loaded, htaken⟩
    · obtain ⟨⟨u, job'⟩, hwork, rfl⟩ := Option.map_eq_some_iff.1 h
      obtain ⟨-, -, -, hptr, -, -, -⟩ := work_frame hwork
      refine ⟨fun hm => ?_, fun _ hclears => ?_⟩
      · exact hptr ▸ hs.loaded hm
      · exact hptr.trans (htaken rfl hclears)
  case returned => nomatch h

theorem known_step (hs : Known m s) (h : s.step m a = some t) : Known m t := by
  have hinv := step_inv hs.toInv h
  obtain ⟨u, hu, rfl⟩ := Option.map_eq_some_iff.1 h
  cases a with
  | updater random =>
    obtain ⟨hpc, -, hexit, -, -, -, hptr⟩ := updater_frame hu
    refine ⟨hinv, fun hm => hptr (hs.loaded hm), fun htook => ?_⟩
    change u.exit.took = true at htook
    rw [hexit, hs.not_took hpc] at htook
    nomatch htook
  | reader i =>
    obtain ⟨rd, -, hrd⟩ := Option.bind_eq_some_iff.1 hu
    obtain ⟨-, hexit, hptr, -⟩ := reader_frame hrd
    refine ⟨hinv, fun hm => ?_, fun htook hclears => ?_⟩
    · change u.ptr ≠ none
      exact hptr ▸ hs.loaded hm
    · change u.ptr = none
      rw [hptr]
      exact hs.taken (hexit ▸ htook) hclears
  | exit =>
    obtain ⟨hloaded, htaken⟩ := exit_ptr hs hu
    exact ⟨hinv, hloaded, htaken⟩
  | callback q =>
    simp only [Sys.callback_step] at hu
    split at hu
    · cases hu
      exact ⟨hinv, hs.loaded, hs.taken⟩
    · nomatch hu

theorem known_init (m : Module) (readers : Nat) : Known m (.init m readers) := by
  refine ⟨inv_init m readers, ?_, nofun⟩
  rintro rfl
  nofun

/-- The account of the callbacks. -/
def account (m : Module) (readers : Nat) : (unload m readers).Account where
  Inv := Known m
  hand := Sys.hand m
  inv_init := known_init m readers
  due_init := by cases m <;> rfl
  step_inv := fun hs _ h => known_step hs h
  step_due := by
    intro s a t hs _ h
    obtain ⟨u, hu, rfl⟩ := Option.map_eq_some_iff.1 h
    cases a with
    | updater random => exact updater_due (t := u) hs hu
    | reader i =>
      obtain ⟨rd, -, hrd⟩ := Option.bind_eq_some_iff.1 hu
      obtain ⟨hupdater, hexit, hptr, hcallbacks⟩ := reader_frame hrd
      change u.callbacks.length + u.hand m = s.callbacks.length + s.hand m
      unfold Sys.hand
      rw [hcallbacks, hupdater, hexit, hptr]
    | exit => exact exit_due (t := u) hu
    | callback q => exact callback_due (t := u) hu
  hand_returned := by
    intro s hs hret
    have hexit : s.exit = .returned := of_decide_eq_true hret
    have hjoined : ∀ i < s.readers.length + 1, s.hasReturned i = true := fun i hi =>
      hs.joined i (hexit ▸ hi)
    unfold Sys.hand
    rw [(holds_of_joined hjoined).1, hexit]
    cases m with
    | rctest => rfl
    | srcu =>
      cases s.ptr <;> rfl
    | rcasync =>
      rw [hs.taken (hexit ▸ rfl) rfl]
      rfl

end LinuxKernelProg.Sync.RcuPointer
