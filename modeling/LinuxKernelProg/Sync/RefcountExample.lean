import LinuxKernelProg.Lib.Run
import LinuxKernelProg.Lib.Refcount

/-!
# The shared resource

`refcount_example.c`: any number of threads get the shared resource, use it and put it, while the
exit of the module tears it down. Every step is one access to the shared data. `spin_lock` waits
until the lock is free.

`shared_resource` is read under `resource_lock`, and the teardown holds the lock from its put to the
store of NULL. So a thread that has found the resource finds the module's own reference as well
(`Inv.inc`). A count is never above the number of the threads by more than one (`Safe.count`), which
is far from where `refcount_t` saturates.
-/

namespace LinuxKernelProg.Sync.RefcountExample

open LinuxKernelProg.Lib

/-! ## The program -/

/-- The lock, the pointer, and what it points to. -/
structure Shared where
  resource_lock : Bool
  /-- Whether `shared_resource` is not NULL. -/
  shared_resource : Bool
  refcount : Ref
  resource_id : BitVec 32
  active : Bool
  deriving DecidableEq

/-- After `create_resource(1000, "Shared System Resource")`. -/
def Shared.init : Shared := ⟨false, true, .init, 1000, true⟩

/-- Where `user_thread_fn` is. -/
inductive Pc where
  | loop
  /-- `get_resource`: at `spin_lock`. -/
  | lock
  /-- At `res = shared_resource`. -/
  | read
  /-- At `refcount_inc_not_zero`; `res` is not NULL. -/
  | inc
  /-- At `spin_unlock`, about to return `res` or NULL. -/
  | unlock (res : Bool)
  /-- It has a reference and prints the resource. -/
  | hold
  /-- At `if (res->active)`. -/
  | use
  /-- At `res->resource_id += thread_id`. -/
  | modify
  /-- `put_resource`: at `refcount_dec_and_test`. -/
  | put
  /-- At `free_resource`. -/
  | free
  | exited
  deriving DecidableEq

structure User where
  thread_id : BitVec 32
  operations : Nat
  pc : Pc
  deriving DecidableEq

/-- The end of a round that had the resource. -/
def User.next (u : User) : User := { u with operations := u.operations + 1, pc := .loop }

/-- One step of a thread; `stop` is what `kthread_should_stop()` returns. -/
def User.step (sh : Shared) (stop : Bool) (u : User) : Option (Shared × User) :=
  match u.pc with
  | .loop => some (sh, { u with pc := if !stop && u.operations < 8 then .lock else .exited })
  | .lock =>
    if sh.resource_lock then none
    else some ({ sh with resource_lock := true }, { u with pc := .read })
  | .read => some (sh, { u with pc := if sh.shared_resource then .inc else .unlock false })
  | .inc =>
    let (refcount, ok) := sh.refcount.inc_not_zero
    some ({ sh with refcount }, { u with pc := .unlock ok })
  | .unlock res => some ({ sh with resource_lock := false },
      { u with pc := if res then .hold else .loop })
  | .hold => some (sh, { u with pc := .use })
  | .use => some (sh, { u with pc := if sh.active then .modify else .put })
  | .modify => some ({ sh with resource_id := sh.resource_id + u.thread_id }, { u with pc := .put })
  | .put =>
    let (refcount, last) := sh.refcount.dec_and_test
    some ({ sh with refcount }, if last then { u with pc := .free } else u.next)
  | .free => some ({ sh with refcount := sh.refcount.free }, u.next)
  | .exited => none

/-- Where the last block of `refcount_example_exit` is. -/
inductive Teardown where
  /-- At `spin_lock`. -/
  | lock
  /-- At `if (shared_resource)`. -/
  | test
  /-- At `shared_resource->active = false`. -/
  | active
  /-- `put_resource`: at `refcount_dec_and_test`. -/
  | put
  /-- At `free_resource`. -/
  | free
  /-- At `shared_resource = NULL`. -/
  | clear
  | unlock
  | done
  deriving DecidableEq

def Teardown.step (sh : Shared) : Teardown → Option (Shared × Teardown)
  | .lock => if sh.resource_lock then none else some ({ sh with resource_lock := true }, .test)
  | .test => some (sh, if sh.shared_resource then .active else .unlock)
  | .active => some ({ sh with active := false }, .put)
  | .put =>
    let (refcount, last) := sh.refcount.dec_and_test
    some ({ sh with refcount }, if last then .free else .clear)
  | .free => some ({ sh with refcount := sh.refcount.free }, .clear)
  | .clear => some ({ sh with shared_resource := false }, .unlock)
  | .unlock => some ({ sh with resource_lock := false }, .done)
  | .done => none

structure Sys extends Shared where
  users : List User
  teardown : Teardown
  deriving DecidableEq

inductive Action where
  /-- `kthread_run(user_thread_fn, &thread_id, ..)` -/
  | start (thread_id : BitVec 32)
  | user (t : Nat) (stop : Bool)
  | exit

def Sys.init : Sys := ⟨.init, [], .lock⟩

def Sys.step (s : Sys) : Action → Option Sys
  | .start thread_id => some { s with users := s.users ++ [⟨thread_id, 0, .loop⟩] }
  | .user t stop => do
    let u ← s.users[t]?
    let (sh, u') ← u.step s.toShared stop
    some ⟨sh, s.users.set t u', s.teardown⟩
  | .exit => do
    let (sh, ex) ← s.teardown.step s.toShared
    some ⟨sh, s.users, ex⟩

/-! ## Who has a reference -/

/-- Between a successful `get_resource` and its `put_resource`. -/
def Pc.holds : Pc → Bool
  | .unlock res => res
  | .hold | .use | .modify | .put => true
  | _ => false

/-- Between `spin_lock` and `spin_unlock`. -/
def Pc.locked : Pc → Bool
  | .read | .inc | .unlock _ => true
  | _ => false

/-- The next step reads or writes the object, or frees it. -/
def Pc.accesses : Pc → Bool
  | .inc | .hold | .use | .modify | .put | .free => true
  | _ => false

/-- The module's own reference has not been put. -/
def Teardown.holds : Teardown → Bool
  | .lock | .test | .active | .put => true
  | _ => false

def Teardown.locked : Teardown → Bool
  | .lock | .done => false
  | _ => true

def Teardown.accesses : Teardown → Bool
  | .active | .put | .free => true
  | _ => false

/-- About to free the object. -/
def Pc.frees : Pc → Bool
  | .free => true
  | _ => false

def Teardown.frees : Teardown → Bool
  | .free => true
  | _ => false

def holders (us : List User) : Nat := us.countP (·.pc.holds)

def freeing (us : List User) : Nat := us.countP (·.pc.frees)

/-- **Safety.** -/
structure Safe (s : Sys) : Prop where
  /-- The count is one for the module's own reference and one for each thread that has got one. -/
  count : s.refcount.count = s.teardown.holds.toNat + holders s.users
  freed_once : s.refcount.frees ≤ 1
  /-- When all the references are put and nobody is about to free the object, it is freed. -/
  freed : s.teardown.holds = false → holders s.users = 0 → freeing s.users = 0 →
    s.teardown.frees = false → s.refcount.frees = 1
  freed_unheld : s.refcount.frees = 1 → s.teardown.holds = false ∧ holders s.users = 0
  /-- Whoever reads, writes or frees the object finds it allocated. -/
  user_accesses : ∀ u ∈ s.users, u.pc.accesses = true → s.refcount.frees = 0
  exit_accesses : s.teardown.accesses = true → s.refcount.frees = 0
  /-- From the teardown's put on no get succeeds. -/
  torn_down : s.teardown.holds = false → ∀ a s', s.step a = some s' →
    ∀ (t : Nat) u u', s.users[t]? = some u → s'.users[t]? = some u' → u'.pc.holds = true →
      u.pc.holds = true

/-! ## The invariant -/

/-- The threads in the critical section of `get_resource`. -/
def inside (us : List User) : Nat := us.countP (·.pc.locked)

/-- The teardown has set the pointer to NULL. -/
def Teardown.cleared : Teardown → Bool
  | .unlock | .done => true
  | _ => false

structure Inv (sh : Shared) (us : List User) (ex : Teardown) : Prop where
  owned : sh.refcount.Owned (ex.holds.toNat + holders us) (freeing us + ex.frees.toNat)
  /-- The lock is taken by the one party that is in its critical section. -/
  lock : inside us + ex.locked.toNat = sh.resource_lock.toNat
  pointer : sh.shared_resource = !ex.cleared
  /-- A thread that has found the resource keeps the teardown from starting. -/
  inc : ∀ u ∈ us, u.pc = .inc → ex = .lock

section Counts

variable {u : User} {os : List User}

theorem holders_cons : holders (u :: os) = holders os + u.pc.holds.toNat := countP_cons_toNat _ u os

theorem inside_cons : inside (u :: os) = inside os + u.pc.locked.toNat := countP_cons_toNat _ u os

theorem freeing_cons : freeing (u :: os) = freeing os + u.pc.frees.toNat := countP_cons_toNat _ u os

end Counts

namespace Inv

variable {sh sh' : Shared} {u u' : User} {us os : List User} {ex ex' : Teardown} {stop : Bool}

theorem init : Inv .init [] .lock where
  owned := .init
  lock := rfl
  pointer := rfl
  inc := by simp

theorem perm (h : Inv sh us ex) (hp : us.Perm os) : Inv sh os ex where
  owned := by
    have := h.owned
    rwa [holders, freeing, hp.countP_eq, hp.countP_eq] at this
  lock := by
    have := h.lock
    rwa [inside, hp.countP_eq] at this
  pointer := h.pointer
  inc v hv := h.inc v (hp.mem_iff.2 hv)

/-- A step that leaves the lock, the pointer and the count alone. -/
theorem still (h : Inv sh (u :: os) ex) (hl : sh'.resource_lock = sh.resource_lock)
    (hp : sh'.shared_resource = sh.shared_resource) (hr : sh'.refcount = sh.refcount)
    (hpc : u'.pc.holds = u.pc.holds ∧ u'.pc.locked = u.pc.locked ∧ u'.pc.frees = u.pc.frees)
    (hinc : u'.pc = .inc → ex = .lock) : Inv sh' (u' :: os) ex where
  owned := by
    have := h.owned
    rwa [holders_cons, freeing_cons, ← hpc.1, ← hpc.2.2, ← holders_cons,
      ← freeing_cons, ← hr] at this
  lock := by
    have := h.lock
    rwa [inside_cons, ← hpc.2.1, ← inside_cons, ← hl] at this
  pointer := hp ▸ h.pointer
  inc := List.forall_mem_cons.2 ⟨hinc, fun v hv => h.inc v (List.mem_cons_of_mem u hv)⟩

/-- Where a thread is in its critical section, the teardown is not in its own. -/
theorem unlocked (h : Inv sh (u :: os) ex) (hu : u.pc.locked = true) : ex = .lock ∨ ex = .done := by
  have hlock := h.lock
  rw [inside_cons, hu] at hlock
  have := sh.resource_lock.toNat_le
  cases ex with
  | lock => exact .inl rfl
  | done => exact .inr rfl
  | _ => simp only [Teardown.locked, Bool.toNat_true] at hlock; omega

theorem user (h : Inv sh (u :: os) ex) (hs : u.step sh stop = some (sh', u')) :
    Inv sh' (u' :: os) ex := by
  obtain ⟨id, ops, pc⟩ := u
  have howned := h.owned
  have hlock := h.lock
  rw [holders_cons, freeing_cons] at howned
  rw [inside_cons] at hlock
  have hothers : ∀ v ∈ os, v.pc = .inc → ex = .lock :=
    fun v hv => h.inc v (List.mem_cons_of_mem _ hv)
  cases pc with
  | loop =>
    cases hs
    apply h.still rfl rfl rfl
    · split <;> exact ⟨rfl, rfl, rfl⟩
    · split <;> nofun
  | lock =>
    simp only [User.step] at hs
    split at hs
    · cases hs
    · rename_i hfree
      cases hs
      refine ⟨?_, ?_, h.pointer, List.forall_mem_cons.2 ⟨nofun, hothers⟩⟩
      · rwa [holders_cons, freeing_cons]
      · rw [inside_cons]
        simp only [Bool.not_eq_true] at hfree
        simp only [hfree, Pc.locked, Bool.toNat_false, Bool.toNat_true] at hlock ⊢
        omega
  | read =>
    cases hs
    apply h.still rfl rfl rfl
    · split <;> exact ⟨rfl, rfl, rfl⟩
    · -- the pointer is not NULL, and the teardown is not inside its own critical section
      intro hpc
      rcases h.unlocked rfl with hex | rfl
      · exact hex
      · rw [h.pointer] at hpc
        cases hpc
  | inc =>
    obtain rfl : ex = .lock := h.inc _ List.mem_cons_self rfl
    have howned : sh.refcount.Owned (holders os + 1) (freeing os) := by
      simpa [Teardown.holds, Teardown.frees, Pc.holds, Pc.frees, Nat.add_comm 1] using howned
    have hpos : 0 < holders os + 1 := Nat.succ_pos _
    simp only [User.step, howned.inc_not_zero hpos] at hs
    cases hs
    refine ⟨?_, ?_, h.pointer, fun _ _ _ => rfl⟩
    · rw [holders_cons, freeing_cons]
      simpa [Teardown.holds, Teardown.frees, Pc.holds, Pc.frees, Nat.add_comm 1] using
        howned.get hpos
    · rwa [inside_cons]
  | unlock res =>
    cases hs
    refine ⟨?_, ?_, h.pointer, List.forall_mem_cons.2 ⟨?_, hothers⟩⟩
    · rw [holders_cons, freeing_cons]
      cases res <;> exact howned
    · have hlock : inside os + 1 + ex.locked.toNat = sh.resource_lock.toNat := hlock
      have hone := sh.resource_lock.toNat_le
      have hout : (if res then Pc.hold else .loop).locked = false := by cases res <;> rfl
      rw [inside_cons, hout]
      change inside os + 0 + ex.locked.toNat = 0
      omega
    · cases res <;> nofun
  | hold =>
    cases hs
    exact h.still rfl rfl rfl ⟨rfl, rfl, rfl⟩ nofun
  | use =>
    cases hs
    apply h.still rfl rfl rfl
    · split <;> exact ⟨rfl, rfl, rfl⟩
    · split <;> nofun
  | modify =>
    cases hs
    exact h.still rfl rfl rfl ⟨rfl, rfl, rfl⟩ nofun
  | put =>
    have howned : sh.refcount.Owned (ex.holds.toNat + holders os + 1)
        (freeing os + ex.frees.toNat) := by
      simpa [Pc.holds, Pc.frees, Nat.add_assoc] using howned
    have hput := howned.dec_and_test.1
    simp only [User.step] at hs
    cases hs
    cases hlast : sh.refcount.dec_and_test.2 with
    | true =>
      rw [hlast] at hput
      refine ⟨?_, ?_, h.pointer, List.forall_mem_cons.2 ⟨nofun, hothers⟩⟩
      · rw [holders_cons, freeing_cons]
        simpa [Pc.holds, Pc.frees, Nat.add_right_comm _ 1] using hput
      · rwa [inside_cons]
    | false =>
      rw [hlast] at hput
      refine ⟨?_, ?_, h.pointer, List.forall_mem_cons.2 ⟨nofun, hothers⟩⟩
      · rw [holders_cons, freeing_cons]
        simpa [User.next, Pc.holds, Pc.frees] using hput
      · rwa [inside_cons]
  | free =>
    have howned : sh.refcount.Owned (ex.holds.toNat + holders os)
        (freeing os + ex.frees.toNat + 1) := by
      simpa [Pc.holds, Pc.frees, Nat.add_right_comm _ 1] using howned
    cases hs
    refine ⟨?_, ?_, h.pointer, List.forall_mem_cons.2 ⟨nofun, hothers⟩⟩
    · rw [holders_cons, freeing_cons]
      simpa [User.next, Pc.holds, Pc.frees] using howned.free
    · rwa [inside_cons]
  | exited => cases hs

theorem no_inc (h : inside us = 0) : ∀ v ∈ us, v.pc = .inc → ex = .lock := by
  intro v hv hpc
  have := List.countP_eq_zero.1 h v hv
  simp [hpc, Pc.locked] at this

/-- Where the teardown is in its critical section, no thread is in its own. -/
theorem alone (h : Inv sh us ex) (hex : ex.locked = true) :
    inside us = 0 ∧ sh.resource_lock = true := by
  have hlock := h.lock
  have hone := sh.resource_lock.toNat_le
  rw [hex, Bool.toNat_true] at hlock
  refine ⟨by omega, ?_⟩
  cases hl : sh.resource_lock with
  | true => rfl
  | false => simp [hl] at hlock

/-- A step of the teardown in its critical section. -/
theorem exit_inside (h : Inv sh us ex) (hex : ex.locked = true) (hex' : ex'.locked = true)
    (hl : sh'.resource_lock = sh.resource_lock) (hp : sh'.shared_resource = !ex'.cleared)
    (ho : sh'.refcount.Owned (ex'.holds.toNat + holders us) (freeing us + ex'.frees.toNat)) :
    Inv sh' us ex' where
  owned := ho
  lock := by
    have := h.lock
    rwa [hex, ← hex', ← hl] at this
  pointer := hp
  inc := no_inc (h.alone hex).1

theorem exit (h : Inv sh us ex) (hs : ex.step sh = some (sh', ex')) : Inv sh' us ex' := by
  have howned := h.owned
  have hptr := h.pointer
  cases ex with
  | lock =>
    simp only [Teardown.step] at hs
    split at hs
    · cases hs
    · rename_i hfree
      cases hs
      have hlock := h.lock
      simp only [Bool.not_eq_true] at hfree
      have hin : inside us = 0 := by
        rw [hfree, Bool.toNat_false] at hlock
        omega
      refine ⟨howned, ?_, hptr, no_inc hin⟩
      rw [hin]
      rfl
  | test =>
    simp only [Teardown.step, hptr] at hs
    cases hs
    exact h.exit_inside rfl rfl rfl hptr howned
  | active =>
    cases hs
    exact h.exit_inside rfl rfl rfl hptr howned
  | put =>
    have howned : sh.refcount.Owned (holders us + 1) (freeing us) := by
      simpa [Teardown.holds, Teardown.frees, Nat.add_comm 1] using howned
    have hput := howned.dec_and_test.1
    simp only [Teardown.step] at hs
    cases hs
    cases hlast : sh.refcount.dec_and_test.2 with
    | true =>
      rw [hlast] at hput
      refine h.exit_inside rfl rfl rfl hptr ?_
      simpa [Teardown.holds, Teardown.frees] using hput
    | false =>
      rw [hlast] at hput
      refine h.exit_inside rfl rfl rfl hptr ?_
      simpa [Teardown.holds, Teardown.frees] using hput
  | free =>
    cases hs
    exact h.exit_inside rfl rfl rfl hptr howned.free
  | clear =>
    cases hs
    exact h.exit_inside rfl rfl rfl rfl howned
  | unlock =>
    cases hs
    obtain ⟨hin, -⟩ := h.alone rfl
    refine ⟨howned, ?_, hptr, no_inc hin⟩
    rw [hin]
    rfl
  | done => cases hs

end Inv

/-! ## Every run -/

variable {s s' : Sys}

theorem Sys.step_user {t : Nat} {stop : Bool} (h : s.step (.user t stop) = some s') :
    ∃ u sh u', s.users[t]? = some u ∧ u.step s.toShared stop = some (sh, u') ∧
      s' = ⟨sh, s.users.set t u', s.teardown⟩ := by
  simp only [Sys.step, Option.bind_eq_bind, Option.bind_eq_some_iff] at h
  obtain ⟨u, hu, ⟨sh, u'⟩, hstep, hs'⟩ := h
  cases hs'
  exact ⟨u, sh, u', hu, hstep, rfl⟩

theorem Sys.step_exit (h : s.step .exit = some s') :
    ∃ sh ex, s.teardown.step s.toShared = some (sh, ex) ∧ s' = ⟨sh, s.users, ex⟩ := by
  simp only [Sys.step, Option.bind_eq_bind, Option.bind_eq_some_iff] at h
  obtain ⟨⟨sh, ex⟩, hstep, hs'⟩ := h
  cases hs'
  exact ⟨sh, ex, hstep, rfl⟩

theorem Inv.step {a : Action} (h : Inv s.toShared s.users s.teardown) (hs : s.step a = some s') :
    Inv s'.toShared s'.users s'.teardown := by
  cases a with
  | start id =>
    cases hs
    have hnew : Inv s.toShared (⟨id, 0, .loop⟩ :: s.users) s.teardown := by
      refine ⟨?_, ?_, h.pointer, List.forall_mem_cons.2 ⟨nofun, h.inc⟩⟩
      · rw [holders_cons, freeing_cons]
        exact h.owned
      · rw [inside_cons]
        exact h.lock
    exact hnew.perm (List.perm_append_singleton _ _).symm
  | user t stop =>
    obtain ⟨u, sh, u', hu, hstep, rfl⟩ := Sys.step_user hs
    obtain ⟨os, hp, hset⟩ := perm_of_getElem? hu
    exact ((h.perm hp).user hstep).perm (hset u').symm
  | exit =>
    obtain ⟨sh, ex, hstep, rfl⟩ := Sys.step_exit hs
    exact h.exit hstep

/-- Only a thread that has found the resource gets a reference. -/
theorem User.holds_of_step {sh sh' : Shared} {u u' : User} {stop : Bool}
    (hs : u.step sh stop = some (sh', u')) (hu' : u'.pc.holds = true) :
    u.pc.holds = true ∨ u.pc = .inc := by
  obtain ⟨id, ops, pc⟩ := u
  cases pc with
  | inc => exact .inr rfl
  | unlock res =>
    cases hs
    cases res with
    | true => exact .inl rfl
    | false => cases hu'
  | hold | use | modify | put => exact .inl rfl
  | loop =>
    cases hs
    simp only at hu'
    split at hu' <;> cases hu'
  | lock =>
    simp only [User.step] at hs
    split at hs <;> cases hs
    cases hu'
  | read =>
    cases hs
    simp only at hu'
    split at hu' <;> cases hu'
  | free =>
    cases hs
    cases hu'
  | exited => cases hs

/-- A thread that accesses the object has a reference, or is about to get one and the module's own
is there, or is the one to free it. -/
theorem Inv.frees_eq_zero {u : User} (h : Inv s.toShared s.users s.teardown) (hu : u ∈ s.users)
    (ha : u.pc.accesses = true) : s.refcount.frees = 0 := by
  have hpc : u.pc.holds = true ∨ u.pc = .inc ∨ u.pc.frees = true := by
    cases hpc : u.pc <;> simp [hpc, Pc.accesses, Pc.holds, Pc.frees] at ha ⊢
  rcases hpc with hholds | hinc | hfrees
  · have hpos : 0 < holders s.users := List.countP_pos_iff.2 ⟨u, hu, hholds⟩
    exact (h.owned.live (by omega)).1
  · have hex := h.inc u hu hinc
    refine (h.owned.live ?_).1
    rw [hex]
    exact Nat.lt_of_lt_of_le Nat.zero_lt_one (Nat.le_add_right _ _)
  · have hpos : 0 < freeing s.users := List.countP_pos_iff.2 ⟨u, hu, hfrees⟩
    exact (h.owned.frees_eq_zero (by omega)).1

theorem Inv.frees_eq_zero_exit (h : Inv s.toShared s.users s.teardown)
    (ha : s.teardown.accesses = true) : s.refcount.frees = 0 := by
  have hex : s.teardown.holds = true ∨ s.teardown.frees = true := by
    cases hex : s.teardown <;> simp [hex, Teardown.accesses, Teardown.holds, Teardown.frees] at ha ⊢
  rcases hex with hholds | hfrees
  · refine (h.owned.live ?_).1
    rw [hholds, Bool.toNat_true]
    omega
  · refine (h.owned.frees_eq_zero ?_).1
    rw [hfrees, Bool.toNat_true]
    omega

/-- From the teardown's put on no step makes a thread a holder. -/
theorem Inv.torn_down {a : Action} {t : Nat} {u u' : User}
    (h : Inv s.toShared s.users s.teardown) (hex : s.teardown.holds = false)
    (hs : s.step a = some s') (hu : s.users[t]? = some u) (hu' : s'.users[t]? = some u')
    (hholds : u'.pc.holds = true) : u.pc.holds = true := by
  have hsame : u' = u → u.pc.holds = true := fun he => he ▸ hholds
  cases a with
  | start id =>
    cases hs
    have ht : t < s.users.length := (List.getElem?_eq_some_iff.1 hu).1
    rw [List.getElem?_append_left ht, hu] at hu'
    exact hsame (Option.some.inj hu').symm
  | user t' stop =>
    obtain ⟨v, sh, v', hv, hstep, rfl⟩ := Sys.step_user hs
    rw [List.getElem?_set] at hu'
    split at hu'
    · rename_i htt
      subst htt
      split at hu'
      · cases hu'
        obtain rfl : v = u := Option.some.inj (hv.symm.trans hu)
        rcases User.holds_of_step hstep hholds with hholds | hinc
        · exact hholds
        · -- it could get one only while the teardown waits for the lock
          have := h.inc v (List.mem_of_getElem? hv) hinc
          rw [this] at hex
          cases hex
      · cases hu'
    · exact hsame (Option.some.inj (hu'.symm.trans hu))
  | exit =>
    obtain ⟨sh, ex, -, rfl⟩ := Sys.step_exit hs
    exact hsame (Option.some.inj (hu'.symm.trans hu))

theorem Inv.safe (h : Inv s.toShared s.users s.teardown) : Safe s where
  count := h.owned.count
  freed_once := h.owned.frees_le
  freed := by
    intro hex hus hf hexf
    have := h.owned.frees
    rwa [hex, hus, hf, hexf] at this
  freed_unheld := by
    intro hf
    have hnone : ¬ 0 < s.teardown.holds.toNat + holders s.users := fun hpos => by
      have := (h.owned.live hpos).1
      omega
    refine ⟨?_, by omega⟩
    cases hex : s.teardown.holds with
    | true => simp [hex] at hnone
    | false => rfl
  user_accesses _ hu := h.frees_eq_zero hu
  exit_accesses := h.frees_eq_zero_exit
  torn_down hex _ _ hs _ _ _ := h.torn_down hex hs

/-- **Safety of `refcount_example`.** Whatever the number of the threads and the order of the steps,
every state that is reached is safe. -/
theorem refcount_safe {as : List Action} (h : run Sys.step .init as = some s) : Safe s := by
  have hinv : Inv s.toShared s.users s.teardown :=
    run_inv_of_step (I := fun s => Inv s.toShared s.users s.teardown) Inv.step .init h
  exact hinv.safe

/-- One thread has the resource, another one waits for the lock. The teardown takes the lock, the
first one puts its reference, and the teardown puts the last one; the other thread gets NULL. -/
theorem refcount_safe_of_late_get :
    Safe ⟨⟨true, false, ⟨0, 1⟩, 1001, false⟩, [⟨1, 1, .loop⟩, ⟨2, 0, .lock⟩], .unlock⟩ := by
  let user (t : Nat) : Action := .user t false
  have h : run Sys.step .init
      ([.start 1, .start 2] ++ List.replicate 8 (user 0) ++ [user 1] ++
        [.exit, .exit, .exit, user 0] ++
        [.exit, .exit, .exit]) =
      some ⟨⟨true, false, ⟨0, 1⟩, 1001, false⟩, [⟨1, 1, .loop⟩, ⟨2, 0, .lock⟩], .unlock⟩ := by
    decide
  exact refcount_safe h

end LinuxKernelProg.Sync.RefcountExample
