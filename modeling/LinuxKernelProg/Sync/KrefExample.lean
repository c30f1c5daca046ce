import LinuxKernelProg.Lib.Run
import LinuxKernelProg.Lib.Refcount

/-!
# The shared object

`kref_example.c`: the module creates an object and starts three workers, which take and put
references to it. On each way out, the failures of `kref_example_init` and `kref_example_exit`, it
stops the workers that run and then puts its own reference. Every step is one access to the shared
data or one call of the kernel; `kthread_stop` waits until the thread function has returned, or
keeps it from being entered.

The workers take no lock. What keeps the object for them is that the module's own reference is put
after all of them are gone (`Inv.running`).
-/

namespace LinuxKernelProg.Sync.KrefExample

open LinuxKernelProg.Lib

/-! ## The program -/

/-- The pointer, and what it points to. -/
structure Shared where
  /-- Whether `global_obj` is not NULL. -/
  global_obj : Bool
  refcount : Ref
  data : BitVec 32
  deriving DecidableEq

/-- Where `worker_thread` is; `i` is its loop variable. -/
inductive Pc where
  /-- `kthread_run` has made the thread; the function is not entered yet. -/
  | created
  /-- At the condition of the loop. -/
  | loop (i : Nat)
  /-- At `if (global_obj)`. -/
  | test (i : Nat)
  /-- At `kref_get(&global_obj->refcount)`. -/
  | get (i : Nat)
  /-- At `obj = global_obj`. -/
  | load (i : Nat)
  /-- It prints the name of the object. -/
  | use (i : Nat)
  /-- At `obj->data += id`. -/
  | modify (i : Nat)
  /-- At `kref_put(&obj->refcount, my_object_release)`. -/
  | put (i : Nat)
  /-- At `my_object_release`. -/
  | release (i : Nat)
  /-- It has gone through a NULL pointer. -/
  | oops
  | exited
  deriving DecidableEq

structure Worker where
  id : BitVec 32
  /-- What `kthread_should_stop()` returns. -/
  should_stop : Bool
  pc : Pc
  deriving DecidableEq

def Worker.step (sh : Shared) (w : Worker) : Option (Shared × Worker) :=
  match w.pc with
  | .created => some (sh, { w with pc := if w.should_stop then .exited else .loop 0 })
  | .loop i => some (sh, { w with pc := if i < 5 && !w.should_stop then .test i else .exited })
  | .test i => some (sh, { w with pc := if sh.global_obj then .get i else .loop (i + 1) })
  | .get i =>
    if sh.global_obj then some ({ sh with refcount := sh.refcount.get }, { w with pc := .load i })
    else some (sh, { w with pc := .oops })
  | .load i => some (sh, { w with pc := if sh.global_obj then .use i else .oops })
  | .use i => some (sh, { w with pc := .modify i })
  | .modify i => some ({ sh with data := sh.data + w.id }, { w with pc := .put i })
  | .put i =>
    let (refcount, last) := sh.refcount.dec_and_test
    some ({ sh with refcount }, { w with pc := if last then .release i else .loop (i + 1) })
  | .release i => some ({ sh with refcount := sh.refcount.free }, { w with pc := .loop (i + 1) })
  | .oops => none
  | .exited => none

/-- `thread1`, `thread2` and `thread3` -/
def numThreads : Nat := 3

/-- A way out of the module. -/
inductive Path where
  /-- `kref_example_init` has made `n` threads and fails to make the next one. -/
  | failed (n : Nat)
  | exit
  deriving DecidableEq

/-- The threads that are stopped on the way. -/
def Path.threads : Path → Nat
  | .failed n => n
  | .exit => numThreads

/-- Where `kref_example_init` or `kref_example_exit` is. -/
inductive Main where
  /-- At `create_object`. -/
  | create
  /-- It returns `-ENOMEM`. -/
  | no_object
  /-- At `kthread_run` for the thread after `n` others. -/
  | run (n : Nat)
  /-- The module is loaded. -/
  | loaded
  /-- At `kthread_stop` for the thread `i`. -/
  | stop (p : Path) (i : Nat)
  /-- `kthread_stop` waits for the thread `i`. -/
  | wait (p : Path) (i : Nat)
  /-- `kref_example_exit`: at `if (global_obj)`. -/
  | test
  /-- At `kref_put(&global_obj->refcount, my_object_release)`. -/
  | put (p : Path)
  /-- At `my_object_release`. -/
  | release (p : Path)
  /-- `kref_example_exit`: at `global_obj = NULL`. -/
  | clear
  | oops
  | done (p : Path)
  deriving DecidableEq

/-- What comes when the threads are stopped. -/
def Path.stopped : Path → Main
  | .failed n => .put (.failed n)
  | .exit => .test

/-- `kthread_stop` for the thread `i`, or what comes when there is none left. -/
def Path.stop (p : Path) (i : Nat) : Main := if i < p.threads then .stop p i else p.stopped

/-- What comes when the module's own reference is put. -/
def Path.after_put : Path → Main
  | .failed n => .done (.failed n)
  | .exit => .clear

structure Sys extends Shared where
  workers : List Worker
  main : Main
  deriving DecidableEq

def Sys.init : Sys := ⟨⟨false, ⟨0, 0⟩, 0⟩, [], .create⟩

/-- One step of the module; `ok` says whether an allocation or a `kthread_run` succeeds. -/
def Sys.main_step (s : Sys) (ok : Bool) : Option Sys :=
  match s.main with
  | .create =>
    if ok then some { s with global_obj := true, refcount := .init, data := 100, main := .run 0 }
    else some { s with main := .no_object }
  | .run n =>
    if ok then
      some { s with
        workers := s.workers ++ [⟨BitVec.ofNat 32 (n + 1), false, .created⟩]
        main := if n + 1 = numThreads then .loaded else .run (n + 1) }
    else some { s with main := (Path.failed n).stop 0 }
  | .loaded => some { s with main := Path.exit.stop 0 }
  | .stop p i =>
    match s.workers[i]? with
    | some w => some { s with
        workers := s.workers.set i { w with should_stop := true }, main := .wait p i }
    | none => some { s with main := p.stop (i + 1) }
  | .wait p i => do
    let w ← s.workers[i]?
    if w.pc = .exited then some { s with main := p.stop (i + 1) } else none
  | .test => some { s with main := if s.global_obj then .put .exit else .done .exit }
  | .put p =>
    if s.global_obj then
      let (refcount, last) := s.refcount.dec_and_test
      some { s with refcount, main := if last then .release p else p.after_put }
    else some { s with main := .oops }
  | .release p => some { s with refcount := s.refcount.free, main := p.after_put }
  | .clear => some { s with global_obj := false, main := .done .exit }
  | .no_object => none
  | .oops => none
  | .done _ => none

inductive Action where
  | main (ok : Bool)
  | worker (t : Nat)

def Sys.step (s : Sys) : Action → Option Sys
  | .main ok => s.main_step ok
  | .worker t => do
    let w ← s.workers[t]?
    let (sh, w') ← w.step s.toShared
    some ⟨sh, s.workers.set t w', s.main⟩

/-! ## Who has a reference -/

/-- Between `kref_get` and `kref_put`. -/
def Pc.holds : Pc → Bool
  | .load _ | .use _ | .modify _ | .put _ => true
  | _ => false

/-- About to run `my_object_release`. -/
def Pc.frees : Pc → Bool
  | .release _ => true
  | _ => false

/-- The next step reads or writes the object, or frees it. -/
def Pc.accesses : Pc → Bool
  | .get _ | .use _ | .modify _ | .put _ | .release _ => true
  | _ => false

/-- The object was created. -/
def Main.created : Main → Bool
  | .create | .no_object => false
  | _ => true

/-- The module's own reference is not put. -/
def Main.holds : Main → Bool
  | .run _ | .loaded | .stop _ _ | .wait _ _ | .test | .put _ => true
  | _ => false

def Main.frees : Main → Bool
  | .release _ => true
  | _ => false

/-- `kref_example_init` has failed, or the module is unloaded. -/
def Main.over : Main → Bool
  | .no_object | .done _ => true
  | _ => false

def holders (ws : List Worker) : Nat := ws.countP (·.pc.holds)

def freeing (ws : List Worker) : Nat := ws.countP (·.pc.frees)

/-- **Safety.** -/
structure Safe (s : Sys) : Prop where
  /-- Nobody goes through a NULL pointer. -/
  no_oops : s.main ≠ .oops ∧ ∀ w ∈ s.workers, w.pc ≠ .oops
  /-- A `kref_get` finds the pointer and an object that has a reference. -/
  get_live : ∀ w ∈ s.workers, ∀ i, w.pc = .get i →
    s.global_obj = true ∧ 0 < s.refcount.count ∧ s.refcount.frees = 0
  /-- Whoever reads, writes or frees the object finds it allocated. -/
  accesses : ∀ w ∈ s.workers, w.pc.accesses = true → s.refcount.frees = 0
  released_once : s.refcount.frees ≤ 1
  /-- The release comes after the last put of a worker: all of them are gone. -/
  released_last : s.refcount.frees = 1 ∨ s.main.frees = true ∨
    (∃ w ∈ s.workers, w.pc.frees = true) →
    ∀ w ∈ s.workers, w.pc = .exited
  /-- When the module is gone, an object that was created is released. -/
  released : s.main.over = true → s.refcount.frees = s.main.created.toNat

/-! ## The invariant -/

/-- The threads in front of this one were stopped. -/
def Main.stopped : Main → Nat
  | .stop _ i | .wait _ i => i
  | .put p | .release p | .done p => p.threads
  | .test | .clear => numThreads
  | _ => 0

/-- The threads that were made. -/
def Main.threads : Main → Nat
  | .run n => n
  | .stop p _ | .wait p _ | .put p | .release p | .done p => p.threads
  | .loaded | .test | .clear => numThreads
  | _ => 0

/-- `global_obj` points to the object. -/
def Main.points : Main → Bool
  | .create | .no_object | .done .exit => false
  | _ => true

theorem Path.stop_spec (p : Path) (i : Nat) :
    p.stop i ≠ .oops ∧ (p.stop i).stopped ≤ i ∧ (p.stop i).points = true ∧
      (p.stop i).threads = p.threads ∧ (p.stop i).created = true ∧ (p.stop i).holds = true ∧
      (p.stop i).frees = false := by
  unfold stop
  split
  · exact ⟨nofun, Nat.le_refl i, rfl, rfl, rfl, rfl, rfl⟩
  · rename_i hi
    cases p with
    | failed n => exact ⟨nofun, Nat.not_lt.1 hi, rfl, rfl, rfl, rfl, rfl⟩
    | exit => exact ⟨nofun, Nat.not_lt.1 hi, rfl, rfl, rfl, rfl, rfl⟩

structure Inv (s : Sys) : Prop where
  no_oops : s.main ≠ .oops ∧ ∀ w ∈ s.workers, w.pc ≠ .oops
  pointer : s.global_obj = s.main.points
  threads : s.workers.length = s.main.threads
  /-- The threads that were stopped are gone. -/
  running : ∀ (t : Nat) w, s.workers[t]? = some w → t < s.main.stopped → w.pc = .exited
  fresh : s.main.created = false → s.refcount.frees = 0
  owned : s.main.created = true → s.refcount.Owned (s.main.holds.toNat + holders s.workers)
    (freeing s.workers + s.main.frees.toNat)

section Counts

variable {w : Worker} {os : List Worker}

theorem holders_cons : holders (w :: os) = holders os + w.pc.holds.toNat := countP_cons_toNat _ w os

theorem freeing_cons : freeing (w :: os) = freeing os + w.pc.frees.toNat := countP_cons_toNat _ w os

end Counts

namespace Inv

variable {s s' : Sys} {sh : Shared} {w w' : Worker} {t : Nat}

theorem init : Inv .init where
  no_oops := ⟨nofun, nofun⟩
  pointer := rfl
  threads := rfl
  running := nofun
  fresh _ := rfl
  owned := nofun

/-- As long as a worker is there, the module keeps its reference and the pointer. -/
theorem present (h : Inv s) (hw : s.workers[t]? = some w) (hne : w.pc ≠ .exited) :
    s.main.created = true ∧ s.main.holds = true ∧ s.main.frees = false ∧ s.main.points = true := by
  have ht : t < s.main.threads := by
    rw [← h.threads]
    exact (List.getElem?_eq_some_iff.1 hw).1
  have hstopped : ¬ t < s.main.stopped := fun hlt => hne (h.running t w hw hlt)
  cases hm : s.main <;> simp only [hm, Main.threads, Main.stopped] at ht hstopped <;>
    first
    | exact ⟨rfl, rfl, rfl, rfl⟩
    | omega

/-- The references while the worker `t` is there: its own, those of the others and the module's. -/
theorem owned_at (h : Inv s) (hw : s.workers[t]? = some w) (hne : w.pc ≠ .exited) {os : List Worker}
    (hp : s.workers.Perm (w :: os)) :
    s.refcount.Owned (holders os + w.pc.holds.toNat + 1) 0 ∧ freeing os = 0 ∧
      w.pc.frees = false := by
  obtain ⟨hcreated, hholds, hfrees, -⟩ := h.present hw hne
  have howned := h.owned hcreated
  rw [hholds, hfrees, holders, freeing, hp.countP_eq, hp.countP_eq, ← holders, ← freeing,
    holders_cons, freeing_cons, Bool.toNat_true, Nat.add_comm 1] at howned
  have hnone := (howned.live (Nat.succ_pos _)).2
  rw [hnone] at howned
  refine ⟨howned, by omega, ?_⟩
  cases hf : w.pc.frees with
  | false => rfl
  | true => simp [hf] at hnone

/-- A step of a worker that leaves the pointer alone. -/
theorem set (h : Inv s) (hw : s.workers[t]? = some w) (hne : w.pc ≠ .exited)
    (hp : sh.global_obj = s.global_obj) (hoops : w'.pc ≠ .oops) (hfrees : w'.pc.frees = false)
    (ho : ∀ n, s.refcount.Owned (n + w.pc.holds.toNat + 1) 0 →
      sh.refcount.Owned (n + w'.pc.holds.toNat + 1) 0) :
    Inv ⟨sh, s.workers.set t w', s.main⟩ := by
  obtain ⟨hcreated, hholds, hmfrees, -⟩ := h.present hw hne
  refine ⟨⟨h.no_oops.1, fun v hv => ?_⟩, hp.trans h.pointer, ?_,
    fun j v hv hj => ?_, ?_, fun _ => ?_⟩
  · rcases List.mem_or_eq_of_mem_set hv with hv | rfl
    · exact h.no_oops.2 v hv
    · exact hoops
  · rw [List.length_set]
    exact h.threads
  · rw [List.getElem?_set] at hv
    split at hv
    · rename_i htj
      subst htj
      exact absurd (h.running t w hw hj) hne
    · exact h.running j v hv hj
  · intro hc
    cases hcreated.symm.trans hc
  · obtain ⟨os, hperm, hset⟩ := perm_of_getElem? hw
    obtain ⟨howned, hfos, -⟩ := h.owned_at hw hne hperm
    rw [holders, freeing, (hset w').countP_eq, (hset w').countP_eq, ← holders, ← freeing,
      holders_cons, freeing_cons, hfos, hfrees, hholds, hmfrees, Bool.toNat_true, Nat.add_comm 1]
    exact ho _ howned

theorem worker (h : Inv s) (hw : s.workers[t]? = some w) (hs : w.step s.toShared = some (sh, w')) :
    Inv ⟨sh, s.workers.set t w', s.main⟩ := by
  obtain ⟨id, should_stop, pc⟩ := w
  have hne : pc ≠ .exited := fun he => by
    subst he
    cases hs
  obtain ⟨-, -, -, hpoints⟩ := h.present hw hne
  have hptr : s.global_obj = true := h.pointer.trans hpoints
  cases pc with
  | created =>
    cases hs
    cases should_stop <;> exact h.set hw hne rfl nofun rfl fun _ ho => ho
  | loop i =>
    cases hs
    split <;> exact h.set hw hne rfl nofun rfl fun _ ho => ho
  | test i =>
    simp only [Worker.step, hptr, if_true] at hs
    cases hs
    exact h.set hw hne rfl nofun rfl fun _ ho => ho
  | get i =>
    simp only [Worker.step, hptr, if_true] at hs
    cases hs
    exact h.set hw hne hptr.symm nofun rfl fun _ ho => ho.get (Nat.succ_pos _)
  | load i =>
    simp only [Worker.step, hptr, if_true] at hs
    cases hs
    exact h.set hw hne rfl nofun rfl fun _ ho => ho
  | use i =>
    cases hs
    exact h.set hw hne rfl nofun rfl fun _ ho => ho
  | modify i =>
    cases hs
    exact h.set hw hne rfl nofun rfl fun _ ho => ho
  | put i =>
    -- the module's reference is still there, so this one is not the last
    have hlast : s.refcount.dec_and_test.2 = false := by
      obtain ⟨os, hperm, -⟩ := perm_of_getElem? hw
      have howned := (h.owned_at hw hne hperm).1
      exact Bool.eq_false_iff.2 fun hl => Nat.succ_ne_zero _ (howned.dec_and_test.2.1 hl)
    simp only [Worker.step, hlast] at hs
    cases hs
    refine h.set hw hne rfl nofun rfl fun n ho => ?_
    have hput := ho.dec_and_test.1
    rwa [hlast] at hput
  | release i =>
    obtain ⟨os, hperm, -⟩ := perm_of_getElem? hw
    cases (h.owned_at hw hne hperm).2.2
  | oops => cases hs
  | exited => cases hs

/-- A step of the module that leaves the workers and the object alone. -/
theorem move (h : Inv s) {m : Main} (hoops : m ≠ .oops)
    (hm : m.points = s.main.points ∧ m.threads = s.main.threads ∧ m.created = s.main.created ∧
      m.holds = s.main.holds ∧ m.frees = s.main.frees)
    (hrun : ∀ (t : Nat) w, s.workers[t]? = some w → t < m.stopped → w.pc = .exited) :
    Inv { s with main := m } where
  no_oops := ⟨hoops, h.no_oops.2⟩
  pointer := h.pointer.trans hm.1.symm
  threads := h.threads.trans hm.2.1.symm
  running := hrun
  fresh hc := h.fresh (hm.2.2.1.symm.trans hc)
  owned hc := by
    have := h.owned (hm.2.2.1.symm.trans hc)
    rwa [← hm.2.2.2.1, ← hm.2.2.2.2] at this

/-- When all of the threads were stopped, nobody but the module has a reference. -/
theorem all_exited (h : Inv s) (hall : s.main.threads ≤ s.main.stopped) :
    (∀ w ∈ s.workers, w.pc = .exited) ∧ holders s.workers = 0 ∧ freeing s.workers = 0 := by
  have hexited : ∀ w ∈ s.workers, w.pc = .exited := by
    intro w hw
    obtain ⟨t, ht⟩ := List.mem_iff_getElem?.1 hw
    have hlt := (List.getElem?_eq_some_iff.1 ht).1
    rw [h.threads] at hlt
    exact h.running t w ht (Nat.lt_of_lt_of_le hlt hall)
  refine ⟨hexited, List.countP_eq_zero.2 fun w hw => ?_, List.countP_eq_zero.2 fun w hw => ?_⟩
  · rw [hexited w hw]
    nofun
  · rw [hexited w hw]
    nofun

/-- The threads up to `i` are gone: on to the next one. -/
theorem next (h : Inv s) {p : Path} {i : Nat} (hm : s.main = .stop p i ∨ s.main = .wait p i)
    (hi : ∀ w, s.workers[i]? = some w → w.pc = .exited) :
    Inv { s with main := p.stop (i + 1) } := by
  obtain ⟨hoops, hle, hspec⟩ := p.stop_spec (i + 1)
  have hrun : ∀ (t : Nat) w, s.workers[t]? = some w → t < i → w.pc = .exited := by
    intro t w hw ht
    apply h.running t w hw
    rcases hm with hm | hm <;> rwa [hm]
  apply h.move hoops
  · rcases hm with hm | hm <;> rwa [hm]
  · intro t w hw ht
    rcases Nat.lt_or_eq_of_le (Nat.le_of_lt_succ (Nat.lt_of_lt_of_le ht hle)) with hlt | rfl
    · exact hrun t w hw hlt
    · exact hi w hw

/-- `kthread_stop` sets the flag of a thread and begins to wait. -/
theorem flag {p : Path} {i : Nat} {sh : Shared} {ws : List Worker} (h : Inv ⟨sh, ws, .stop p i⟩)
    (hw : ws[i]? = some w) : Inv ⟨sh, ws.set i { w with should_stop := true }, .wait p i⟩ := by
  obtain ⟨os, hperm, hset⟩ := perm_of_getElem? hw
  have hset := hset { w with should_stop := true }
  refine ⟨⟨nofun, fun v hv => ?_⟩, h.pointer, ?_, fun t v hv ht => ?_, nofun, fun _ => ?_⟩
  · rcases List.mem_or_eq_of_mem_set hv with hv | rfl
    · exact h.no_oops.2 v hv
    · exact h.no_oops.2 w (List.mem_of_getElem? hw)
  · rw [List.length_set]
    exact h.threads
  · have hti : t < i := ht
    have hv : (ws.set i { w with should_stop := true })[t]? = some v := hv
    rw [List.getElem?_set_ne (Nat.ne_of_gt hti)] at hv
    exact h.running t v hv hti
  · have howned := h.owned rfl
    rw [holders, freeing, hperm.countP_eq, hperm.countP_eq] at howned
    rw [holders, freeing, hset.countP_eq, hset.countP_eq]
    exact howned

/-- `kthread_run` makes a thread. -/
theorem spawn {n : Nat} {sh : Shared} {ws : List Worker} (h : Inv ⟨sh, ws, .run n⟩)
    (hw : w.pc = .created) :
    Inv ⟨sh, ws ++ [w], if n + 1 = numThreads then .loaded else .run (n + 1)⟩ := by
  have hlen : (ws ++ [w]).length = n + 1 := by
    rw [List.length_append, h.threads]
    rfl
  have hoops : ∀ v ∈ ws ++ [w], v.pc ≠ .oops := by
    intro v hv
    rcases List.mem_append.1 hv with hv | hv
    · exact h.no_oops.2 v hv
    · rw [List.mem_singleton.1 hv, hw]
      nofun
  have howned : sh.refcount.Owned (1 + holders (ws ++ [w])) (freeing (ws ++ [w]) + 0) := by
    have hperm : (ws ++ [w]).Perm (w :: ws) := List.perm_append_singleton w ws
    rw [holders, freeing, hperm.countP_eq, hperm.countP_eq, ← holders, ← freeing, holders_cons,
      freeing_cons, hw]
    exact h.owned rfl
  split
  · rename_i hn
    exact ⟨⟨nofun, hoops⟩, h.pointer, hlen.trans hn, nofun, nofun, fun _ => howned⟩
  · exact ⟨⟨nofun, hoops⟩, h.pointer, hlen, nofun, nofun, fun _ => howned⟩

theorem main (h : Inv s) {ok : Bool} (hs : s.main_step ok = some s') : Inv s' := by
  obtain ⟨sh, ws, m⟩ := s
  cases m with
  | create =>
    have hnil : ws = [] := List.eq_nil_of_length_eq_zero h.threads
    subst hnil
    cases ok with
    | true =>
      cases hs
      exact ⟨⟨nofun, nofun⟩, rfl, rfl, nofun, nofun, fun _ => .init⟩
    | false =>
      cases hs
      exact h.move nofun ⟨rfl, rfl, rfl, rfl, rfl⟩ nofun
  | run n =>
    cases ok with
    | true =>
      cases hs
      exact h.spawn rfl
    | false =>
      cases hs
      obtain ⟨hoops, hle, hspec⟩ := (Path.failed n).stop_spec 0
      refine h.move hoops hspec fun t w _ ht => ?_
      omega
  | loaded =>
    cases hs
    obtain ⟨hoops, hle, hspec⟩ := Path.exit.stop_spec 0
    refine h.move hoops hspec fun t w _ ht => ?_
    omega
  | stop p i =>
    simp only [Sys.main_step] at hs
    split at hs
    · rename_i w hw
      cases hs
      exact h.flag hw
    · rename_i hnone
      cases hs
      exact h.next (.inl rfl) fun w hw => by cases hnone.symm.trans hw
  | wait p i =>
    simp only [Sys.main_step, Option.bind_eq_bind, Option.bind_eq_some_iff] at hs
    obtain ⟨w, hw, hs⟩ := hs
    split at hs
    · rename_i hexited
      cases hs
      apply h.next (.inr rfl)
      intro v hv
      cases hw.symm.trans hv
      exact hexited
    · cases hs
  | test =>
    have hptr : sh.global_obj = true := h.pointer
    simp only [Sys.main_step, hptr, if_true] at hs
    cases hs
    exact h.move nofun ⟨rfl, rfl, rfl, rfl, rfl⟩ h.running
  | put p =>
    have hptr : sh.global_obj = true := h.pointer
    obtain ⟨-, hholders, hfreeing⟩ := h.all_exited (Nat.le_refl _)
    have howned := h.owned rfl
    rw [hholders, hfreeing] at howned
    have hput := howned.dec_and_test
    have hlast : sh.refcount.dec_and_test.2 = true := hput.2.2 rfl
    simp only [Sys.main_step, hptr, if_true, hlast] at hs
    cases hs
    refine ⟨⟨nofun, h.no_oops.2⟩, rfl, h.threads, h.running, nofun, fun _ => ?_⟩
    rw [hholders, hfreeing]
    rw [hlast] at hput
    exact hput.1
  | release p =>
    obtain ⟨-, hholders, hfreeing⟩ := h.all_exited (Nat.le_refl _)
    have howned := h.owned rfl
    rw [hholders, hfreeing] at howned
    cases hs
    cases p with
    | failed n =>
      refine ⟨⟨nofun, h.no_oops.2⟩, h.pointer, h.threads, h.running, nofun, fun _ => ?_⟩
      rw [hholders, hfreeing]
      exact howned.free
    | exit =>
      refine ⟨⟨nofun, h.no_oops.2⟩, h.pointer, h.threads, h.running, nofun, fun _ => ?_⟩
      rw [hholders, hfreeing]
      exact howned.free
  | clear =>
    cases hs
    exact ⟨⟨nofun, h.no_oops.2⟩, rfl, h.threads, h.running, nofun, h.owned⟩
  | no_object => cases hs
  | oops => cases hs
  | done p => cases hs

theorem step {a : Action} (h : Inv s) (hs : s.step a = some s') : Inv s' := by
  cases a with
  | main ok => exact h.main hs
  | worker t =>
    simp only [Sys.step, Option.bind_eq_bind, Option.bind_eq_some_iff] at hs
    obtain ⟨w, hw, ⟨sh, w'⟩, hstep, hs'⟩ := hs
    cases hs'
    exact h.worker hw hstep

/-- A worker that is there keeps the object alive. -/
theorem live (h : Inv s) (hw : w ∈ s.workers) (hne : w.pc ≠ .exited) :
    s.global_obj = true ∧ 0 < s.refcount.count ∧ s.refcount.frees = 0 ∧ w.pc.frees = false ∧
      s.main.frees = false := by
  obtain ⟨t, ht⟩ := List.mem_iff_getElem?.1 hw
  obtain ⟨os, hperm, -⟩ := perm_of_getElem? ht
  obtain ⟨-, -, hmain, hpoints⟩ := h.present ht hne
  obtain ⟨howned, -, hfrees⟩ := h.owned_at ht hne hperm
  refine ⟨h.pointer.trans hpoints, ?_, (howned.live (Nat.succ_pos _)).1, hfrees, hmain⟩
  rw [howned.count]
  exact Nat.succ_pos _

theorem safe (h : Inv s) : Safe s where
  no_oops := h.no_oops
  get_live w hw i hpc := by
    obtain ⟨hptr, hcount, hfrees, -⟩ := h.live hw (by rw [hpc]; nofun)
    exact ⟨hptr, hcount, hfrees⟩
  accesses w hw ha := (h.live hw fun he => by simp [he, Pc.accesses] at ha).2.2.1
  released_once := by
    cases hc : s.main.created with
    | true => exact (h.owned hc).frees_le
    | false => rw [h.fresh hc]; exact Nat.zero_le 1
  released_last hrel w hw := by
    by_contra hne
    obtain ⟨-, -, hfrees, -, hmain⟩ := h.live hw hne
    rcases hrel with hrel | hrel | ⟨v, hv, hrel⟩
    · omega
    · rw [hmain] at hrel
      cases hrel
    · have := (h.live hv fun he => by simp [he, Pc.frees] at hrel).2.2.2.1
      rw [this] at hrel
      cases hrel
  released hover := by
    cases hm : s.main with
    | no_object => exact h.fresh (by rw [hm]; rfl)
    | done p =>
      have howned := h.owned (by rw [hm]; rfl)
      obtain ⟨-, hholders, hfreeing⟩ := h.all_exited (by rw [hm]; exact Nat.le_refl _)
      rw [hholders, hfreeing, hm] at howned
      exact howned.frees
    | _ => simp [hm, Main.over] at hover

end Inv

/-- **Lifetime of the object.** Every state that a run of the module reaches is safe, whatever fails
in `kref_example_init` and however the workers' steps are interleaved with it and with the exit. -/
theorem kref_safe {s : Sys} {as : List Action} (h : run Sys.step .init as = some s) : Safe s :=
  (run_inv_of_step (I := Inv) Inv.step .init h).safe

/-- The second `kthread_run` fails while the first worker has the object. -/
theorem kref_safe_of_failure :
    Safe ⟨⟨true, ⟨0, 1⟩, 101⟩, [⟨1, true, .exited⟩], .done (.failed 1)⟩ := by
  let worker := List.replicate 4 (Action.worker 0)
  have h : run Sys.step .init
      ([.main true, .main true] ++ worker ++ [.main false, .main true] ++ worker ++ [.worker 0] ++
        [.main true, .main true, .main true]) =
      some ⟨⟨true, ⟨0, 1⟩, 101⟩, [⟨1, true, .exited⟩], .done (.failed 1)⟩ := by
    decide
  exact kref_safe h

end LinuxKernelProg.Sync.KrefExample
