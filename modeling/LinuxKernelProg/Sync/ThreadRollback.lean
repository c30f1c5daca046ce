import Mathlib.Data.BitVec
import Mathlib.Data.List.Perm.Basic

/-!
# Starting threads, and failing to

The init functions of `lockless_queue.c`, `lockfree_list.c`, `srcu_example.c` and
`refcount_example.c` start one thread after the other. When `kthread_run` fails they stop the
threads they have started, with the index of the loop counting down, and return the error that they
then find in the array at that index. A count down ends at -1, so this is a read in front of the
array.
-/

namespace LinuxKernelProg.Sync.ThreadRollback

/-! ## Pointers and errors -/

/-- A `struct task_struct *`, or an error in its place. -/
abbrev Ptr := BitVec 64

/-- The top `MAX_ERRNO` addresses are errors. -/
def IS_ERR (p : Ptr) : Bool := 2 ^ 64 - 4095 ≤ p.toNat

def ERR_PTR (e : BitVec 32) : Ptr := e.signExtend 64

/-- As it is returned: cut to an `int`. -/
def PTR_ERR (p : Ptr) : BitVec 32 := p.setWidth 32

/-- An error code. -/
def IsErrno (e : BitVec 32) : Prop := -4095 ≤ e.toInt ∧ e.toInt < 0

instance : DecidablePred IsErrno :=
  fun e => inferInstanceAs (Decidable (-4095 ≤ e.toInt ∧ e.toInt < 0))

theorem PTR_ERR_ERR_PTR (e : BitVec 32) : PTR_ERR (ERR_PTR e) = e := by
  apply BitVec.eq_of_getLsbD_eq
  intro i hi
  rw [PTR_ERR, ERR_PTR, BitVec.getLsbD_setWidth, BitVec.getLsbD_signExtend, if_pos hi]
  simp [hi, Nat.lt_trans hi (by decide : 32 < 64)]

theorem IS_ERR_ERR_PTR {e : BitVec 32} (he : IsErrno e) : IS_ERR (ERR_PTR e) = true := by
  obtain ⟨hlo, hhi⟩ := he
  have hext : (e.signExtend 64).toInt = e.toInt := BitVec.toInt_signExtend_of_le (by decide)
  have hnat := BitVec.toInt_eq_toNat_cond (e.signExtend 64)
  rw [IS_ERR, ERR_PTR, decide_eq_true_iff]
  split at hnat <;> omega

/-! ## The program -/

/-- A call that an init function makes on its way out. -/
inductive Call where
  /-- `kthread_stop` with what is read from an array, or from outside of it. -/
  | stop (p : Option Ptr)
  /-- It frees, or puts, what it has allocated. -/
  | release
  deriving DecidableEq

structure Outcome where
  calls : List Call
  /-- What is returned, unless it is read outside of an array. -/
  ret : Option (BitVec 32)
  deriving DecidableEq

/-- The element of an array. -/
def read (threads : List Ptr) (i : Int) : Option Ptr := if 0 ≤ i then threads[i.toNat]? else none

/-- `for (; left; i++) { threads[i] = kthread_run(..); if (IS_ERR(threads[i])) .. }`: the array, and
the index at which the loop is left with an error. -/
def start (kthread_run : Nat → Ptr) : (left i : Nat) → List Ptr → List Ptr × Option Nat
  | 0, _, threads => (threads, none)
  | left + 1, i, threads =>
    let threads := threads.set i (kthread_run i)
    if (read threads i).any IS_ERR then (threads, some i)
    else start kthread_run left (i + 1) threads

/-- A static array of `n` pointers, with the loop that fills it in. -/
def starting (kthread_run : Nat → Ptr) (n : Nat) : List Ptr × Option Nat :=
  start kthread_run n 0 (List.replicate n 0)

/-- `while (--i >= 0) kthread_stop(threads[i]);` and the index behind it. -/
def unwind (threads : List Ptr) : Nat → List Call × Int
  | 0 => ([], -1)
  | i + 1 =>
    let (calls, j) := unwind threads i
    (.stop (read threads i) :: calls, j)

/-- `for (i = 0; i < n; i++) kthread_stop(threads[i]);` and the index behind it. -/
def stopAll (threads : List Ptr) (n : Nat) : List Call × Int :=
  ((List.range n).map fun i : Nat => .stop (read threads i), n)

/-- `producers` and `consumers` are for `MAX_PRODUCERS` and `MAX_CONSUMERS`, and `kthread_run` is
what its calls return. -/
def lockless_queue_init (producers consumers : Nat) (kthread_run : Nat → Ptr) : Outcome :=
  match starting kthread_run producers with
  | (producer_threads, some i) =>
    let (calls, i) := unwind producer_threads i
    ⟨calls, (read producer_threads i).map PTR_ERR⟩
  | (producer_threads, none) =>
    match starting (fun i => kthread_run (producers + i)) consumers with
    | (consumer_threads, some i) =>
      let (calls, _) := unwind consumer_threads i
      let (calls', i) := stopAll producer_threads producers
      ⟨calls ++ calls', (read consumer_threads i).map PTR_ERR⟩
    | (_, none) => ⟨[], some 0⟩

def lockfree_list_init (workers : Nat) (kthread_run : Nat → Ptr) : Outcome :=
  match starting kthread_run workers with
  | (worker_threads, some i) =>
    let (calls, i) := unwind worker_threads i
    ⟨calls, (read worker_threads i).map PTR_ERR⟩
  | (_, none) => ⟨[], some 0⟩

def ENOMEM : BitVec 32 := 12

/-- `alloc` says whether `create_data` succeeds. -/
def srcu_example_init (alloc : Bool) (readers : Nat) (kthread_run : Nat → Ptr) : Outcome :=
  if !alloc then ⟨[], some (-ENOMEM)⟩
  else
    match starting kthread_run readers with
    | (reader_threads, some i) =>
      let (calls, i) := unwind reader_threads i
      ⟨calls ++ [.release], (read reader_threads i).map PTR_ERR⟩
    | (reader_threads, none) =>
      let writer_thread := kthread_run readers
      if IS_ERR writer_thread then
        let (calls, _) := stopAll reader_threads readers
        ⟨calls ++ [.release], some (PTR_ERR writer_thread)⟩
      else ⟨[], some 0⟩

/-- `alloc` says whether `create_resource` succeeds. -/
def refcount_example_init (alloc : Bool) (users : Nat) (kthread_run : Nat → Ptr) : Outcome :=
  if !alloc then ⟨[], some (-ENOMEM)⟩
  else
    match starting kthread_run users with
    | (user_threads, some i) =>
      let (calls, i) := unwind user_threads i
      ⟨calls ++ [.release], (read user_threads i).map PTR_ERR⟩
    | (_, none) => ⟨[], some 0⟩

/-! ## What is to be done -/

/-- What is passed to `kthread_stop`. -/
def Call.stop? : Call → Option (Option Ptr)
  | .stop p => some p
  | .release => none

def Outcome.stops (o : Outcome) : List (Option Ptr) := o.calls.filterMap Call.stop?

/-- The `k`-th call of `kthread_run` has failed with `e`, and all is undone. -/
structure RolledBack (kthread_run : Nat → Ptr) (k : Nat) (e : BitVec 32) (o : Outcome) : Prop where
  /-- The threads that were started are stopped, each once. -/
  stopped : o.stops.Perm ((List.range k).map fun i => some (kthread_run i))
  inside : none ∉ o.stops ∧ o.ret ≠ none
  returned : o.ret = some e

inductive Module where
  | lockless_queue (producers consumers : Nat)
  | lockfree_list (workers : Nat)
  | srcu_example (readers : Nat)
  | refcount_example (users : Nat)

namespace Module

/-- How many threads the module starts. -/
def threads : Module → Nat
  | lockless_queue producers consumers => producers + consumers
  | lockfree_list workers => workers
  | srcu_example readers => readers + 1
  | refcount_example users => users

/-- The init function, where the object that it allocates first is there. -/
def init : Module → (Nat → Ptr) → Outcome
  | lockless_queue producers consumers => lockless_queue_init producers consumers
  | lockfree_list workers => lockfree_list_init workers
  | srcu_example readers => srcu_example_init true readers
  | refcount_example users => refcount_example_init true users

/-- The error is read where it is: the failing thread has a variable of its own, or the failing
consumer is in the array at the number of the producers. If that is the place of an earlier
consumer, the end of its address is taken for the error. -/
def Finds (kthread_run : Nat → Ptr) (k : Nat) (e : BitVec 32) : Module → Prop
  | lockless_queue producers consumers =>
    producers < consumers ∧ (k = producers + producers ∨
      producers + producers < k ∧ PTR_ERR (kthread_run (producers + producers)) = e)
  | lockfree_list _ => False
  | srcu_example readers => k = readers
  | refcount_example _ => False

end Module

/-! ## The loops -/

variable {kthread_run : Nat → Ptr} {threads : List Ptr} {k n : Nat} {e : BitVec 32}

@[simp] theorem read_natCast (i : Nat) : read threads i = threads[i]? := by
  rw [read, if_pos (Int.natCast_nonneg i), Int.toNat_natCast]

/-- An array whose first `i` elements are filled in. -/
def filled (kthread_run : Nat → Ptr) (i left : Nat) : List Ptr :=
  (List.range i).map kthread_run ++ List.replicate left 0

theorem filled_getElem? (i left j : Nat) : (filled kthread_run i left)[j]? =
    if j < i then some (kthread_run j) else if j < i + left then some 0 else none := by
  unfold filled
  by_cases hj : j < i
  · rw [if_pos hj, List.getElem?_append_left (by simpa using hj), List.getElem?_map,
      List.getElem?_range hj, Option.map_some]
  · rw [if_neg hj, List.getElem?_append_right (by simpa using hj), List.length_map,
      List.length_range, List.getElem?_replicate]
    split <;> split <;> first | rfl | omega

theorem filled_set (i left : Nat) :
    (filled kthread_run i (left + 1)).set i (kthread_run i) = filled kthread_run (i + 1) left := by
  unfold filled
  rw [List.set_append_right _ _ (by simp), List.length_map, List.length_range, Nat.sub_self,
    List.replicate_succ, List.set_cons_zero, List.range_succ, List.map_append,
    List.map_singleton, List.append_assoc]
  rfl

/-- A round of the loop. -/
theorem start_succ (left i : Nat) :
    start kthread_run (left + 1) i (filled kthread_run i (left + 1)) =
    if IS_ERR (kthread_run i) then (filled kthread_run (i + 1) left, some i)
    else start kthread_run left (i + 1) (filled kthread_run (i + 1) left) := by
  have hread : read (filled kthread_run (i + 1) left) i = some (kthread_run i) := by
    rw [read_natCast, filled_getElem?, if_pos (Nat.lt_succ_self i)]
  rw [start, filled_set]
  simp only [hread, Option.any_some]

/-- The loop goes on as long as no call fails. -/
theorem start_ok (kthread_run : Nat → Ptr) (left i : Nat)
    (hok : ∀ j, j < i + left → IS_ERR (kthread_run j) = false) :
    start kthread_run left i (filled kthread_run i left) =
      (filled kthread_run (i + left) 0, none) := by
  induction left generalizing i with
  | zero => rfl
  | succ left ih =>
    have hi : IS_ERR (kthread_run i) = false := hok i (by omega)
    rw [start_succ, hi, if_neg Bool.false_ne_true, ih (i + 1) fun j hj => hok j (by omega)]
    rw [Nat.add_right_comm, Nat.add_assoc]

/-- It is left at the first call that fails. -/
theorem start_fail (left i : Nat) (hik : i ≤ k) (hk : k < i + left)
    (hok : ∀ j < k, IS_ERR (kthread_run j) = false) (hfail : IS_ERR (kthread_run k) = true) :
    start kthread_run left i (filled kthread_run i left) =
      (filled kthread_run (k + 1) (i + left - (k + 1)), some k) := by
  induction left generalizing i with
  | zero => omega
  | succ left ih =>
    rw [start_succ]
    rcases Nat.eq_or_lt_of_le hik with rfl | hlt
    · rw [if_pos hfail]
      congr 2
      omega
    · rw [hok i hlt, if_neg Bool.false_ne_true, ih (i + 1) hlt (by omega)]
      congr 2
      omega

theorem starting_ok (hok : ∀ j < n, IS_ERR (kthread_run j) = false) :
    starting kthread_run n = (filled kthread_run n 0, none) := by
  have h := start_ok kthread_run n 0 fun j hj => hok j (by omega)
  rwa [Nat.zero_add] at h

theorem starting_fail (hk : k < n) (hok : ∀ j < k, IS_ERR (kthread_run j) = false)
    (hfail : IS_ERR (kthread_run k) = true) :
    starting kthread_run n = (filled kthread_run (k + 1) (n - (k + 1)), some k) := by
  have h := start_fail n 0 (Nat.zero_le k) (by omega) hok hfail
  rwa [Nat.zero_add] at h

/-- The count down stops each thread in front of the index, and ends in front of the array. -/
theorem unwind_eq (i : Nat) :
    unwind threads i = (((List.range i).map fun j => Call.stop threads[j]?).reverse, -1) := by
  induction i with
  | zero => rfl
  | succ i ih =>
    rw [unwind, ih, List.range_succ, List.map_append, List.map_singleton,
      List.reverse_append, read_natCast]
    rfl

/-! ## When everything is rolled back -/

section

variable {o : Outcome}

theorem not_rolledBack_of_outside (h : o.ret = none) : ¬ RolledBack kthread_run k e o :=
  fun hr => hr.inside.2 h

/-- Where the threads are stopped as they should be, it is up to what is returned. -/
theorem rolledBack_iff_ret
    (hstops : o.stops.Perm ((List.range k).map fun i => some (kthread_run i))) :
    RolledBack kthread_run k e o ↔ o.ret = some e := by
  refine ⟨fun hr => hr.returned, fun hret => ⟨hstops, ⟨fun hnone => ?_, fun hnone => ?_⟩, hret⟩⟩
  · obtain ⟨i, -, hi⟩ := List.mem_map.1 (hstops.mem_iff.1 hnone)
    cases hi
  · rw [hret] at hnone
    cases hnone

end

theorem filterMap_stop (f : Nat → Option Ptr) (l : List Nat) :
    (l.map fun i => Call.stop (f i)).filterMap Call.stop? = l.map f := by
  rw [List.filterMap_map, ← List.filterMap_eq_map]
  rfl

/-- The elements of an array, up to an index, are the threads that were started. -/
theorem map_getElem?_eq {m : Nat} (h : ∀ j < m, threads[j]? = some (kthread_run j)) :
    (List.range m).map (fun j => threads[j]?) = (List.range m).map fun j => some (kthread_run j) :=
  List.map_congr_left fun j hj => h j (List.mem_range.1 hj)

theorem unwind_stops {m : Nat} (h : ∀ j < m, threads[j]? = some (kthread_run j)) :
    ((unwind threads m).1.filterMap Call.stop?).Perm
      ((List.range m).map fun j => some (kthread_run j)) := by
  rw [unwind_eq, List.filterMap_reverse, filterMap_stop, map_getElem?_eq h]
  exact List.reverse_perm _

theorem stopAll_stops {m : Nat} (h : ∀ j < m, threads[j]? = some (kthread_run j)) :
    (stopAll threads m).1.filterMap Call.stop? = (List.range m).map fun j =>
      some (kthread_run j) := by
  have hread : (stopAll threads m).1 = (List.range m).map fun i => Call.stop threads[i]? :=
    List.map_congr_left fun i _ => congrArg Call.stop (read_natCast i)
  rw [hread, filterMap_stop, map_getElem?_eq h]

theorem filled_started {m i left : Nat} (hm : m ≤ i) :
    ∀ j < m, (filled kthread_run i left)[j]? = some (kthread_run j) := fun j hj => by
  rw [filled_getElem?, if_pos (Nat.lt_of_lt_of_le hj hm)]

/-- A thread of the array fails: what is returned is in front of the array. -/
theorem ret_unwind (m : Nat) : (read threads (unwind threads m).2).map PTR_ERR = none := by
  rw [unwind_eq]
  rfl

/-- What is read as the error of a consumer. -/
theorem ret_consumer {producers consumers i : Nat} (hi : i < consumers) (he : IsErrno e)
    (hfail : kthread_run (producers + i) = ERR_PTR e) :
    (filled (fun j => kthread_run (producers + j)) (i + 1) (consumers - (i + 1)))[producers]?.map
      PTR_ERR = some e ↔
      producers < consumers ∧ (producers + i = producers + producers ∨
        producers + producers < producers + i ∧
        PTR_ERR (kthread_run (producers + producers)) = e) := by
  rw [filled_getElem?]
  rcases Nat.lt_trichotomy producers i with hlt | rfl | hgt
  · rw [if_pos (by omega), Option.map_some, Option.some.injEq]
    exact ⟨fun h => ⟨by omega, .inr ⟨by omega, h⟩⟩,
      fun ⟨_, h⟩ => h.elim (fun h => by omega) And.right⟩
  · rw [if_pos (by omega), Option.map_some, hfail, PTR_ERR_ERR_PTR]
    exact iff_of_true rfl ⟨hi, .inl rfl⟩
  · rw [if_neg (by omega)]
    refine iff_of_false ?_ fun ⟨_, h⟩ => by omega
    split
    · -- the element is still NULL
      intro h
      obtain rfl := Option.some.inj h
      exact absurd he.2 (by decide)
    · nofun

/-- **Rollback.** The init functions stop each thread that they have started exactly once, read
nothing outside of their arrays and return the error if and only if they find the error where it
is. -/
theorem rolledBack_iff (m : Module) (kthread_run : Nat → Ptr) (k : Nat) (e : BitVec 32)
    (hk : k < m.threads) (he : IsErrno e) (hok : ∀ j < k, IS_ERR (kthread_run j) = false)
    (hfail : kthread_run k = ERR_PTR e) :
    RolledBack kthread_run k e (m.init kthread_run) ↔ m.Finds kthread_run k e := by
  have herr : IS_ERR (kthread_run k) = true := hfail ▸ IS_ERR_ERR_PTR he
  cases m with
  | lockless_queue producers consumers =>
    change RolledBack _ k e (lockless_queue_init producers consumers kthread_run) ↔ _
    unfold lockless_queue_init
    by_cases hp : k < producers
    · rw [starting_fail hp hok herr]
      refine iff_of_false (not_rolledBack_of_outside (ret_unwind k)) ?_
      rintro ⟨-, h⟩
      omega
    · obtain ⟨i, rfl⟩ := Nat.exists_eq_add_of_le (Nat.not_lt.1 hp)
      have hi : i < consumers := Nat.lt_of_add_lt_add_left hk
      rw [starting_ok fun j hj => hok j (by omega),
        starting_fail hi (fun j hj => hok (producers + j) (Nat.add_lt_add_left hj producers)) herr]
      rw [rolledBack_iff_ret]
      · change (read _ (producers : Int)).map PTR_ERR = _ ↔ _
        rw [read_natCast]
        exact ret_consumer hi he hfail
      · change (List.filterMap Call.stop? (_ ++ _)).Perm _
        rw [List.filterMap_append, stopAll_stops (filled_started (Nat.le_refl producers)),
          List.range_add, List.map_append, List.map_map]
        exact (List.perm_append_comm.trans
          ((unwind_stops (filled_started (Nat.le_succ i))).append_left _))
  | lockfree_list workers =>
    change RolledBack _ k e (lockfree_list_init workers kthread_run) ↔ _
    have hk : k < workers := hk
    unfold lockfree_list_init
    rw [starting_fail hk hok herr]
    exact iff_of_false (not_rolledBack_of_outside (ret_unwind k)) id
  | srcu_example readers =>
    change RolledBack _ k e (srcu_example_init true readers kthread_run) ↔ k = readers
    unfold srcu_example_init
    by_cases hr : k < readers
    · rw [starting_fail hr hok herr]
      exact iff_of_false (not_rolledBack_of_outside (ret_unwind k)) (Nat.ne_of_lt hr)
    · obtain rfl : k = readers := Nat.le_antisymm (Nat.le_of_lt_succ hk) (Nat.not_lt.1 hr)
      rw [starting_ok hok]
      simp only [Bool.not_true, Bool.false_eq_true, if_false, herr, if_true]
      rw [rolledBack_iff_ret]
      · rw [hfail, PTR_ERR_ERR_PTR]
        exact iff_of_true rfl trivial
      · change (List.filterMap Call.stop? (_ ++ [Call.release])).Perm _
        rw [List.filterMap_append, stopAll_stops (filled_started (Nat.le_refl k))]
        exact .of_eq (List.append_nil _)
  | refcount_example users =>
    change RolledBack _ k e (refcount_example_init true users kthread_run) ↔ _
    have hk : k < users := hk
    unfold refcount_example_init
    rw [starting_fail hk hok herr]
    exact iff_of_false (not_rolledBack_of_outside (ret_unwind k)) id

/-- The first `k` threads are made, and the next one is not. -/
def failing (k : Nat) (e : BitVec 32) (i : Nat) : Ptr :=
  if i = k then ERR_PTR e else 0xffff888004a00000 + BitVec.ofNat 64 (0x1000 * i)

/-- The writer of `srcu_example.c` fails. -/
theorem rolledBack_writer :
    RolledBack (failing 3 (-12)) 3 (-12) ((Module.srcu_example 3).init (failing 3 (-12))) :=
  (rolledBack_iff (.srcu_example 3) (failing 3 (-12)) 3 (-12) (by decide) (by decide)
    (by decide) rfl).2 rfl

/-- The second worker of `lockfree_list.c` fails: the error is looked for in front of the array. -/
theorem worker_not_rolledBack :
    ¬ ∀ (m : Module) (kthread_run : Nat → Ptr) (k : Nat) (e : BitVec 32), k < m.threads →
    IsErrno e → (∀ j < k, IS_ERR (kthread_run j) = false) → kthread_run k = ERR_PTR e →
    RolledBack kthread_run k e (m.init kthread_run) := by
  intro h
  have hr := h (.lockfree_list 3) (failing 1 (-12)) 1 (-12) (by decide) (by decide) (by decide) rfl
  have hret : none = some (-12 : BitVec 32) := hr.returned
  cases hret

end LinuxKernelProg.Sync.ThreadRollback
