import LinuxKernelProg.Sync.KthreadStop.Queues
import LinuxKernelProg.Sync.KthreadStop.References

/-!
# Stopping threads that run

The thread functions of `kref_example.c`, `refcount_example.c`, `lockless_queue.c` and
`lockfree_list.c` run a bounded number of rounds, and the exit functions call `kthread_stop` for
each of the threads. None of the modules takes a reference to a task structure, so a thread that is
through with its rounds before the exit asks it to stop leaves a pointer behind that the exit goes
on to use.
-/

namespace LinuxKernelProg.Sync.KthreadStop

open LinuxKernelProg.Lib

/-- The modules, with the threads that they start. -/
inductive Module where
  | kref_example
  | refcount_example (thread_ids : List (BitVec 32))
  | lockless_queue (producers consumers : Nat)
  | lockfree_list (workers : Nat)

namespace Module

def threads : Module → Kthreads
  | kref_example => KrefExample.threads
  | refcount_example thread_ids => RefcountExample.threads thread_ids
  | lockless_queue producers consumers => LocklessQueue.threads producers consumers
  | lockfree_list workers => LockfreeList.threads workers

def account : (m : Module) → m.threads.Account
  | kref_example => KrefExample.account
  | refcount_example thread_ids => RefcountExample.account thread_ids
  | lockless_queue producers consumers => LocklessQueue.account producers consumers
  | lockfree_list workers => LockfreeList.stopAccount workers

end Module

/-- **Each `kthread_stop` is for a thread that runs** as long as no thread goes through all its
rounds and returns before it is asked to. Once `kthread_stop` has been called for each thread that
has returned, this is needed as well. -/
theorem stops_running_iff (m : Module) (as : List m.threads.Action) {t : m.threads.State}
    (h : run m.threads.step m.threads.init as = some t) :
    (m.threads.NoneLeaves as → m.threads.StopsRunning as) ∧
      ((∀ k, m.threads.returned t k = true → m.threads.asked t k = true) →
        (m.threads.StopsRunning as ↔ m.threads.NoneLeaves as)) := m.account.stopsRunning_iff h

/-- The module is unloaded at once: the consumer is asked before its first step. -/
def unloadedAtOnce : List (Module.lockless_queue 0 1).threads.Action :=
  [LocklessQueue.Action.exit, LocklessQueue.Action.exit, LocklessQueue.Action.thread .consumer 0,
    LocklessQueue.Action.exit]

theorem stops_running_at_once : ∃ t, run (Module.lockless_queue 0 1).threads.step
    (Module.lockless_queue 0 1).threads.init unloadedAtOnce = some t ∧
      (Module.lockless_queue 0 1).threads.StopsRunning unloadedAtOnce := by
  refine ⟨_, rfl, ?_⟩
  exact (stops_running_iff (.lockless_queue 0 1) unloadedAtOnce rfl).1 (by decide)

/-- A worker goes through its eight rounds, gets no memory in any of them, prints the list and
returns. -/
def rounds : List LockfreeList.Action := List.replicate 34 (.worker 0 false)

/-- An unload that comes later stops a thread that is gone. -/
theorem stops_returned : ¬ ∀ (m : Module) (as : List m.threads.Action) (t : m.threads.State),
    run m.threads.step m.threads.init as = some t → m.threads.StopsRunning as := by
  intro h
  have hstops := (h (.lockfree_list 3) (rounds ++ [.exit]) _ rfl).get (i := 34) rfl rfl
  have hreturned : true = false := hstops 0 rfl
  cases hreturned

end LinuxKernelProg.Sync.KthreadStop
