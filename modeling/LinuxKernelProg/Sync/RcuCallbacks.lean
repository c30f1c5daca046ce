import LinuxKernelProg.Sync.ListRcu.Unload
import LinuxKernelProg.Sync.LockfreeList.Unload
import LinuxKernelProg.Sync.RcuPointer.Unload

/-!
# Callbacks and the unload

`list_rcu.c`, `kthread_rcasync.c`, `lockfree_list.c` and `srcu_example.c` give objects to `call_rcu`
and have the callback in the module. None of them calls `rcu_barrier`, so whether a callback is
still queued when the exit function returns is up to the kernel: it has run all of them, or the next
one jumps into text that is gone.
-/

namespace LinuxKernelProg.Sync.RcuCallbacks

open LinuxKernelProg.Lib

/-- The modules, with the number of readers or workers. -/
inductive Example where
  | list_rcu
  | kthread_rcasync (readers : Nat)
  | lockfree_list (workers : Nat)
  | srcu_example (readers : Nat)

namespace Example

def unload : Example → Unload (Nat × Nat)
  | list_rcu => ListRcu.unload
  | kthread_rcasync readers => RcuPointer.unload .rcasync readers
  | lockfree_list workers => LockfreeList.unload workers
  | srcu_example readers => RcuPointer.unload .srcu readers

def account : (e : Example) → e.unload.Account
  | list_rcu => ListRcu.account
  | kthread_rcasync readers => RcuPointer.account .rcasync readers
  | lockfree_list workers => LockfreeList.account workers
  | srcu_example readers => RcuPointer.account .srcu readers

end Example

/-- **No callback is pending** when the exit function returns, exactly if the kernel has run as many
as the module owed: for each record the updater allocated, each book a call with `async` took off,
or each node the scan of a worker decided to take off. -/
theorem none_pending_iff (e : Example) (as : List e.unload.Action) {t : e.unload.State}
    (h : run e.unload.next e.unload.init as = some t) (ht : e.unload.returned t = true) :
    e.unload.pending t = [] ↔ e.unload.callbacks as = e.unload.owed as := e.account.pending_iff h ht

/-- The updater publishes one record; the exit stops the threads, queues the record, waits for the
readers, and returns. -/
def unloading : List RcuPointer.Action :=
  [.updater none, .updater (some 7), .updater none, .exit, .exit, .updater none, .exit,
    .exit, .reader 0, .exit,
    .exit, .exit, .exit, .exit]

/-- All is well if the callback runs before the exit returns. -/
theorem none_pending_iff_heard : ∃ t, run (Example.kthread_rcasync 1).unload.next
    (Example.kthread_rcasync 1).unload.init (unloading ++ [.callback (1, 11), .exit]) = some t ∧
      (Example.kthread_rcasync 1).unload.pending t = [] := by
  refine ⟨_, rfl, ?_⟩
  exact (none_pending_iff (.kthread_rcasync 1) (unloading ++ [.callback (1, 11), .exit]) rfl rfl).2
    rfl

/-- It need not. -/
theorem callback_outlives : ¬ ∀ (e : Example) (as : List e.unload.Action) (t : e.unload.State),
    run e.unload.next e.unload.init as = some t → e.unload.returned t = true →
      e.unload.pending t = [] := by
  intro h
  have hnil := h (.kthread_rcasync 1) (unloading ++ [.exit]) _ rfl rfl
  cases hnil

end LinuxKernelProg.Sync.RcuCallbacks
