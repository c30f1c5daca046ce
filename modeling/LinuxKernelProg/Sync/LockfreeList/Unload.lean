import LinuxKernelProg.Lib.Ledger
import LinuxKernelProg.Sync.LockfreeList.Basic

/-!
# The callbacks of the lock-free list at the unload

The module owes a callback for each node that the scan of a worker decides to take off. The exit
waits for the workers, so no node is on its way to `call_rcu` any more when it returns; what the
exit finds on the list it frees itself. None of this depends on what the list looks like.
-/

namespace LinuxKernelProg.Sync.LockfreeList

open LinuxKernelProg.Lib

/-- The scan has come to a node that the worker will take off. -/
def Worker.owes (sh : Shared) (w : Worker) : Bool :=
  match w.pc with
  | .scan _ walk =>
    match walk.step sh.mem (removes w.thread_id) with
    | some (.stop _) => true
    | _ => false
  | _ => false

/-- The worker has a node that it will queue. -/
def Pc.hand : Pc → Bool
  | .del _ _ _ => true
  | .call_rcu _ _ => true
  | _ => false

def hands (ws : List Worker) : Nat := ws.countP fun w => w.pc.hand

/-- The module from its loading on. -/
def unload (workers : Nat) : Unload (Nat × Nat) where
  State := Sys
  Action := Action
  step := Sys.step
  init := .init workers
  returned s := s.exit = .returned
  pending s := s.callbacks
  callback
    | .callback _ => true
    | _ => false
  owes s
    | .worker k _ => (s.workers[k]?).any fun w => w.owes s.toShared
    | _ => false

variable {sh sh' : Shared} {alloc : Bool} {w w' : Worker} {s t : Sys} {k : Nat}

theorem worker_due (h : w.step sh alloc = some (sh', w')) :
    sh'.callbacks.length + w'.pc.hand.toNat =
      sh.callbacks.length + w.pc.hand.toNat + (w.owes sh).toNat := by
  obtain ⟨id, i, pc, stop⟩ := w
  unfold Worker.step at h
  cases pc <;> simp only at h
  case test =>
    cases h
    change _ + (Pc.hand (if _ then _ else _)).toNat = _
    split <;> rfl
  case create =>
    split at h <;> cases h <;> rfl
  case add n op =>
    split at h <;> cases h <;> rfl
  case check =>
    split at h <;> cases h <;> rfl
  case scan b walk =>
    unfold Worker.owes
    split at h <;> cases h <;> simp only [*] <;> rfl
  case del b n op =>
    split at h <;> cases h <;> rfl
  case call_rcu b n =>
    split at h <;> cases h
    · change (sh.callbacks ++ [(n, sh.clock)]).length + 0 = sh.callbacks.length + 1 + 0
      rw [List.length_append]
      rfl
    · rfl
  case unlock b =>
    cases h
    rfl
  case finish =>
    cases h
    change _ + (Pc.hand (if _ then _ else _)).toNat = _
    split <;> rfl
  case print b walk =>
    split at h <;> cases h <;> rfl
  case returned => cases h

theorem worker_step_due (h : s.worker_step k alloc = some t) :
    t.callbacks.length + hands t.workers =
      s.callbacks.length + hands s.workers +
        ((s.workers[k]?).any fun w => w.owes s.toShared).toNat := by
  obtain ⟨w, hw, h⟩ := Option.bind_eq_some_iff.1 h
  obtain ⟨⟨sh, w'⟩, hstep, h⟩ := Option.bind_eq_some_iff.1 h
  cases h
  have hdue := worker_due hstep
  have hhands := countP_set_add hw (fun w => w.pc.hand) w'
  rw [hw, Option.any_some]
  change sh.callbacks.length + hands (s.workers.set k w') = _
  unfold hands
  omega

theorem callback_step_due {q : Nat × Nat} (h : s.callback_step q = some t) :
    t.callbacks.length + 1 = s.callbacks.length ∧ t.workers = s.workers ∧ t.exit = s.exit := by
  unfold Sys.callback_step at h
  split at h
  · next hq =>
    simp only at h
    split at h <;> cases h <;> exact ⟨List.length_erase_add_one (List.contains_iff_mem.1 hq.1), rfl,
      rfl⟩
  · cases h

/-! ## The workers are stopped -/

/-- How many workers the exit has stopped. -/
def Exit.joined (workers : Nat) : Exit → Nat
  | .stop k => k
  | .join k => k
  | _ => workers

/-- The workers that the exit has stopped have returned. -/
def Joined (s : Sys) : Prop := ∀ k < s.exit.joined s.workers.length, s.hasReturned k = true

/-- What a step of the exit does: it stops a worker, it has waited for one, or it leaves them alone.
It queues nothing. -/
theorem exit_step_cases (h : s.exit_step = some t) : t.callbacks = s.callbacks ∧
    ((∃ k w, s.exit = .stop k ∧ s.workers[k]? = some w ∧ t.exit = .join k ∧
        t.workers = s.workers.set k { w with stop := true }) ∨
      (∃ k, s.exit = .join k ∧ s.hasReturned k = true ∧ t.exit = .stop (k + 1) ∧
        t.workers = s.workers) ∨
      (t.workers = s.workers ∧ t.exit.joined s.workers.length ≤ s.exit.joined
        s.workers.length)) := by
  unfold Sys.exit_step at h
  cases hexit : s.exit <;> rw [hexit] at h
  -- a fault leaves the exit where it is
  all_goals have hfault := Nat.le_of_eq (congrArg (Exit.joined s.workers.length) hexit)
  case stop k =>
    simp only at h
    split at h
    · next w hw =>
      cases h
      exact ⟨rfl, .inl ⟨k, w, rfl, hw, rfl, rfl⟩⟩
    · next hk =>
      cases h
      exact ⟨rfl, .inr (.inr ⟨rfl, List.getElem?_eq_none_iff.1 hk⟩)⟩
  case join k =>
    simp only at h
    split at h
    · next hret =>
      cases h
      exact ⟨rfl, .inr (.inl ⟨k, rfl, hret, rfl, rfl⟩)⟩
    · cases h
  case print b walk =>
    simp only at h
    split at h <;> cases h
    case h_4 => exact ⟨rfl, .inr (.inr ⟨rfl, hfault⟩)⟩
    all_goals exact ⟨rfl, .inr (.inr ⟨rfl, Nat.le_refl _⟩)⟩
  case cell r =>
    cases r with
    | demo_list =>
      cases h
      exact ⟨rfl, .inr (.inr ⟨rfl, Nat.le_refl _⟩)⟩
    | node n =>
      simp only at h
      split at h <;> cases h
      · exact ⟨rfl, .inr (.inr ⟨rfl, Nat.le_refl _⟩)⟩
      · exact ⟨rfl, .inr (.inr ⟨rfl, hfault⟩)⟩
    | poison =>
      cases h
      exact ⟨rfl, .inr (.inr ⟨rfl, hfault⟩)⟩
  case del n temp op =>
    simp only at h
    split at h <;> cases h
    case h_3 => exact ⟨rfl, .inr (.inr ⟨rfl, hfault⟩)⟩
    all_goals exact ⟨rfl, .inr (.inr ⟨rfl, Nat.le_refl _⟩)⟩
  case wait n temp g =>
    simp only at h
    split at h
    · cases h
      exact ⟨rfl, .inr (.inr ⟨rfl, Nat.le_refl _⟩)⟩
    · cases h
  case kfree n temp =>
    simp only at h
    split at h <;> cases h
    · exact ⟨rfl, .inr (.inr ⟨rfl, Nat.le_refl _⟩)⟩
    · exact ⟨rfl, .inr (.inr ⟨rfl, hfault⟩)⟩
  case returned => cases h
  -- the first cell, and `synchronize_rcu`
  all_goals
    cases h
    exact ⟨rfl, .inr (.inr ⟨rfl, Nat.le_refl _⟩)⟩

theorem hasReturned_set {j : Nat} (hw : s.workers[k]? = some w)
    (hpc : w.pc = .returned → w'.pc = .returned) (h : s.hasReturned j = true) :
    ((s.workers.set k w')[j]?).all (fun w => w.pc = .returned) = true := by
  rcases eq_or_ne k j with rfl | hne
  · rw [Sys.hasReturned, hw, Option.all_some] at h
    rw [List.getElem?_set_self', hw]
    exact decide_eq_true (hpc (of_decide_eq_true h))
  · rw [List.getElem?_set_ne hne]
    exact h

theorem worker_step_joined (hs : Joined s) (h : s.worker_step k alloc = some t) : Joined t := by
  obtain ⟨w, hw, h⟩ := Option.bind_eq_some_iff.1 h
  obtain ⟨⟨sh, w'⟩, hstep, h⟩ := Option.bind_eq_some_iff.1 h
  cases h
  have hpc : w.pc ≠ .returned := by
    intro hpc
    unfold Worker.step at hstep
    rw [hpc] at hstep
    cases hstep
  intro j hj
  refine hasReturned_set hw (absurd · hpc) (hs j ?_)
  rwa [← List.length_set (i := k) (a := w')]

theorem exit_step_joined (hs : Joined s) (h : s.exit_step = some t) : Joined t := by
  unfold Joined Sys.hasReturned at hs ⊢
  rcases exit_step_cases h with
      ⟨-, ⟨k, w, hexit, hw, ht, hworkers⟩ | ⟨k, hexit, hret, ht, hworkers⟩ | ⟨hworkers, hle⟩⟩
  · rw [hexit] at hs
    rw [ht, hworkers]
    exact fun j hj => hasReturned_set hw id (hs j hj)
  · rw [hexit] at hs
    rw [ht, hworkers]
    intro j hj
    rcases Nat.lt_succ_iff_lt_or_eq.1 hj with hlt | rfl
    · exact hs j hlt
    · exact hret
  · rw [hworkers]
    exact fun j hj => hs j (Nat.lt_of_lt_of_le hj hle)

theorem hands_exit (h : s.exit_step = some t) : hands t.workers = hands s.workers := by
  rcases exit_step_cases h with
      ⟨-, ⟨k, w, -, hw, -, hworkers⟩ | ⟨-, -, -, -, hworkers⟩ | ⟨hworkers, -⟩⟩
  · rw [hworkers]
    exact Nat.add_right_cancel (countP_set_add hw (fun w => w.pc.hand) _)
  · rw [hworkers]
  · rw [hworkers]

theorem hands_of_returned (hs : Joined s) (hexit : s.exit = .returned) : hands s.workers = 0 := by
  refine List.countP_eq_zero.2 fun w hw => ?_
  obtain ⟨k, hk⟩ := List.mem_iff_getElem?.1 hw
  have hlt := (List.getElem?_eq_some_iff.1 hk).1
  have hret := hs k (hexit ▸ hlt)
  rw [Sys.hasReturned, hk, Option.all_some] at hret
  rw [of_decide_eq_true hret]
  exact Bool.false_ne_true

theorem hands_init (workers : Nat) : hands (Sys.init workers).workers = 0 := by
  refine List.countP_eq_zero.2 fun w hw => ?_
  obtain ⟨k, -, rfl⟩ := List.mem_map.1 hw
  exact Bool.false_ne_true

theorem step_inner {a : Action} (h : s.step a = some t) : ∃ u, u.tick = t ∧
    (match a with
      | .worker k alloc => s.worker_step k alloc
      | .exit => s.exit_step
      | .callback q => s.callback_step q) = some u := by
  unfold Sys.step at h
  split at h
  · cases h
  · obtain ⟨u, hu, rfl⟩ := Option.map_eq_some_iff.1 h
    exact ⟨u, rfl, hu⟩

def account (workers : Nat) : (unload workers).Account where
  Inv := Joined
  hand s := hands s.workers
  inv_init := nofun
  due_init := (Nat.zero_add _).trans (hands_init workers)
  step_inv := by
    intro s a t hs _ h
    obtain ⟨u, rfl, hu⟩ := step_inner h
    cases a with
    | worker k alloc => exact worker_step_joined (t := u) hs hu
    | exit => exact exit_step_joined (t := u) hs hu
    | callback q =>
      obtain ⟨-, hworkers, hexit⟩ := callback_step_due hu
      change Joined u
      unfold Joined Sys.hasReturned
      rw [hworkers, hexit]
      exact hs
  step_due := by
    intro s a t _ _ h
    obtain ⟨u, rfl, hu⟩ := step_inner h
    cases a with
    | worker k alloc => exact worker_step_due (t := u) hu
    | exit =>
      obtain ⟨hcallbacks, -⟩ := exit_step_cases hu
      change u.callbacks.length + hands u.workers = s.callbacks.length + hands s.workers
      rw [hcallbacks, hands_exit hu]
    | callback q =>
      obtain ⟨hlength, hworkers, -⟩ := callback_step_due hu
      change u.callbacks.length + hands u.workers + 1 = s.callbacks.length + hands s.workers
      rw [hworkers]
      omega
  hand_returned := fun hs hret => hands_of_returned hs (of_decide_eq_true hret)

end LinuxKernelProg.Sync.LockfreeList
