import LinuxKernelProg.Sync.LockfreeList.Shape
import LinuxKernelProg.Sync.LockfreeList.Unload

/-!
# What is on the lock-free list

The nodes on the list are those that were added and not removed, in every run in which each store
that links finds the pointers that it goes by as they were loaded. Two insertions that overlap lose
a node.
-/

namespace LinuxKernelProg.Sync.LockfreeList

open LinuxKernelProg.Lib
open LinkMem

def Pc.op : Pc → Op
  | .add n op => .add n op
  | .del _ n op => .del n op
  | _ => .idle

def Exit.op : Exit → Op
  | .del n _ op => .del n op
  | _ => .idle

/-- The node that was taken off and is to be handed to `call_rcu`. -/
def Pc.frees : Pc → Option Nat
  | .call_rcu _ n => some n
  | _ => none

/-- The node that the exit took off and will free. -/
def Exit.frees : Exit → Option Nat
  | .sync n _ => some n
  | .wait n _ _ => some n
  | .kfree n _ => some n
  | _ => none

namespace Sys

/-- The operations that the workers and the exit are in. -/
def ops (s : Sys) : List Op := s.workers.map (fun w => w.pc.op) ++ [s.exit.op]

/-- The operation that goes on. -/
def op (s : Sys) : Action → Op
  | .worker k _ => (s.workers[k]?).elim .idle fun w => w.pc.op
  | .exit => s.exit.op
  | .callback _ => .idle

def Current (s : Sys) (a : Action) : Prop := (s.op a).Current s.mem

instance (s : Sys) : DecidablePred s.Current :=
  fun a => inferInstanceAs (Decidable ((s.op a).Current s.mem))

def events (s : Sys) (a : Action) : List Event := (s.op a).events s.mem

/-- No operation is in progress. -/
def quiet (s : Sys) : Bool := s.ops.all Op.quiet

/-- The node will be freed. -/
def Frees (s : Sys) (n : Nat) : Prop :=
  (∃ g, (n, g) ∈ s.callbacks) ∨ (∃ w ∈ s.workers, w.pc.frees = some n) ∨ s.exit.frees = some n

end Sys

/-- What has come to an end in a run from the loading on. -/
def history (workers : Nat) (as : List Action) : List Event :=
  record Sys.step Sys.events (.init workers) as

/-- Some nodes are shown, and they are the right ones. -/
def Listed (m : Mem) (ops : List Op) (es : List Event) : Prop :=
  ∃ ns, Shape m ops ns ∧ Recorded m ops ns es

/-- The worker is at a node of its own, if it is in an operation. -/
def Owned (m : Mem) (w : Worker) : Prop :=
  ∀ n node, w.pc.op.node = some n → m.heap n = some node → node.thread_id = w.thread_id

structure Inv (s : Sys) (es : List Event) : Prop where
  listed : Listed s.mem s.ops es
  joined : Joined s
  thread_id : ∀ (k : Nat) w, s.workers[k]? = some w → w.thread_id = k + 1
  owned : ∀ w ∈ s.workers, Owned s.mem w
  freed : ∀ n, s.Frees n → .removed n ∈ es

variable {sh sh' : Shared} {alloc : Bool} {w w' : Worker} {s t : Sys} {k n : Nat}
  {m m' : Mem} {ops : List Op}
  {op op' : Op} {i : Nat} {es : List Event}

namespace Listed

theorem step (h : Listed m ops es) (hop : ops[i]? = some op) (hC : op.Current m)
    (hs : op.step m = some (m', op')) :
    Listed m' (ops.set i op') (es ++ op.events m) := by
  obtain ⟨ns, hshape, hr⟩ := h
  exact ⟨op.shown ns, hshape.step hop hC hs, hr.step hshape hop hs⟩

theorem create (h : Listed m ops es) (hop : ops[i]? = some .idle) (data thread_id : Int) :
    Listed (create_node m data thread_id).1 (ops.set i (.add m.next .load)) es := by
  obtain ⟨ns, hshape, hr⟩ := h
  refine ⟨ns, hshape.create hop data thread_id,
    hr.of_set hop (Nat.le_succ _) (fun k hk => ?_) rfl rfl⟩
  cases hk
  exact .inr (Nat.le_refl _)

theorem begin_del (h : Listed m ops es) (hop : ops[i]? = some .idle) (hlive : (m.heap n).isSome)
    (halone : ∀ j o, j ≠ i → ops[j]? = some o → o.node ≠ some n) :
    Listed m (ops.set i (.del n .loadPrev)) es := by
  obtain ⟨ns, hshape, hr⟩ := h
  exact ⟨ns, hshape.begin_del hop hlive halone,
    hr.of_set hop (Nat.le_refl _) (fun _ h => by cases h) rfl rfl⟩

theorem kfree (h : Listed m ops es) (hn : .removed n ∈ es) (hfree : kfree m n = some m') :
    Listed m' ops es := by
  obtain ⟨ns, hshape, hr⟩ := h
  obtain ⟨hgone, hns⟩ := hr.removed n hn
  refine ⟨ns, hshape.kfree hgone hns hfree, ?_⟩
  obtain ⟨_, -, rfl⟩ := Option.map_eq_some_iff.1 hfree
  exact ⟨hr.removed, hr.shown, hr.added⟩

end Listed

namespace Owned

theorem keeps (h : Owned m w) (hk : Keeps m m') : Owned m' w := by
  intro n node hn hnode
  have hid := hk.2 n
  rw [hnode, Option.map_some] at hid
  obtain ⟨node', hnode', e⟩ := Option.map_eq_some_iff.1 hid.symm
  exact e ▸ h n node' hn hnode'

theorem kfree (h : Owned m w) (hfree : kfree m n = some m') : Owned m' w := by
  obtain ⟨_, -, rfl⟩ := Option.map_eq_some_iff.1 hfree
  intro k node hk hnode
  change Function.update m.heap n none k = some node at hnode
  rcases eq_or_ne k n with rfl | hkn
  · rw [Function.update_self] at hnode
    cases hnode
  · rw [Function.update_of_ne hkn] at hnode
    exact h k node hk hnode

theorem create (h : Owned m w) (hlt : ∀ n, w.pc.op.node = some n → n < m.next)
    (data thread_id : Int) :
    Owned (create_node m data thread_id).1 w := by
  intro k node hk hnode
  change Function.update m.heap m.next _ k = some node at hnode
  rw [Function.update_of_ne (Nat.ne_of_lt (hlt k hk))] at hnode
  exact h k node hk hnode

end Owned

/-! ## What a step does to the list -/

theorem Walk.step_stop {m : Mem} {stops : Node → Bool} {walk : Walk}
    (h : walk.step m stops = some (.stop n)) :
    ∃ node, m.heap n = some node ∧ stops node = true := by
  cases walk with
  | first => cases h
  | cell r =>
    cases r with
    | demo_list => cases h
    | poison => cases h
    | node k =>
      obtain ⟨node, hnode, h⟩ := Option.map_eq_some_iff.1 h
      split at h <;> cases h
      exact ⟨node, hnode, ‹_›⟩
  | next k =>
    obtain ⟨_, -, h⟩ := Option.map_eq_some_iff.1 h
    cases h

theorem worker_cases (h : w.step sh alloc = some (sh', w')) : w'.thread_id = w.thread_id ∧
    (∀ n, (∃ g, (n, g) ∈ sh'.callbacks) ∨ w'.pc.frees = some n →
      ((∃ g, (n, g) ∈ sh.callbacks) ∨ w.pc.frees = some n) ∨ .removed n ∈ w.pc.op.events sh.mem) ∧
    ((sh'.mem = sh.mem ∧ w'.pc.op = w.pc.op ∧ w.pc.op.events sh.mem = []) ∨
      w.pc.op.step sh.mem = some (sh'.mem, w'.pc.op) ∨
      (w.pc.op = .idle ∧ w'.pc.op = .add sh.mem.next .load ∧
        ∃ data, sh'.mem = (create_node sh.mem data w.thread_id).1) ∨
      (w.pc.op = .idle ∧ sh'.mem = sh.mem ∧ ∃ n node,
        w'.pc.op = .del n .loadPrev ∧ sh.mem.heap n = some node ∧
        node.thread_id = w.thread_id)) := by
  obtain ⟨id, i, pc, stop⟩ := w
  unfold Worker.step at h
  cases pc <;> simp only at h
  case test =>
    cases h
    refine ⟨rfl, fun n hn => .inl ?_, .inl ⟨rfl, ?_, rfl⟩⟩
    · dsimp only at hn
      split at hn <;> exact hn
    · dsimp only
      split <;> rfl
  case create =>
    split at h <;> cases h
    · exact ⟨rfl, fun _ => .inl, .inr (.inr (.inl ⟨rfl, rfl, _, rfl⟩))⟩
    · exact ⟨rfl, fun _ => .inl, .inl ⟨rfl, rfl, rfl⟩⟩
  case add n op =>
    split at h <;> cases h
    case h_1 m op' hstep =>
      exact ⟨rfl, fun _ => .inl, .inr (.inl (by simp [Pc.op, Op.step, hstep]))⟩
    case h_2 m hstep =>
      exact ⟨rfl, fun _ => .inl, .inr (.inl (by simp [Pc.op, Op.step, hstep]))⟩
    case h_3 hstep =>
      exact ⟨rfl, fun _ => .inl, .inl ⟨rfl, rfl, by simp [Pc.op, Op.events, Op.step, hstep]⟩⟩
  case check =>
    split at h <;> cases h <;> exact ⟨rfl, fun _ => .inl, .inl ⟨rfl, rfl, rfl⟩⟩
  case scan b walk =>
    split at h <;> cases h
    case h_2 n hstop =>
      obtain ⟨node, hnode, hremoves⟩ := Walk.step_stop hstop
      refine ⟨rfl, fun _ => .inl, .inr (.inr (.inr ⟨rfl, rfl, n, node, rfl, hnode, ?_⟩))⟩
      exact (of_decide_eq_true hremoves).1
    all_goals exact ⟨rfl, fun _ => .inl, .inl ⟨rfl, rfl, rfl⟩⟩
  case del b n op =>
    split at h <;> cases h
    case h_1 m op' hstep =>
      exact ⟨rfl, fun _ => .inl, .inr (.inl (by simp [Pc.op, Op.step, hstep]))⟩
    case h_2 m hstep =>
      refine ⟨rfl, fun k hk => ?_, .inr (.inl (by simp [Pc.op, Op.step, hstep]))⟩
      rcases hk with hk | hk
      · exact .inl (.inl hk)
      · cases hk
        exact .inr (by simp [Pc.op, Op.events, Op.step, hstep])
    case h_3 hstep =>
      exact ⟨rfl, fun _ => .inl, .inl ⟨rfl, rfl, by simp [Pc.op, Op.events, Op.step, hstep]⟩⟩
  case call_rcu b n =>
    split at h <;> cases h
    · refine ⟨rfl, fun k hk => .inl ?_, .inl ⟨rfl, rfl, rfl⟩⟩
      rcases hk with ⟨g, hg⟩ | hk
      · rcases List.mem_append.1 hg with hg | hg
        · exact .inl ⟨g, hg⟩
        · cases List.mem_singleton.1 hg
          exact .inr rfl
      · cases hk
    · exact ⟨rfl, fun _ => .inl, .inl ⟨rfl, rfl, rfl⟩⟩
  case finish =>
    cases h
    refine ⟨rfl, fun n hn => .inl ?_, .inl ⟨rfl, ?_, rfl⟩⟩
    · dsimp only at hn
      split at hn <;> exact hn
    · dsimp only
      split <;> rfl
  case unlock b =>
    cases h
    exact ⟨rfl, fun _ => .inl, .inl ⟨rfl, rfl, rfl⟩⟩
  case print b walk =>
    split at h <;> cases h <;> exact ⟨rfl, fun _ => .inl, .inl ⟨rfl, rfl, rfl⟩⟩
  case returned => cases h

theorem exit_cases (h : s.exit_step = some t) :
    (∀ n, t.exit.frees = some n → s.exit.frees = some n ∨ .removed n ∈ s.exit.op.events s.mem) ∧
    ((t.mem = s.mem ∧ t.exit.op = s.exit.op ∧ s.exit.op.events s.mem = []) ∨
      s.exit.op.step s.mem = some (t.mem, t.exit.op) ∨
      (s.exit.op = .idle ∧ t.mem = s.mem ∧ ∃ n,
        s.exit = .cell (.node n) ∧ t.exit.op = .del n .loadPrev ∧
        (s.mem.heap n).isSome) ∨
      (s.exit.op = .idle ∧ t.exit.op = .idle ∧ ∃ n,
        s.exit.frees = some n ∧ kfree s.mem n = some t.mem)) := by
  unfold Sys.exit_step at h
  cases hexit : s.exit <;> simp only [hexit] at h
  case stop k =>
    split at h <;> cases h <;> exact ⟨nofun, .inl ⟨rfl, rfl, rfl⟩⟩
  case join k =>
    split at h <;> cases h
    exact ⟨nofun, .inl ⟨rfl, rfl, rfl⟩⟩
  case print b walk =>
    split at h <;> cases h
    case h_4 => exact ⟨fun _ hn => .inl (hexit ▸ hn), .inl ⟨rfl, congrArg Exit.op hexit, rfl⟩⟩
    all_goals exact ⟨nofun, .inl ⟨rfl, rfl, rfl⟩⟩
  case first =>
    cases h
    exact ⟨nofun, .inl ⟨rfl, rfl, rfl⟩⟩
  case cell r =>
    cases r with
    | demo_list =>
      cases h
      exact ⟨nofun, .inl ⟨rfl, rfl, rfl⟩⟩
    | node n =>
      simp only at h
      split at h <;> cases h
      · next node hnode =>
        exact ⟨nofun, .inr (.inr (.inl ⟨rfl, rfl, n, rfl, rfl,
          Option.isSome_iff_exists.2 ⟨node, hnode⟩⟩))⟩
      · exact ⟨fun _ hn => .inl (hexit ▸ hn), .inl ⟨rfl, congrArg Exit.op hexit, rfl⟩⟩
    | poison =>
      cases h
      exact ⟨fun _ hn => .inl (hexit ▸ hn), .inl ⟨rfl, congrArg Exit.op hexit, rfl⟩⟩
  case del n temp op =>
    split at h <;> cases h
    case h_1 m op' hstep =>
      exact ⟨nofun, .inr (.inl (by simp [Exit.op, Op.step, hstep]))⟩
    case h_2 m hstep =>
      refine ⟨fun k hk => ?_, .inr (.inl (by simp [Exit.op, Op.step, hstep]))⟩
      cases hk
      exact .inr (by simp [Exit.op, Op.events, Op.step, hstep])
    case h_3 hstep =>
      exact ⟨fun _ hn => .inl (hexit ▸ hn),
        .inl ⟨rfl, congrArg Exit.op hexit, by simp [Exit.op, Op.events, Op.step, hstep]⟩⟩
  case sync n temp =>
    cases h
    exact ⟨fun _ => .inl, .inl ⟨rfl, rfl, rfl⟩⟩
  case wait n temp g =>
    split at h <;> cases h
    exact ⟨fun _ => .inl, .inl ⟨rfl, rfl, rfl⟩⟩
  case kfree n temp =>
    split at h <;> cases h
    · next m hfree => exact ⟨nofun, .inr (.inr (.inr ⟨rfl, rfl, n, rfl, hfree⟩))⟩
    · exact ⟨fun _ hn => .inl (hexit ▸ hn), .inl ⟨rfl, congrArg Exit.op hexit, rfl⟩⟩
  case returned => cases h

/-- The exit only asks the workers to stop. -/
theorem exit_workers (h : s.exit_step = some t) : t.callbacks = s.callbacks ∧
    t.workers.map (fun w => (w.thread_id, w.pc)) = s.workers.map fun w => (w.thread_id, w.pc) := by
  rcases exit_step_cases h with
      ⟨hcallbacks, ⟨k, w, -, hw, -, hworkers⟩ | ⟨-, -, -, -, hworkers⟩ | ⟨hworkers, -⟩⟩
  · refine ⟨hcallbacks, ?_⟩
    rw [hworkers, List.map_set]
    exact set_eq_self (by rw [List.getElem?_map, hw]; rfl)
  · exact ⟨hcallbacks, by rw [hworkers]⟩
  · exact ⟨hcallbacks, by rw [hworkers]⟩

theorem exit_worker (h : s.exit_step = some t) (hw : t.workers[k]? = some w) :
    ∃ w₁, s.workers[k]? = some w₁ ∧ w₁.thread_id = w.thread_id ∧ w₁.pc = w.pc := by
  have hget := congrArg (fun l => l[k]?) (exit_workers h).2
  simp only [List.getElem?_map, hw, Option.map_some] at hget
  obtain ⟨w₁, hw₁, e⟩ := Option.map_eq_some_iff.1 hget.symm
  exact ⟨w₁, hw₁, (Prod.mk.inj e).1, (Prod.mk.inj e).2⟩

/-! ## The invariant -/

theorem ops_worker (hw : s.workers[k]? = some w) : s.ops[k]? = some w.pc.op := by
  rw [Sys.ops, List.getElem?_append_left, List.getElem?_map, hw, Option.map_some]
  rw [List.length_map]
  exact (List.getElem?_eq_some_iff.1 hw).1

theorem ops_exit : s.ops[s.workers.length]? = some s.exit.op := by
  rw [Sys.ops, List.getElem?_append_right (Nat.le_of_eq (List.length_map _)),
    List.length_map, Nat.sub_self]
  rfl

theorem ops_cases (h : s.ops[i]? = some op) :
    (∃ w, s.workers[i]? = some w ∧ w.pc.op = op) ∨ i = s.workers.length ∧ op = s.exit.op := by
  rcases Nat.lt_trichotomy i s.workers.length with hlt | rfl | hgt
  · have hw := List.getElem?_eq_getElem hlt
    exact .inl ⟨_, hw, Option.some.inj ((ops_worker hw).symm.trans h)⟩
  · exact .inr ⟨rfl, Option.some.inj (h.symm.trans ops_exit)⟩
  · rw [List.getElem?_eq_none] at h
    · cases h
    · rw [Sys.ops, List.length_append, List.length_map]
      exact hgt

theorem ops_set_worker (hw : s.workers[k]? = some w) (ht : t.workers = s.workers.set k w')
    (hexit : t.exit = s.exit) :
    t.ops = s.ops.set k w'.pc.op := by
  rw [Sys.ops, Sys.ops, ht, hexit, List.map_set, List.set_append_left]
  rw [List.length_map]
  exact (List.getElem?_eq_some_iff.1 hw).1

theorem ops_set_exit
    (ht : t.workers.map (fun w => (w.thread_id, w.pc)) = s.workers.map
      fun w => (w.thread_id, w.pc)) :
    t.ops = s.ops.set s.workers.length t.exit.op := by
  have hmap : t.workers.map (fun w => w.pc.op) = s.workers.map fun w => w.pc.op := by
    have := congrArg (List.map fun r => r.2.op) ht
    rwa [List.map_map, List.map_map] at this
  rw [Sys.ops, Sys.ops, hmap, List.set_append_right _ _ (Nat.le_of_eq (List.length_map _)),
    List.length_map, Nat.sub_self]
  rfl

/-- While a worker runs, the exit is not at the list. -/
theorem exit_idle (hs : Joined s) (hw : s.workers[k]? = some w) (hpc : w.pc ≠ .returned) :
    s.exit.op = .idle := by
  cases hexit : s.exit with
  | del n temp op =>
    have hret := hs k (by rw [hexit]; exact (List.getElem?_eq_some_iff.1 hw).1)
    rw [Sys.hasReturned, hw, Option.all_some] at hret
    exact absurd (of_decide_eq_true hret) hpc
  | _ => rfl

/-- While the exit goes over the list, the workers are not at it. -/
theorem workers_idle (hs : Joined s) {r : Ref} (hexit : s.exit = .cell r) (hw : w ∈ s.workers) :
    w.pc.op = .idle := by
  obtain ⟨k, hk⟩ := List.mem_iff_getElem?.1 hw
  have hret := hs k (by rw [hexit]; exact (List.getElem?_eq_some_iff.1 hk).1)
  rw [Sys.hasReturned, hk, Option.all_some] at hret
  rw [of_decide_eq_true hret]
  rfl

namespace Inv

theorem worker_listed (hs : Inv s es) (hw : s.workers[k]? = some w) (hC : w.pc.op.Current s.mem)
    (h : w.step s.toShared alloc = some (sh', w')) :
    Listed sh'.mem (s.ops.set k w'.pc.op) (es ++ w.pc.op.events s.mem) := by
  have hop := ops_worker hw
  have hpc : w.pc ≠ .returned := by
    intro hpc
    unfold Worker.step at h
    rw [hpc] at h
    cases h
  obtain ⟨-, -, ⟨hm, hop', hev⟩ | hstep | ⟨hidle, hop', data, hm⟩ | ⟨hidle, hm, n, node,
    hop', hnode, hid⟩⟩ :=
    worker_cases h
  · rw [hm, hop', hev, set_eq_self hop, List.append_nil]
    exact hs.listed
  · exact hs.listed.step hop hC hstep
  · rw [hidle] at hop ⊢
    rw [hm, hop']
    exact (List.append_nil es).symm ▸ hs.listed.create hop data w.thread_id
  · rw [hidle] at hop ⊢
    rw [hm, hop']
    refine (List.append_nil es).symm ▸ hs.listed.begin_del hop
      (Option.isSome_iff_exists.2 ⟨node, hnode⟩) ?_
    intro j o hj ho hn
    rcases ops_cases ho with ⟨w₁, hw₁, rfl⟩ | ⟨-, rfl⟩
    · -- the node has the id of one worker only
      have hid₁ := hs.owned w₁ (List.mem_of_getElem? hw₁) n node hn hnode
      rw [hid, hs.thread_id k w hw, hs.thread_id j w₁ hw₁] at hid₁
      omega
    · rw [exit_idle hs.joined hw hpc] at hn
      cases hn

theorem worker_owned (hs : Inv s es) (hw : s.workers[k]? = some w)
    (h : w.step s.toShared alloc = some (sh', w')) :
    (∀ w₁ ∈ s.workers, Owned sh'.mem w₁) ∧ Owned sh'.mem w' := by
  have hwmem := List.mem_of_getElem? hw
  rcases worker_cases h with
      ⟨hid, -, ⟨hm, hop, -⟩ | hstep | ⟨-, hop, data, hm⟩ | ⟨-, hm, n, node, hop, hnode, hid'⟩⟩
  · rw [hm]
    refine ⟨hs.owned, ?_⟩
    unfold Owned
    rw [hop, hid]
    exact hs.owned w hwmem
  · have hkeeps := Op.keeps hstep
    refine ⟨fun w₁ hw₁ => (hs.owned w₁ hw₁).keeps hkeeps, fun n node hn hnode => ?_⟩
    rw [hid]
    exact (hs.owned w hwmem).keeps hkeeps n node (Op.node_of_step hstep hn) hnode
  · rw [hm]
    obtain ⟨ns, hshape, -⟩ := hs.listed
    refine ⟨fun w₁ hw₁ => ?_, fun n node hn hnode => ?_⟩
    · obtain ⟨j, hj⟩ := List.mem_iff_getElem?.1 hw₁
      exact (hs.owned w₁ hw₁).create
        (hshape.lt _ (List.mem_of_getElem? (ops_worker hj))) data w.thread_id
    · rw [hop] at hn
      cases hn
      change Function.update s.mem.heap s.mem.next _ s.mem.next = some node at hnode
      rw [Function.update_self] at hnode
      cases hnode
      exact hid.symm
  · rw [hm]
    refine ⟨hs.owned, fun j node' hj hnode' => ?_⟩
    rw [hop] at hj
    cases hj
    rw [hnode] at hnode'
    cases hnode'
    rw [hid, hid']

theorem worker_step (hs : Inv s es) (hC : s.Current (.worker k alloc))
    (h : s.worker_step k alloc = some t) :
    Inv t (es ++ s.events (.worker k alloc)) := by
  have hjoined := worker_step_joined hs.joined h
  obtain ⟨w, hw, h⟩ := Option.bind_eq_some_iff.1 h
  obtain ⟨⟨sh, w'⟩, hstep, h⟩ := Option.bind_eq_some_iff.1 h
  obtain rfl := Option.some.inj h
  have hop : s.op (.worker k alloc) = w.pc.op := by rw [Sys.op, hw, Option.elim_some]
  rw [Sys.Current, hop] at hC
  rw [Sys.events, hop]
  have hops := ops_set_worker (t := ⟨sh, s.workers.set k w', s.exit⟩) hw rfl rfl
  obtain ⟨hothers, hown⟩ := hs.worker_owned hw hstep
  obtain ⟨hid, hfrees, -⟩ := worker_cases hstep
  refine ⟨hops ▸ hs.worker_listed hw hC hstep, hjoined, fun j w₁ hj => ?_,
    fun w₁ hw₁ => ?_, fun n hn => ?_⟩
  · rcases getElem?_set_cases hj with ⟨rfl, rfl⟩ | ⟨-, hj⟩
    · rw [hid]
      exact hs.thread_id j w hw
    · exact hs.thread_id j w₁ hj
  · rcases eq_or_mem_of_mem_set hw₁ with rfl | hw₁
    · exact hown
    · exact hothers w₁ (List.mem_of_mem_eraseIdx hw₁)
  · have hold : (∃ g, (n, g) ∈ sh.callbacks) ∨ w'.pc.frees = some n →
        .removed n ∈ es ++ w.pc.op.events s.mem := by
      intro hn
      rcases hfrees n hn with (hn | hn) | hn
      · exact List.mem_append_left _ (hs.freed n (.inl hn))
      · exact List.mem_append_left _ (hs.freed n (.inr (.inl ⟨w, List.mem_of_getElem? hw, hn⟩)))
      · exact List.mem_append_right _ hn
    rcases hn with hn | ⟨w₁, hw₁, hn⟩ | hn
    · exact hold (.inl hn)
    · rcases eq_or_mem_of_mem_set hw₁ with rfl | hw₁
      · exact hold (.inr hn)
      · exact List.mem_append_left _
          (hs.freed n (.inr (.inl ⟨w₁, List.mem_of_mem_eraseIdx hw₁, hn⟩)))
    · exact List.mem_append_left _ (hs.freed n (.inr (.inr hn)))

theorem exit_listed (hs : Inv s es) (hC : s.Current .exit) (h : s.exit_step = some t) :
    Listed t.mem t.ops (es ++ s.events .exit) := by
  rw [ops_set_exit (exit_workers h).2]
  change Listed t.mem _ (es ++ s.exit.op.events s.mem)
  have hop := ops_exit (s := s)
  obtain ⟨-, ⟨hm, hop', hev⟩ | hstep | ⟨hidle, hm, n, hexit, hop', hlive⟩ | ⟨hidle, hop',
    n, hfrees, hfree⟩⟩ :=
    exit_cases h
  · rw [hm, hop', hev, set_eq_self hop, List.append_nil]
    exact hs.listed
  · exact hs.listed.step hop hC hstep
  · rw [hidle] at hop ⊢
    rw [hm, hop']
    refine (List.append_nil es).symm ▸ hs.listed.begin_del hop hlive fun j o hj ho hn => ?_
    rcases ops_cases ho with ⟨w, hw, rfl⟩ | ⟨hlen, -⟩
    · rw [workers_idle hs.joined hexit (List.mem_of_getElem? hw)] at hn
      cases hn
    · exact hj hlen
  · rw [hidle] at hop ⊢
    rw [hop', set_eq_self hop]
    exact (List.append_nil es).symm ▸ hs.listed.kfree (hs.freed n (.inr (.inr hfrees))) hfree

theorem exit_owned (hs : Inv s es) (h : s.exit_step = some t) (hw : w ∈ s.workers) :
    Owned t.mem w := by
  rcases exit_cases h with ⟨-, ⟨hm, -⟩ | hstep | ⟨-, hm, -⟩ | ⟨-, -, n, -, hfree⟩⟩
  · exact hm ▸ hs.owned w hw
  · exact (hs.owned w hw).keeps (Op.keeps hstep)
  · exact hm ▸ hs.owned w hw
  · exact (hs.owned w hw).kfree hfree

theorem exit_step (hs : Inv s es) (hC : s.Current .exit) (h : s.exit_step = some t) :
    Inv t (es ++ s.events .exit) := by
  have hmem : ∀ w ∈ t.workers, ∃ w₁ ∈ s.workers, w₁.thread_id = w.thread_id ∧ w₁.pc = w.pc := by
    intro w hw
    obtain ⟨k, hk⟩ := List.mem_iff_getElem?.1 hw
    obtain ⟨w₁, hw₁, heq⟩ := exit_worker h hk
    exact ⟨w₁, List.mem_of_getElem? hw₁, heq⟩
  refine ⟨hs.exit_listed hC h, exit_step_joined hs.joined h, fun j w hj => ?_,
    fun w hw => ?_, fun n hn => ?_⟩
  · obtain ⟨w₁, hw₁, hid, -⟩ := exit_worker h hj
    rw [← hid]
    exact hs.thread_id j w₁ hw₁
  · obtain ⟨w₁, hw₁, hid, hpc⟩ := hmem w hw
    have := hs.exit_owned h hw₁
    unfold Owned at this ⊢
    rwa [hid, hpc] at this
  · rcases hn with ⟨g, hg⟩ | ⟨w, hw, hn⟩ | hn
    · rw [(exit_workers h).1] at hg
      exact List.mem_append_left _ (hs.freed n (.inl ⟨g, hg⟩))
    · obtain ⟨w₁, hw₁, -, hpc⟩ := hmem w hw
      exact List.mem_append_left _ (hs.freed n (.inr (.inl ⟨w₁, hw₁, hpc ▸ hn⟩)))
    · rcases (exit_cases h).1 n hn with hn | hn
      · exact List.mem_append_left _ (hs.freed n (.inr (.inr hn)))
      · exact List.mem_append_right _ hn

theorem callback_step {q : Nat × Nat} (hs : Inv s es) (h : s.callback_step q = some t) :
    Inv t es := by
  unfold Sys.callback_step at h
  split at h
  · next hq =>
    have hfreed : ∀ n, Sys.Frees { s with callbacks := s.callbacks.erase q } n → .removed n ∈ es :=
      fun n hn => hs.freed n (hn.imp_left fun ⟨g, hg⟩ => ⟨g, List.mem_of_mem_erase hg⟩)
    simp only at h
    split at h <;> cases h
    · next m hfree =>
      have hn := hs.freed q.1 (.inl ⟨q.2, List.contains_iff_mem.1 hq.1⟩)
      exact ⟨hs.listed.kfree hn hfree, hs.joined, hs.thread_id,
        fun w hw => (hs.owned w hw).kfree hfree, hfreed⟩
    · exact ⟨hs.listed, hs.joined, hs.thread_id, hs.owned, hfreed⟩
  · cases h

theorem step {a : Action} (hs : Inv s es) (hC : s.Current a) (h : s.step a = some t) :
    Inv t (es ++ s.events a) := by
  obtain ⟨u, rfl, hu⟩ := step_inner h
  have hinv : Inv u (es ++ s.events a) := by
    cases a with
    | worker k alloc => exact hs.worker_step hC hu
    | exit => exact hs.exit_step hC hu
    | callback q => exact (List.append_nil es).symm ▸ hs.callback_step hu
  exact ⟨hinv.listed, hinv.joined, hinv.thread_id, hinv.owned, hinv.freed⟩

theorem init (workers : Nat) : Inv (.init workers) [] := by
  have hworkers : ∀ w ∈ (Sys.init workers).workers, w.pc = .test := by
    intro w hw
    obtain ⟨k, -, rfl⟩ := List.mem_map.1 hw
    rfl
  have hops : ∀ op ∈ (Sys.init workers).ops, op = .idle := by
    intro op hop
    rcases List.mem_append.1 hop with hop | hop
    · obtain ⟨w, hw, rfl⟩ := List.mem_map.1 hop
      rw [hworkers w hw]
      rfl
    · exact List.mem_singleton.1 hop
  refine ⟨⟨[], .init hops, ⟨fun _ h => (by cases h), fun _ h => (by cases h),
    fun _ h => (by cases h)⟩⟩,
    fun k hk => absurd hk (Nat.not_lt_zero k), fun k w hw => ?_,
      fun w hw n _ hn => ?_, fun n hn => ?_⟩
  · simp only [Sys.init, bind_pure_comp, List.map_eq_map, List.map_map, List.getElem?_map] at hw
    obtain ⟨j, hj, rfl⟩ := Option.map_eq_some_iff.1 hw
    obtain ⟨hlt, rfl⟩ := List.getElem?_eq_some_iff.1 hj
    rw [Function.comp_apply, List.getElem_range]
  · rw [hworkers w hw] at hn
    cases hn
  · rcases hn with ⟨g, hg⟩ | ⟨w, hw, hn⟩ | hn
    · cases hg
    · rw [hworkers w hw] at hn
      cases hn
    · cases hn

end Inv

/-! ## Every run -/

/-- **Added and not removed.** -/
theorem members_of_current {workers : Nat} {as : List Action}
    (h : run Sys.step (.init workers) as = some t)
    (hC : Along Sys.step Sys.Current (.init workers) as) :
    (t.quiet = true → ∃ ns : List Nat, Ring t.mem .demo_list (ns.map .node) ∧
      ∀ n, n ∈ ns ↔ .added n ∈ history workers as ∧ .removed n ∉ history workers as) ∧
    ∀ n, .removed n ∈ history workers as →
      ¬ Relation.ReflTransGen (fun a b => nextOf t.mem a = some b) .demo_list (.node n) := by
  have hinv : Inv t ([] ++ history workers as) := record_of_run Inv.step (Inv.init workers) hC h
  obtain ⟨ns, hshape, hr⟩ := hinv.listed
  exact ⟨fun hq => ⟨ns, hr.of_quiet hshape (List.all_eq_true.1 hq)⟩,
    fun n hn => hr.not_reached hshape hn⟩

/-- The workers in turn, by their numbers. -/
def turns (ks : List Nat) : List Action := ks.map fun k => .worker k true

/-- Two workers go through their first four rounds. Each begins to add while the other one links its
node, and one of them goes over the list while the other one takes a node off. -/
def together : List Action :=
  turns ((List.replicate 3 [0, 1, 0, 1, 0, 0, 0, 0, 1, 0, 1, 1, 1, 1, 0, 1]).flatten ++
    [0, 1, 0, 1, 0, 0, 0, 0, 1, 0, 1, 1, 1, 1] ++ [0, 0, 0, 0, 0, 0, 1, 1, 1, 0, 0, 0] ++
    [0, 0, 1, 0, 1, 0, 1, 0, 1, 0, 1, 0, 1, 1, 1, 1, 1, 1])

theorem members_together : ∃ t, run Sys.step (.init 2) together = some t ∧
    history 2 together = [.added 0, .added 1, .added 2, .added 3, .added 4, .added 5, .added 6,
      .added 7, .removed 4, .removed 5] ∧
    (∃ ns : List Nat, Ring t.mem .demo_list (ns.map .node) ∧
      ∀ n, n ∈ ns ↔ .added n ∈ history 2 together ∧ .removed n ∉ history 2 together) ∧
    ¬ Relation.ReflTransGen (fun a b => nextOf t.mem a = some b) .demo_list (.node 4) := by
  have h := members_of_current (rfl : run Sys.step (.init 2) together = some _) (by decide +kernel)
  exact ⟨_, rfl, by decide +kernel, h.1 rfl, h.2 4 (by decide +kernel)⟩

/-- Two workers load the first node of the list before one of them publishes its own. -/
def overlap : List Action :=
  List.replicate 3 (.worker 0 true) ++ List.replicate 3 (.worker 1 true) ++
    List.replicate 4 (.worker 0 true) ++
    List.replicate 4 (.worker 1 true)

theorem run_overlap : ∃ t, run Sys.step (.init 2) overlap = some t ∧ t.quiet = true ∧
    nextOf t.mem .demo_list = some (.node 1) ∧ nextOf t.mem (.node 1) = some .demo_list :=
  ⟨_, rfl, rfl, rfl, rfl⟩

/-- The node of the first one is lost. -/
theorem overlap_loses : ∃ t, run Sys.step (.init 2) overlap = some t ∧ t.quiet = true ∧
    history 2 overlap = [.added 0, .added 1] ∧
    ¬ ∃ ns : List Nat, Ring t.mem .demo_list (ns.map .node) ∧
      ∀ n, n ∈ ns ↔ .added n ∈ history 2 overlap ∧ .removed n ∉ history 2 overlap := by
  obtain ⟨t, hrun, hq, h1, h2⟩ := run_overlap
  have hhist : history 2 overlap = [.added 0, .added 1] := by decide
  refine ⟨t, hrun, hq, hhist, fun ⟨ns, hring, hmem⟩ => ?_⟩
  have h0 : 0 ∈ ns := (hmem 0).2 (by rw [hhist]; decide)
  cases ns with
  | nil => cases h0
  | cons n ns =>
    -- behind the head comes the second node, and behind it the head
    have hn := hring.seg.1.1
    rw [h1] at hn
    cases hn
    cases ns with
    | nil => exact absurd h0 (by decide)
    | cons n' ns =>
      have hn' := hring.seg.2.1.1
      rw [h2] at hn'
      cases hn'

end LinuxKernelProg.Sync.LockfreeList
