import LinuxKernelProg.Lib.Publish

/-!
# A pointer freed without a grace period

`rcu_misuse.c`: writes of the trigger file load, free and publish `global_ptr` with no lock and no
grace period, and the exit function frees what is published before it removes the file.
`can_misuse_iff` says which calls can use or free an item that has been freed when they run at the
same time, and `serial_frees` what becomes of the items when they run one after the other.
-/

namespace LinuxKernelProg.BuggyModules.RcuMisuse

open Lib

def ENOMEM : Int := 12
def EFAULT : Int := 14
def EINVAL : Int := 22

inductive Command where
  | read_no_lock
  | free_no_sync
  | sleep_in_rcu
  | init
  | other
  deriving DecidableEq

/-- The comparisons of the write, in their order. -/
def command (cmd : List Char) : Command :=
  if cmd.take 12 = "read_no_lock".toList then .read_no_lock
  else if cmd.take 12 = "free_no_sync".toList then .free_no_sync
  else if cmd.take 12 = "sleep_in_rcu".toList then .sleep_in_rcu
  else if cmd.take 4 = "init".toList then .init
  else .other

/-- A write: whether `copy_from_user` fails, and whether `kmalloc` finds memory. -/
structure Write where
  cmd : List Char
  uncopied : Bool
  kmalloc : Bool

/-- What the write returns, and what it does with `global_ptr` and its items. -/
def trigger_write (w : Write) : Int × List PtrOp :=
  if 24 ≤ w.cmd.length then (-EINVAL, [])
  else if w.uncopied then (-EFAULT, [])
  else
    match command w.cmd with
    | .read_no_lock => (w.cmd.length, [.load, .use])
    | .free_no_sync => (w.cmd.length, [.load, .clear, .free])
    | .init =>
      -- the last line prints `p->val`
      if w.kmalloc then (w.cmd.length, [.publish, .use]) else (-ENOMEM, [])
    | .sleep_in_rcu | .other => (w.cmd.length, [])

/-- `rcu_misuse_exit` up to `proc_remove`, which waits for the writes. -/
def rcu_misuse_exit : List PtrOp := [.load, .free]

inductive Call where
  | write (w : Write)
  | exit

def Call.ops : Call → List PtrOp
  | .write w => (trigger_write w).2
  | .exit => rcu_misuse_exit

/-- The calls at the same time. -/
def start (global_ptr : Option Nat) (next : Nat) (calls : List Call) : Published :=
  ⟨global_ptr, next, [], calls.map fun c => .start c.ops⟩

/-- A write that reaches its command. -/
def Write.does (w : Write) (c : Command) : Prop :=
  w.cmd.length < 24 ∧ w.uncopied = false ∧ command w.cmd = c

/-- A call that frees something. -/
def Call.Frees : Call → Prop
  | .write w => w.does .free_no_sync
  | .exit => True

/-- An `init` that finds memory. -/
def Call.Inits : Call → Prop
  | .write w => w.does .init ∧ w.kmalloc = true
  | .exit => False

/-- A call that reads or frees an item. -/
def Call.Touches : Call → Prop
  | .write w => w.does .read_no_lock ∨ w.does .free_no_sync ∨ w.does .init ∧ w.kmalloc = true
  | .exit => True

/-- What a call does, and what that says about it. -/
theorem Call.ops_cases (c : Call) :
    (c.ops = [.load, .use] ∧ c.Touches ∧ ¬c.Frees ∧ ¬c.Inits) ∨
    (c.ops = [.load, .clear, .free] ∧ c.Touches ∧ c.Frees ∧ ¬c.Inits) ∨
    (c = .exit ∧ c.ops = [.load, .free] ∧ c.Touches ∧ c.Frees ∧ ¬c.Inits) ∨
    (c.ops = [.publish, .use] ∧ c.Touches ∧ ¬c.Frees ∧ c.Inits) ∨
    (c.ops = [] ∧ ¬c.Touches ∧ ¬c.Frees ∧ ¬c.Inits) := by
  cases c with
  | exit => exact .inr (.inr (.inl ⟨rfl, rfl, trivial, trivial, id⟩))
  | write w =>
    simp only [Call.ops, Call.Touches, Call.Frees, Call.Inits, trigger_write, Write.does]
    by_cases hlen : 24 ≤ w.cmd.length
    · simp [hlen, Nat.not_lt.2 hlen]
    by_cases hcopy : w.uncopied = true
    · simp [hlen, hcopy]
    have hlt : w.cmd.length < 24 := Nat.lt_of_not_le hlen
    cases hc : command w.cmd with
    | init => cases hk : w.kmalloc <;> simp [hlen, hcopy, hlt]
    | _ => simp [hlen, hcopy, hlt]

theorem simple_ops (c : Call) : Published.Simple c.ops := by
  rcases c.ops_cases with ⟨h, -⟩ | ⟨h, -⟩ | ⟨-, h, -⟩ | ⟨h, -⟩ | ⟨h, -⟩
  case inr.inr.inr.inr =>
    rw [h]
    exact ⟨Nat.zero_le 1, nofun, nofun, nofun⟩
  all_goals
    rw [h]
    exact ⟨by decide, by decide, fun _ => ⟨_, _, rfl, rfl⟩, by decide⟩

theorem inits_iff (c : Call) : .publish ∈ c.ops ↔ c.Inits := by
  obtain ⟨h, -, -, hi⟩ | ⟨h, -, -, hi⟩ | ⟨-, h, -, -, hi⟩ | ⟨h, -, -, hi⟩ | ⟨h, -, -, hi⟩ :=
    c.ops_cases <;>
    simp [h, hi]

theorem frees_iff (c : Call) : .free ∈ c.ops ↔ c.Frees := by
  obtain ⟨h, -, hf, -⟩ | ⟨h, -, hf, -⟩ | ⟨-, h, -, hf, -⟩ | ⟨h, -, hf, -⟩ | ⟨h, -, hf, -⟩ :=
    c.ops_cases <;>
    simp [h, hf]

theorem touches_iff (c : Call) : (∃ op ∈ c.ops, op.touches = true) ↔ c.Touches := by
  obtain ⟨h, ht, -⟩ | ⟨h, ht, -⟩ | ⟨-, h, ht, -⟩ | ⟨h, ht, -⟩ | ⟨h, ht, -⟩ := c.ops_cases <;>
    simp [h, ht, PtrOp.touches]

/-- When calls run at the same time, in some order of their steps one of them uses or frees an item
that has been freed if and only if one of them frees, another one reads, frees or is an `init`, and
there is an item: it is published before, or one of them is an `init`. -/
theorem can_misuse_iff (global_ptr : Option Nat) (next : Nat) (calls : List Call) :
    (start global_ptr next calls).CanMisuse ↔
      (global_ptr ≠ none ∨ ∃ c ∈ calls, c.Inits) ∧
        ∃ (i j : Nat) (c d : Call), i ≠ j ∧ calls[i]? = some c ∧ calls[j]? = some d ∧
          c.Frees ∧ d.Touches := by
  have hsimple : ∀ p ∈ calls.map Call.ops, Published.Simple p := by
    intro p hp
    obtain ⟨c, -, rfl⟩ := List.mem_map.1 hp
    exact simple_ops c
  have hstart : start global_ptr next calls = ⟨global_ptr, next, [],
      (calls.map Call.ops).map .start⟩ := by
    rw [List.map_map]
    rfl
  rw [hstart, Published.canMisuse_iff hsimple]
  simp only [List.mem_map, exists_exists_and_eq_and, inits_iff, List.getElem?_map,
    Option.map_eq_some_iff]
  refine and_congr_right fun _ => ?_
  constructor
  · rintro ⟨i, j, -, -, hne, ⟨c, hc, rfl⟩, ⟨d, hd, rfl⟩, hfree, htouch⟩
    exact ⟨i, j, c, d, hne, hc, hd, (frees_iff c).1 hfree, (touches_iff d).1 htouch⟩
  · rintro ⟨i, j, c, d, hne, hc, hd, hfree, htouch⟩
    exact ⟨i, j, _, _, hne, ⟨c, hc, rfl⟩, ⟨d, hd, rfl⟩, (frees_iff c).2 hfree,
      (touches_iff d).2 htouch⟩

/-! ## One after the other -/

instance (w : Write) (c : Command) : Decidable (w.does c) := inferInstanceAs (Decidable (_ ∧ _ ∧ _))

instance (w : Write) : Decidable (Call.write w).Frees := inferInstanceAs (Decidable (w.does _))

instance (w : Write) : Decidable (Call.write w).Inits := inferInstanceAs (Decidable (_ ∧ _))

/-- The items whose pointer an `init` overwrites, when an item is published or not. -/
def replaced : Bool → List Write → Nat
  | _, [] => 0
  | held, w :: ws =>
    if (Call.write w).Inits then held.toNat + replaced true ws
    else if (Call.write w).Frees then replaced false ws
    else replaced held ws

/-- `global_ptr`, how many items were allocated, and those that were freed. -/
structure Items where
  global_ptr : Option Nat
  next : Nat
  freed : List Nat

namespace Items

def toPublished (m : Items) (calls : List PtrCall) : Published :=
  ⟨m.global_ptr, m.next, m.freed, calls⟩

/-- What a whole write leaves. -/
def write (m : Items) (w : Write) : Items :=
  if (Call.write w).Inits then ⟨some m.next, m.next + 1, m.freed⟩
  else if (Call.write w).Frees then ⟨none, m.next, m.global_ptr.toList ++ m.freed⟩
  else m

/-- No item was freed twice, and the published one was not freed. -/
structure Kept (m : Items) : Prop where
  nodup : m.freed.Nodup
  lt : ∀ x ∈ m.freed, x < m.next
  published : ∀ x, m.global_ptr = some x → x < m.next ∧ x ∉ m.freed

variable {m : Items} {w : Write} {before rest : List PtrCall}

theorem Kept.not_freed (h : m.Kept) : ∀ x ∈ m.freed, m.global_ptr ≠ some x :=
  fun x hx heq => (h.published x heq).2 hx

theorem Kept.free (h : m.Kept) : Kept ⟨none, m.next, m.global_ptr.toList ++ m.freed⟩ := by
  obtain ⟨global_ptr, next, freed⟩ := m
  cases global_ptr with
  | none => exact ⟨h.nodup, h.lt, nofun⟩
  | some x =>
    obtain ⟨hlt, hx⟩ := h.published x rfl
    refine ⟨List.nodup_cons.2 ⟨hx, h.nodup⟩, fun y hy => ?_, nofun⟩
    rcases List.mem_cons.1 hy with rfl | hy
    · exact hlt
    · exact h.lt y hy

theorem Kept.write (h : m.Kept) (w : Write) : (m.write w).Kept := by
  unfold Items.write
  split
  · refine ⟨h.nodup, fun x hx => Nat.lt_succ_of_lt (h.lt x hx), fun x hx => ?_⟩
    obtain rfl := Option.some.inj hx
    exact ⟨Nat.lt_succ_self _, fun hmem => Nat.lt_irrefl _ (h.lt _ hmem)⟩
  · split
    · exact h.free
    · exact h

/-- The items that are neither freed nor published. -/
def lost (m : Items) : Int := m.next - m.freed.length - m.global_ptr.toList.length

theorem lost_write (m : Items) (w : Write) (ws : List Write) :
    (m.write w).lost + replaced (m.write w).global_ptr.isSome ws =
      m.lost + replaced m.global_ptr.isSome (w :: ws) := by
  have hreplaced : replaced m.global_ptr.isSome (w :: ws) =
      if (Call.write w).Inits then m.global_ptr.isSome.toNat + replaced true ws
      else if (Call.write w).Frees then replaced false ws
      else replaced m.global_ptr.isSome ws := rfl
  obtain ⟨global_ptr, next, freed⟩ := m
  rw [hreplaced, lost, write]
  split
  · cases global_ptr <;> simp [lost] <;> omega
  · split
    · cases global_ptr <;> simp [lost]; omega
    · rfl

end Items

open Published in
/-- A write that runs alone. -/
theorem write_alone {m : Items} (h : m.Kept) (w : Write) (before rest : List PtrCall) :
    ∃ item, SafeRun (m.toPublished (before ++ .start (Call.write w).ops :: rest))
      (List.replicate (Call.write w).ops.length before.length)
      ((m.write w).toPublished (before ++ ⟨item, []⟩ :: rest)) := by
  rcases (Call.write w).ops_cases with
      ⟨hops, -, hf, hi⟩ | ⟨hops, -, hf, hi⟩ | ⟨hexit, -⟩ | ⟨hops, -, hf, hi⟩ | ⟨hops, -, hf, hi⟩
  · rw [hops, Items.write, if_neg hi, if_neg hf]
    exact ⟨_, .cons (step_behind .load) (not_misuse_behind nofun)
      (.cons (step_behind .use) (not_misuse_behind fun _ => h.not_freed) (.nil _))⟩
  · rw [hops, Items.write, if_neg hi, if_pos hf]
    exact ⟨_, .cons (step_behind .load) (not_misuse_behind nofun)
      (.cons (step_behind .clear) (not_misuse_behind nofun)
        (.cons (step_behind .free) (not_misuse_behind fun _ => h.not_freed) (.nil _)))⟩
  · nomatch hexit
  · rw [hops, Items.write, if_pos hi]
    have hnew : ∀ x ∈ m.freed, some m.next ≠ some x := fun x hx heq =>
      Nat.lt_irrefl _ (Option.some.inj heq ▸ h.lt x hx)
    exact ⟨_, .cons (step_behind .publish) (not_misuse_behind nofun)
      (.cons (step_behind .use) (not_misuse_behind fun _ => hnew) (.nil _))⟩
  · rw [hops, Items.write, if_neg hi, if_neg hf]
    exact ⟨none, .nil _⟩

/-- The writes, and then the exit. -/
def lifetime (ws : List Write) : List Call := ws.map .write ++ [.exit]

/-- Calls that are over. -/
def Over (calls : List PtrCall) : Prop := ∀ c ∈ calls, c.todo = []

open Published in
/-- Writes one after the other, from the one behind `before`, and then the exit. -/
theorem serial_run {m : Items} (h : m.Kept) (ws : List Write) {before : List PtrCall}
    (hover : Over before) :
    ∃ t, SafeRun (m.toPublished (before ++ (lifetime ws).map fun c => .start c.ops))
        (serial before.length ((lifetime ws).map Call.ops)) t ∧ Over t.calls ∧
      t.freed.Nodup ∧ (∀ x ∈ t.freed, x < t.next) ∧
      (t.next : Int) = t.freed.length + m.lost + replaced m.global_ptr.isSome ws := by
  induction ws generalizing m before with
  | nil =>
    have hfree := h.free
    refine ⟨⟨m.global_ptr, m.next, m.global_ptr.toList ++ m.freed,
      before ++ [⟨m.global_ptr, []⟩]⟩, ?_, ?_, hfree.nodup, hfree.lt, ?_⟩
    · exact .cons (step_behind .load) (not_misuse_behind nofun)
        (.cons (step_behind .free) (not_misuse_behind fun _ => h.not_freed) (.nil _))
    · intro c hc
      rcases List.mem_append.1 hc with hc | hc
      · exact hover c hc
      · rw [List.mem_singleton.1 hc]
    · simp only [List.length_append, Items.lost, replaced]
      omega
  | cons w ws ih =>
    obtain ⟨item, hrun⟩ := write_alone h w before ((lifetime ws).map fun c => .start c.ops)
    have hover' : Over (before ++ [⟨item, []⟩]) := by
      intro c hc
      rcases List.mem_append.1 hc with hc | hc
      · exact hover c hc
      · rw [List.mem_singleton.1 hc]
    obtain ⟨t, hrest, hend, hnodup, hlt, hnext⟩ := ih (h.write w) hover'
    rw [List.append_assoc, List.length_append] at hrest
    refine ⟨t, .append hrun hrest, hend, hnodup, hlt, ?_⟩
    have hlost := Items.lost_write m w ws
    omega

open Published in
/-- When writes run one after the other and then the exit, nothing that has been freed is used or
freed, only allocated items are freed, each at most once, and those that are never freed are as many
as those whose pointer an `init` has overwritten. -/
theorem serial_frees (ws : List Write) :
    ∃ t, SafeRun (start none 0 (lifetime ws))
        (serial 0 ((lifetime ws).map Call.ops)) t ∧ Over t.calls ∧
      t.freed.Nodup ∧ (∀ x ∈ t.freed, x < t.next) ∧
      t.next = t.freed.length + replaced false ws := by
  have hkept : Items.Kept ⟨none, 0, []⟩ := ⟨List.nodup_nil, nofun, nofun⟩
  have hover : Over [] := nofun
  obtain ⟨t, hrun, hend, hnodup, hlt, hnext⟩ := serial_run hkept ws hover
  refine ⟨t, hrun, hend, hnodup, hlt, ?_⟩
  have hlost : Items.lost ⟨none, 0, []⟩ = 0 := rfl
  rw [hlost] at hnext
  change (t.next : Int) = t.freed.length + 0 + replaced false ws at hnext
  omega

end LinuxKernelProg.BuggyModules.RcuMisuse
