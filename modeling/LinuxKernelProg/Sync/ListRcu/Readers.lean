import Mathlib.Data.List.Induction
import LinuxKernelProg.Sync.ListRcu.Safety

/-!
# The RCU book list: readers

When the updaters are serialised no step is disturbed (`OneUpdater`), so the invariant of
`Safety` holds. A reader then never leaves the live objects, visits only objects that were on the
list after its section began, and is a fixed number of pointer steps away from the list head as
long as nobody stores to the list (`Path`).
-/

namespace LinuxKernelProg.Sync.ListRcu

open LinuxKernelProg.Lib LinkMem

/-! ## The record of the steps -/

namespace Shared

variable (sh : Shared) (u : Update) (n k : Nat)

@[simp] theorem add_clock : (sh.add n).clock = sh.clock := by
  unfold Shared.add
  split <;> rfl

@[simp] theorem add_unlinks : (sh.add n).unlinks = sh.unlinks := by
  unfold Shared.add
  split <;> rfl

@[simp] theorem replace_clock : (sh.replace u n k).clock = sh.clock := by
  unfold Shared.replace
  split <;> rfl

@[simp] theorem replace_unlinks : (sh.replace u n k).unlinks = (n, sh.clock) :: sh.unlinks := by
  unfold Shared.replace
  split <;> rfl

@[simp] theorem del_clock : (sh.del n).clock = sh.clock := by
  unfold Shared.del
  split <;> rfl

@[simp] theorem del_unlinks : (sh.del n).unlinks = (n, sh.clock) :: sh.unlinks := by
  unfold Shared.del
  split <;> rfl

@[simp] theorem free_clock : (sh.free n).clock = sh.clock := by
  unfold Shared.free
  split <;> rfl

@[simp] theorem free_unlinks : (sh.free n).unlinks = sh.unlinks := by
  unfold Shared.free
  split <;> rfl

end Shared

/-- What a step of a thread does to the clock, the unlinked objects and its own section. -/
theorem Thread.step_record {sh sh' : Shared} {elapsed : Nat → Bool} {alloc : Bool} {th : Thread}
    {pc' : Pc} (hs : th.step sh elapsed alloc = some (sh', pc')) :
    sh'.clock = sh.clock ∧ th.pc.isDone = false ∧
      sh'.unlinks = (th.applies sh).toList.map (fun n => (n, sh.clock)) ++ sh.unlinks ∧
      ∀ b, pc'.section? = some b →
        th.applies sh = none ∧ (th.pc.section? = some b ∨ b = sh.clock + 1) := by
  obtain ⟨op, pc⟩ := th
  cases op with
  | Add_book id name author =>
    cases pc <;> simp only [Thread.step, reduceCtorEq] at hs
    case start =>
      cases alloc <;> cases hs <;> simp [Pc.isDone, Thread.applies, Pc.section?]
    case stocked n =>
      cases hs
      simp [Pc.isDone, Thread.applies, Pc.section?]
  | update u id async =>
    cases pc <;> simp only [Thread.step, reduceCtorEq] at hs
    case start =>
      split at hs <;> cases hs <;> simp [Pc.isDone, Thread.applies, Pc.section?, Shared.fault]
    case found old b =>
      split at hs
      · split at hs <;> cases hs <;> simp [Pc.isDone, Thread.applies, Pc.section?, Shared.fault]
      · cases hs
        simp [Pc.isDone, Thread.applies, Pc.section?]
    case copied old new b =>
      cases hs
      simp [Pc.isDone, Thread.applies, Pc.section?]
    case retiring old =>
      cases async <;> cases hs <;> simp [Pc.isDone, Thread.applies, Pc.section?]
    case waiting old g =>
      split at hs <;> cases hs
      simp [Pc.isDone, Thread.applies, Pc.section?]
  | Delete_book id async =>
    cases pc <;> simp only [Thread.step, reduceCtorEq] at hs
    case start =>
      split at hs <;> rename_i hr <;> cases hs <;>
        simp [Pc.isDone, Thread.applies, Pc.section?, Shared.fault, hr]
    case retiring old =>
      cases async <;> cases hs <;> simp [Pc.isDone, Thread.applies, Pc.section?]
    case waiting old g =>
      split at hs <;> cases hs
      simp [Pc.isDone, Thread.applies, Pc.section?]
  | read rd =>
    cases pc <;> simp only [Thread.step, reduceCtorEq] at hs
    case start =>
      cases hs
      simp [Pc.isDone, Thread.applies, Pc.section?]
    case reading r b rd =>
      cases r <;> simp only at hs
      case book n =>
        split at hs <;> cases hs <;> simp [Pc.isDone, Thread.applies, Pc.section?, Shared.fault]
      all_goals
        cases hs
        simp [Pc.isDone, Thread.applies, Pc.section?, Shared.fault]

theorem Sys.step_record {s s' : Sys} {a : Action} (hs : s.step a = some s') :
    s'.clock = s.clock + 1 ∧
      s'.unlinks = (s.applies a).toList.map (fun n => (n, s.clock)) ++ s.unlinks := by
  unfold Sys.step at hs
  split at hs
  · cases hs
  cases a with
  | spawn op =>
    cases hs
    exact ⟨rfl, rfl⟩
  | run t alloc =>
    simp only [Option.bind_eq_bind, Option.bind_eq_some_iff, Option.some.injEq] at hs
    obtain ⟨th, hth, ⟨sh, pc⟩, hstep, rfl⟩ := hs
    obtain ⟨hc, -, hu, -⟩ := Thread.step_record hstep
    simp [Shared.tick, hc, hu, Sys.applies, hth]
  | callback q =>
    simp only at hs
    split at hs <;> cases hs
    simp [Shared.tick, Sys.applies]

/-! ## Serialised updaters -/

/-- An updater that has not returned. -/
def Thread.active (th : Thread) : Bool := th.op.updates && !th.pc.isDone

theorem Thread.active_of_applies {sh : Shared} {th : Thread} (h : th.applies sh ≠ none) :
    th.active = true := by
  obtain ⟨op, pc⟩ := th
  cases op <;> cases pc <;> simp [Thread.applies, Thread.active, Op.updates, Pc.isDone] at h ⊢

/-- At most one updater is in progress, and nothing was unlinked since its section began. -/
structure OneUpdater (s : Sys) : Prop where
  one : s.threads.countP Thread.active ≤ 1
  fresh : ∀ th ∈ s.threads, th.active = true → ∀ b, th.pc.section? = some b →
    ∀ p ∈ s.unlinks, p.2 < b

theorem OneUpdater.init : OneUpdater Sys.init := ⟨by simp [Sys.init], by simp [Sys.init]⟩

theorem OneUpdater.undisturbed {s : Sys} (h : OneUpdater s) (a : Action) : Undisturbed s a := by
  unfold Undisturbed
  split
  · split
    · rename_i hth
      intro p hp _
      exact h.fresh _ (List.mem_of_getElem? hth) rfl _ rfl p hp
    · trivial
  · trivial

theorem OneUpdater.step {s s' : Sys} {a : Action} (h : OneUpdater s)
    (hpast : ∀ p ∈ s.unlinks, p.2 < s.clock) (hser : Serial s a) (hs : s.step a = some s') :
    OneUpdater s' := by
  obtain ⟨-, hu⟩ := Sys.step_record hs
  unfold Sys.step at hs
  split at hs
  · cases hs
  cases a with
  | spawn op =>
    cases hs
    constructor
    · have hone := h.one
      simp only [List.countP_append, List.countP_singleton]
      by_cases hop : op.updates = true
      · have hz : s.threads.countP Thread.active = 0 := by
          rw [List.countP_eq_zero]
          intro th hth hact
          simp only [Thread.active, Bool.and_eq_true, Bool.not_eq_true'] at hact
          have := hser hop th hth hact.1
          rw [this] at hact
          exact absurd hact.2 (by simp)
        split <;> omega
      · rw [if_neg (by simp [Thread.active, hop])]
        omega
    · intro th hth hact b hb
      rcases List.mem_append.1 hth with hth | hth
      · exact h.fresh th hth hact b hb
      · rw [List.mem_singleton.1 hth] at hb
        simp [Pc.section?] at hb
  | callback q =>
    simp only at hs
    split at hs <;> cases hs
    exact ⟨h.one, by simpa [Shared.tick] using h.fresh⟩
  | run t alloc =>
    simp only [Option.bind_eq_bind, Option.bind_eq_some_iff, Option.some.injEq] at hs
    obtain ⟨th, hth, ⟨sh, pc⟩, hstep, rfl⟩ := hs
    obtain ⟨os, hp, hset⟩ := perm_of_getElem? hth
    obtain ⟨-, hnd, -, hsec⟩ := Thread.step_record hstep
    have hone := h.one
    rw [hp.countP_eq, List.countP_cons] at hone
    have hact : th.active = th.op.updates := by simp [Thread.active, hnd]
    simp only [Sys.applies, hth, Option.bind_some] at hu
    have hle : ({ th with pc := pc } : Thread).active = true → th.active = true := by
      rw [hact]
      simp +contextual [Thread.active]
    constructor
    · simp only
      rw [(hset _).countP_eq, List.countP_cons]
      split <;> split at hone <;> first | omega | exact absurd (hle ‹_›) ‹_›
    · intro x hx hxa b hb p hpu
      simp only at hx hpu
      rw [hu] at hpu
      rcases List.mem_cons.1 ((hset _).mem_iff.1 hx) with rfl | hx
      · obtain ⟨hno, hb⟩ := hsec b hb
        rw [hno] at hpu
        rcases hb with hb | rfl
        · exact h.fresh th (List.mem_of_getElem? hth) (hle hxa) b hb p hpu
        · exact Nat.lt_succ_of_lt (hpast p hpu)
      · -- the thread that takes the step is not an updater, or `x` would be a second one
        have hno : th.applies s.toShared = none := by
          by_contra hne
          rw [if_pos (Thread.active_of_applies hne)] at hone
          have : 0 < os.countP Thread.active := List.countP_pos_iff.2 ⟨x, hx, hxa⟩
          omega
        rw [hno] at hpu
        exact h.fresh x (hp.mem_iff.2 (List.mem_cons_of_mem _ hx)) hxa b hb p hpu

/-- Serialised updaters do not disturb each other. -/
theorem undisturbed_of_serial {as : List Action} (h : Along Sys.step Serial Sys.init as) :
    Along Sys.step Undisturbed Sys.init as := by
  refine Along.imp_of_inv
    (J := fun s => OneUpdater s ∧ ∃ ns, Inv s.toShared s.threads ns)
    (fun hJ _ => hJ.1.undisturbed _) (fun ⟨h1, ns, hi⟩ hser hs => ?_)
    ⟨OneUpdater.init, [], Inv.init⟩ h
  exact ⟨h1.step hi.core.past hser hs, hi.step (h1.undisturbed _) hs⟩

/-! ## What a section has seen -/

section History

variable {as : List Action} {s : Sys}

theorem clock_eq_length (hs : run Sys.step Sys.init as = some s) : s.clock = as.length := by
  induction as using List.reverseRecOn generalizing s with
  | nil =>
    cases hs
    rfl
  | append_singleton as a ih =>
    obtain ⟨s₀, hs₀, hstep⟩ := run_snoc.1 hs
    rw [(Sys.step_record hstep).1, ih hs₀]
    simp

/-- An object was on the list when it was unlinked. -/
theorem unlinked_onList (h : Along Sys.step Undisturbed Sys.init as)
    (hs : run Sys.step Sys.init as = some s) {n u : Nat} (hu : (n, u) ∈ s.unlinks) :
    u < as.length ∧ ∃ s', run Sys.step Sys.init (as.take u) = some s' ∧ OnList s'.mem n := by
  induction as using List.reverseRecOn generalizing s with
  | nil =>
    cases hs
    simp [Sys.init, Shared.init] at hu
  | append_singleton as a ih =>
    obtain ⟨s₀, hs₀, hstep⟩ := run_snoc.1 hs
    obtain ⟨has, hlast⟩ := Along.snoc.1 h
    rw [(Sys.step_record hstep).2] at hu
    rcases List.mem_append.1 hu with hu | hu
    · simp only [List.mem_map, Option.mem_toList, Prod.mk.injEq] at hu
      obtain ⟨k, hk, rfl, rfl⟩ := hu
      obtain ⟨ns, hi⟩ := inv_of_run has hs₀
      rw [clock_eq_length hs₀]
      refine ⟨by simp, s₀, by simpa using hs₀, hi.applies_onList (hlast s₀ hs₀) hk⟩
    · obtain ⟨hlt, s', hs', hon⟩ := ih has hs₀ hu
      refine ⟨by simp; omega, s', ?_, hon⟩
      rwa [List.take_append_of_le_length (Nat.le_of_lt hlt)]

theorem Sys.step_section {s' : Sys} {a : Action} {t b : Nat} {th' : Thread}
    (hs : s.step a = some s') (hth : s'.threads[t]? = some th') (hb : th'.pc.section? = some b) :
    b = s.clock + 1 ∨
      ∃ th, s.threads[t]? = some th ∧ th.op = th'.op ∧ th.pc.section? = some b := by
  unfold Sys.step at hs
  split at hs
  · cases hs
  cases a with
  | spawn op =>
    cases hs
    simp only [List.getElem?_append] at hth
    split at hth
    · exact .inr ⟨th', hth, rfl, hb⟩
    · rw [List.mem_singleton.1 (List.mem_of_getElem? hth)] at hb
      simp [Pc.section?] at hb
  | callback q =>
    simp only at hs
    split at hs <;> cases hs
    exact .inr ⟨th', hth, rfl, hb⟩
  | run k alloc =>
    simp only [Option.bind_eq_bind, Option.bind_eq_some_iff, Option.some.injEq] at hs
    obtain ⟨th, hk, ⟨sh, pc⟩, hstep, rfl⟩ := hs
    simp only [List.getElem?_set] at hth
    by_cases hkt : k = t
    · subst hkt
      have hlt := (List.getElem?_eq_some_iff.1 hk).1
      simp only [hlt, if_true, Option.some.injEq] at hth
      subst hth
      obtain ⟨-, -, -, hsec⟩ := Thread.step_record hstep
      rcases (hsec b hb).2 with hb | hb
      · exact .inr ⟨th, hk, rfl, hb⟩
      · exact .inl hb
    · rw [if_neg hkt] at hth
      exact .inr ⟨th', hth, rfl, hb⟩

/-- A thread has been in its section since the section began. -/
theorem section_began {t b j : Nat} {th : Thread} (hs : run Sys.step Sys.init as = some s)
    (hth : s.threads[t]? = some th) (hb : th.pc.section? = some b) (hj : b ≤ j)
    (hle : j ≤ as.length) :
    ∃ s' th', run Sys.step Sys.init (as.take j) = some s' ∧ s'.threads[t]? = some th' ∧
      th'.op = th.op ∧ th'.pc.section? = some b := by
  induction as using List.reverseRecOn generalizing s th with
  | nil =>
    cases hs
    simp [Sys.init] at hth
  | append_singleton as a ih =>
    by_cases hlast : j = as.length + 1
    · refine ⟨s, th, ?_, hth, rfl, hb⟩
      rwa [List.take_of_length_le (by simp [hlast])]
    · have hle' : j ≤ as.length := by simp at hle; omega
      obtain ⟨s₀, hs₀, hstep⟩ := run_snoc.1 hs
      rw [List.take_append_of_le_length hle']
      rcases Sys.step_section hstep hth hb with rfl | ⟨th₀, hth₀, hop, hb₀⟩
      · rw [clock_eq_length hs₀] at hj
        omega
      · rw [← hop]
        exact ih hs₀ hth₀ hb₀ hle'

end History

/-! ## The way to the list head -/

/-- `k` pointer steps lead from the cell `r` to the list head. -/
def Path (m : Mem) : Nat → Ref → Prop
  | 0, r => r = .books
  | k + 1, r => ∃ n c, r = .book n ∧ m.heap n = some c ∧ Path m k c.node.next

theorem path_of_seg {m : Mem} {ns : List Nat} :
    ∀ {a : Ref}, Seg m a (ns.map .book) .books →
      Path m ns.length (first (ns.map .book) .books) := by
  induction ns with
  | nil => exact fun _ => rfl
  | cons n ns ih =>
    intro a hs
    obtain ⟨c, hc, hnext⟩ := Seg.book hs.2
    exact ⟨n, c, rfl, hc, hnext ▸ ih hs.2⟩

section Paths

variable {sh : Shared} {ths : List Thread} {ns : List Nat} {th : Thread} {b n : Nat}

/-- From every object a section can reach, the list head can be reached. -/
theorem Inv.exists_path (h : Inv sh ths ns) (hth : th ∈ ths) (hb : th.pc.section? = some b)
    (hs : Since sh ns b n) : ∃ k, Path sh.mem k (.book n) := by
  have hon : ∀ n ∈ ns, ∃ k, Path sh.mem k (.book n) := by
    intro n hn
    obtain ⟨as, bs, rfl⟩ := List.append_of_mem hn
    have hseg := h.core.ring.seg
    rw [List.map_append, List.map_cons] at hseg
    obtain ⟨c, hc, hnext⟩ := Seg.book (Seg.append.1 hseg).2
    exact ⟨bs.length + 1, n, c, rfl, hc, hnext ▸ path_of_seg (Seg.append.1 hseg).2⟩
  rcases hs with hn | ⟨u, hu, hm⟩
  · exact hon n hn
  -- an unlinked object points to one that was unlinked later
  induction hk : sh.clock - u using Nat.strongRecOn generalizing n u with
  | ind k ih =>
    have hlt := h.core.past _ hm
    obtain ⟨c, hc, -⟩ := h.next_since hth hb (.inr ⟨u, hu, hm⟩)
    rcases h.core.next_of _ hm c hc with hnext | ⟨m, hnext, hmn | ⟨u', hu', hm'⟩⟩
    · exact ⟨1, n, c, rfl, hc, hnext⟩
    · obtain ⟨j, hj⟩ := hon m hmn
      exact ⟨j + 1, n, c, rfl, hc, hnext ▸ hj⟩
    · simp only at hlt hu'
      obtain ⟨j, hj⟩ := ih (sh.clock - u') (by omega) u' (by omega) hm' rfl
      exact ⟨j + 1, n, c, rfl, hc, hnext ▸ hj⟩

theorem Shared.free_heap {k : Nat} (hf : n ∉ (sh.free k).frees) :
    (sh.free k).mem.heap n = sh.mem.heap n := by
  unfold Shared.free kfree at hf ⊢
  cases hk : sh.mem.heap k with
  | none => rfl
  | some c =>
    simp only [hk, Option.map_some, List.mem_cons, not_or] at hf
    exact Function.update_of_ne hf.1 ..

/-- A thread that does not store to the list changes no object but those it frees. -/
theorem Thread.step_heap (sh' : Shared) {elapsed : Nat → Bool} {alloc : Bool} {pc' : Pc}
    (hs : th.step sh elapsed alloc = some (sh', pc')) (happ : th.applies sh = none)
    (hst : ∀ k, th.pc ≠ .stocked k) (hn : n < sh.mem.next) (hf : n ∉ sh'.frees) :
    sh'.mem.heap n = sh.mem.heap n := by
  have hfresh : n ≠ sh.mem.next := Nat.ne_of_lt hn
  obtain ⟨op, pc⟩ := th
  cases op with
  | Add_book id name author =>
    cases pc <;> simp only [Thread.step, reduceCtorEq] at hs
    case start =>
      cases alloc <;> cases hs
      · rfl
      · obtain ⟨nd, hnd⟩ := fill_book_kzalloc sh.mem id name author
        simp only [show (kzalloc sh.mem).2 = sh.mem.next from rfl, hnd, heap_alloc, if_neg hfresh]
    case stocked k => exact absurd rfl (hst k)
  | update u id async =>
    cases pc <;> simp only [Thread.step, reduceCtorEq] at hs
    case start =>
      split at hs <;> cases hs <;> rfl
    case found old b =>
      split at hs
      · split at hs
        · rename_i hc
          cases hs
          obtain ⟨c, -, rfl⟩ := Option.map_eq_some_iff.1 hc
          simp [kzalloc, Mem.alloc, hfresh]
        · cases hs
          rfl
      · cases hs
        rfl
    case copied old new b => simp [Thread.applies] at happ
    case retiring old =>
      cases async <;> cases hs <;> rfl
    case waiting old g =>
      split at hs <;> cases hs
      exact Shared.free_heap hf
  | Delete_book id async =>
    cases pc <;> simp only [Thread.step, reduceCtorEq] at hs
    case start =>
      simp only [Thread.applies] at happ
      split at hs <;> rename_i hr <;> cases hs
      · simp [hr] at happ
      all_goals rfl
    case retiring old =>
      cases async <;> cases hs <;> rfl
    case waiting old g =>
      split at hs <;> cases hs
      exact Shared.free_heap hf
  | read rd =>
    cases pc <;> simp only [Thread.step, reduceCtorEq] at hs
    case start =>
      cases hs
      rfl
    case reading r b rd =>
      cases r <;> simp only at hs
      case book k => split at hs <;> cases hs <;> rfl
      all_goals
        cases hs
        rfl

end Paths

theorem Sys.step_heap {s s' : Sys} {a : Action} {n : Nat} (hs : s.step a = some s')
    (hq : Quiet s a) (hn : n < s.mem.next) (hf : n ∉ s'.frees) :
    s'.mem.heap n = s.mem.heap n := by
  unfold Sys.step at hs
  split at hs
  · cases hs
  cases a with
  | spawn op =>
    cases hs
    rfl
  | run t alloc =>
    simp only [Option.bind_eq_bind, Option.bind_eq_some_iff, Option.some.injEq] at hs
    obtain ⟨th, hth, ⟨sh, pc⟩, hstep, rfl⟩ := hs
    have happ := hq.1
    simp only [Sys.applies, hth, Option.bind_some] at happ
    exact Thread.step_heap sh hstep happ (hq.2 th hth) hn hf
  | callback q =>
    simp only at hs
    split at hs <;> cases hs
    exact Shared.free_heap hf

/-- A step that does not store to the list is not a `list_replace_rcu`. -/
theorem Quiet.undisturbed {s : Sys} {a : Action} (h : Quiet s a) : Undisturbed s a := by
  unfold Undisturbed
  split
  · split
    · rename_i hth
      have happ := h.1
      simp [Sys.applies, Thread.applies, hth] at happ
    · trivial
  · trivial

def stepsOf (t : Nat) (as : List Action) : Nat :=
  as.countP fun
    | .run k _ => k = t
    | _ => false

section Walk

variable {s s' : Sys} {ns : List Nat} {t b k : Nat} {rd₀ rd : Reader} {r : Ref}

/-- The way of a reader to the list head stays as it is while it is in its section. -/
theorem Inv.path_quiet {a : Action} {ns' : List Nat} {th th' : Thread}
    (h : Inv s.toShared s.threads ns) (h' : Inv s'.toShared s'.threads ns')
    (hs : s.step a = some s') (hq : Quiet s a) (hth : th ∈ s.threads)
    (hb : th.pc.section? = some b) (hth' : th' ∈ s'.threads) (hb' : th'.pc.section? = some b)
    (hp : Path s.mem k r) (hr : r = .books ∨ ∃ n, r = .book n ∧ Since s.toShared ns b n) :
    Path s'.mem k r := by
  have hunl : s'.unlinks = s.unlinks := by
    rw [(Sys.step_record hs).2, hq.1]
    rfl
  induction k generalizing r with
  | zero => exact hp
  | succ k ih =>
    obtain ⟨n, c, rfl, hc, hp⟩ := hp
    obtain ⟨m, hm, hsn⟩ := hr.resolve_left (by simp)
    cases hm
    obtain ⟨c', hc', hnext⟩ := h.next_since hth hb hsn
    rw [hc] at hc'
    cases hc'
    have hnf : n ∉ s'.frees := by
      intro hf
      obtain ⟨⟨n, v⟩, hv, rfl⟩ := List.mem_map.1 (h'.core.freed_gone _ hf)
      have hlt := h'.clear th' hth' b hb' _ hf v hv
      rw [hunl] at hv
      rcases hsn with hn | ⟨u, hu, hm⟩
      · exact (h.core.gone _ hv).1 hn
      · have := h.core.unlinked_unique hm hv
        omega
    refine ⟨n, c, rfl, ?_, ih hp hnext⟩
    rw [Sys.step_heap hs hq (h.core.since_lt_next hsn) hnf, hc]

/-- One step that does not store to the list: the reader is as far from the list head as it was, or
one step closer if the step is its own. -/
theorem Inv.walk_step {a : Action} (h : Inv s.toShared s.threads ns) (hs : s.step a = some s')
    (hq : Quiet s a) (hth : s.threads[t]? = some ⟨.read rd₀, .reading r b rd⟩)
    (hp : Path s.mem (stepsOf t [a] + k) r) :
    ∃ r' rd', s'.threads[t]? = some ⟨.read rd₀, .reading r' b rd'⟩ ∧ Path s'.mem k r' := by
  obtain ⟨ns', h'⟩ := h.step hq.undisturbed hs
  have hmem := List.mem_of_getElem? hth
  obtain ⟨-, hr⟩ := h.ok _ hmem
  have hlen : t < s.threads.length := (List.getElem?_eq_some_iff.1 hth).1
  suffices hw : ∃ r' rd', s'.threads[t]? = some ⟨.read rd₀, .reading r' b rd'⟩ ∧ Path s.mem k r' ∧
      (r' = .books ∨ ∃ n, r' = .book n ∧ Since s.toShared ns b n) by
    obtain ⟨r', rd', hth', hp', hr'⟩ := hw
    exact ⟨r', rd', hth',
      h.path_quiet h' hs hq hmem rfl (List.mem_of_getElem? hth') rfl hp' hr'⟩
  unfold Sys.step at hs
  split at hs
  · cases hs
  cases a with
  | spawn op =>
    cases hs
    refine ⟨r, rd, ?_, by simpa [stepsOf] using hp, hr⟩
    rwa [List.getElem?_append_left hlen]
  | callback q =>
    simp only at hs
    split at hs <;> cases hs
    exact ⟨r, rd, hth, by simpa [stepsOf] using hp, hr⟩
  | run j alloc =>
    simp only [Option.bind_eq_bind, Option.bind_eq_some_iff, Option.some.injEq] at hs
    obtain ⟨th, hj, ⟨sh, pc⟩, hstep, rfl⟩ := hs
    by_cases hjt : j = t
    · subst hjt
      rw [hth, Option.some.injEq] at hj
      subst hj
      rw [show stepsOf j [.run j alloc] = 1 by simp [stepsOf], Nat.add_comm] at hp
      obtain ⟨n, c, rfl, hc, hp⟩ := hp
      obtain ⟨m, hm, hsn⟩ := hr.resolve_left (by simp)
      cases hm
      obtain ⟨c', hc', hnext⟩ := h.next_since hmem rfl hsn
      rw [hc] at hc'
      cases hc'
      simp only [Thread.step, hc, Option.some.injEq, Prod.mk.injEq] at hstep
      obtain ⟨rfl, rfl⟩ := hstep
      exact ⟨_, _, List.getElem?_set_self hlen, hp, hnext⟩
    · refine ⟨r, rd, ?_, by simpa [stepsOf, hjt] using hp, hr⟩
      rwa [List.getElem?_set_ne hjt]

/-- **The walk.** As long as nobody stores to the list, a reader on a way of `k` pointer steps is
at the list head after `k` steps of its own. -/
theorem Inv.walk {bs : List Action} (h : Inv s.toShared s.threads ns)
    (hq : Along Sys.step Quiet s bs) (hs : run Sys.step s bs = some s')
    (hth : s.threads[t]? = some ⟨.read rd₀, .reading r b rd⟩)
    (hp : Path s.mem (stepsOf t bs + k) r) :
    ∃ r' rd', s'.threads[t]? = some ⟨.read rd₀, .reading r' b rd'⟩ ∧ Path s'.mem k r' := by
  induction bs generalizing s ns r rd with
  | nil =>
    cases hs
    exact ⟨r, rd, hth, by simpa [stepsOf] using hp⟩
  | cons a bs ih =>
    obtain ⟨s₁, hs₁, hs⟩ := run_cons.1 hs
    have hsplit : stepsOf t (a :: bs) + k = stepsOf t [a] + (stepsOf t bs + k) := by
      simp only [stepsOf, List.countP_cons, List.countP_nil]
      omega
    obtain ⟨r₁, rd₁, hth₁, hp₁⟩ := h.walk_step hs₁ hq.1 hth (hsplit ▸ hp)
    obtain ⟨ns₁, h₁⟩ := h.step hq.1.undisturbed hs₁
    exact ih h₁ (hq.2 s₁ hs₁) hs hth₁ hp₁

end Walk

/-! ## Serialised updaters and any number of readers -/

/-- After the steps `as`, the object `n` that the section `b` of the thread `t` is about to look at
is live, and it was on the list in a state of the section. -/
def Visits (as : List Action) (s : Sys) (t b n : Nat) : Prop :=
  (s.mem.heap n).isSome ∧
    ∃ j s' th, b ≤ j ∧ j ≤ as.length ∧ run Sys.step Sys.init (as.take j) = some s' ∧
      s'.threads[t]? = some th ∧ th.pc.section? = some b ∧ OnList s'.mem n

/-- If nobody stores to the list, the reader can take its next step until it is at the list head,
after a number of steps of its own that is fixed now. -/
def Arrives (s : Sys) (t b : Nat) : Prop :=
  ∃ k, ∀ bs s', Along Sys.step Quiet s bs → run Sys.step s bs = some s' →
    (stepsOf t bs < k → ∃ n op rd, s'.threads[t]? = some ⟨op, .reading (.book n) b rd⟩ ∧
      ∀ alloc, (s'.step (.run t alloc)).isSome) ∧
    (stepsOf t bs = k → ∃ op rd, s'.threads[t]? = some ⟨op, .reading .books b rd⟩)

/-- In every state the run passes through. -/
def ReadersSafe (as : List Action) : Prop :=
  ∀ i s, run Sys.step Sys.init (as.take i) = some s → s.oops = false ∧
    ∀ t rd₀ r b rd, s.threads[t]? = some ⟨.read rd₀, .reading r b rd⟩ →
      (∀ n, r = .book n → Visits (as.take i) s t b n) ∧ Arrives s t b

theorem Inv.visits {as : List Action} {s : Sys} {ns : List Nat} {t n b : Nat} {rd₀ rd : Reader}
    (h : Inv s.toShared s.threads ns) (hu : Along Sys.step Undisturbed Sys.init as)
    (hs : run Sys.step Sys.init as = some s)
    (hth : s.threads[t]? = some ⟨.read rd₀, .reading (.book n) b rd⟩) : Visits as s t b n := by
  have hmem := List.mem_of_getElem? hth
  obtain ⟨hb, hr⟩ := h.ok _ hmem
  obtain ⟨m, hm, hsn⟩ := hr.resolve_left (by simp)
  cases hm
  obtain ⟨c, hc, -⟩ := h.next_since hmem rfl hsn
  refine ⟨by simp [hc], ?_⟩
  -- on the list now, or on the list when it was unlinked
  obtain ⟨j, s', hbj, hj, hs', hon⟩ : ∃ j s', b ≤ j ∧ j ≤ as.length ∧
      run Sys.step Sys.init (as.take j) = some s' ∧ OnList s'.mem n := by
    rcases hsn with hn | ⟨u, hu', hm⟩
    · rw [clock_eq_length hs] at hb
      exact ⟨as.length, s, hb, Nat.le_refl _, by simpa using hs, (h.core.onList_iff n).2 hn⟩
    · obtain ⟨hlt, s', hs', hon⟩ := unlinked_onList hu hs hm
      exact ⟨u, s', hu', Nat.le_of_lt hlt, hs', hon⟩
  obtain ⟨s'', th, hs'', hth', -, hsec⟩ := section_began hs hth rfl hbj hj
  rw [hs', Option.some.injEq] at hs''
  exact ⟨j, s', th, hbj, hj, hs', hs'' ▸ hth', hsec, hon⟩

theorem Inv.arrives {s : Sys} {ns : List Nat} {t b : Nat} {rd₀ rd : Reader} {r : Ref}
    (h : Inv s.toShared s.threads ns)
    (hth : s.threads[t]? = some ⟨.read rd₀, .reading r b rd⟩) : Arrives s t b := by
  have hmem := List.mem_of_getElem? hth
  obtain ⟨-, hr⟩ := h.ok _ hmem
  obtain ⟨k, hp⟩ : ∃ k, Path s.mem k r := by
    rcases hr with rfl | ⟨n, rfl, hsn⟩
    · exact ⟨0, rfl⟩
    · exact h.exists_path hmem rfl hsn
  refine ⟨k, fun bs s' hq hs => ⟨fun hlt => ?_, fun heq => ?_⟩⟩
  · obtain ⟨j, rfl⟩ := Nat.exists_eq_add_of_lt hlt
    obtain ⟨r', rd', hth', hp'⟩ := h.walk (k := j + 1) hq hs hth hp
    obtain ⟨n, c, rfl, hc, -⟩ := hp'
    obtain ⟨ns', h'⟩ := run_inv (C := Quiet) (I := fun s => ∃ ns, Inv s.toShared s.threads ns)
      (fun ⟨_, hi⟩ hu hst => hi.step hu.undisturbed hst) ⟨ns, h⟩ hq hs
    refine ⟨n, _, rd', hth', fun alloc => ?_⟩
    simp [Sys.step, h'.core.calm, hth', Thread.step, hc]
  · obtain ⟨r', rd', hth', hp'⟩ := h.walk (k := 0) hq hs hth (heq ▸ hp)
    cases hp'
    exact ⟨_, rd', hth'⟩

/-- **Readers are safe.** -/
theorem readers_safe (as : List Action) (h : Along Sys.step Serial Sys.init as) :
    ReadersSafe as := by
  intro i s hs
  have hu := (undisturbed_of_serial h).take i
  obtain ⟨ns, hi⟩ := inv_of_run hu hs
  refine ⟨hi.core.calm, fun t rd₀ r b rd hth => ⟨?_, hi.arrives hth⟩⟩
  rintro n rfl
  exact hi.visits hu hs hth

/-- `List_books` is about to look at object 1 when `Delete_book(8)` unlinks it. -/
def deletedUnderReader : List Action :=
  let add (id : Int) : Action := .spawn (.Add_book id ⟨[], by simp⟩ ⟨[], by simp⟩)
  [add 7, .run 0 true, .run 0 true, add 8, .run 1 true, .run 1 true,
    .spawn (.read (.List_books [])), .run 2 true, .spawn (.Delete_book 8 true), .run 3 true,
    .run 3 true, .run 2 true]

theorem readers_safe_deletedUnderReader :
    (run Sys.step Sys.init deletedUnderReader).isSome ∧ ReadersSafe deletedUnderReader :=
  ⟨by decide, readers_safe _ (by decide)⟩

end LinuxKernelProg.Sync.ListRcu
