import Mathlib.Data.List.Perm.Basic
import LinuxKernelProg.Sync.ListRcu.Interleave

/-!
# The RCU book list: the invariant of the shared data

`Shape` speaks of the memory, the unlinked objects and the freed ones, `Core` of the copies on the
list and their history as well. An object that was unlinked keeps a `next` pointer to an object
that is still on the list or was unlinked later (`Shape.next_of`). Each step that stores to the
shared data keeps `Core`, and `Grows` is what the others may rely on.
-/

namespace LinuxKernelProg.Sync.ListRcu

open LinuxKernelProg.Lib LinkMem

/-! ## Reading the list -/

theorem Lists.nodes_eq {m : Mem} {ns : List Nat} {l : List Entry} (h : Lists m ns l)
    (hf : ns.length ≤ m.next) : nodes m = some ns := by
  unfold nodes
  rw [h.books_next, for_each_yield (fun n _ ns => ns ++ [n]) [] h.ring.seg h.data
    (Nat.lt_succ_of_le hf)]
  have hz : (ns.zip l).map Prod.fst = ns := List.map_fst_zip (Nat.le_of_eq h.length_eq)
  rw [← List.foldl_map (g := fun out n => out ++ [n]) (f := Prod.fst), hz]
  simp [List.foldl_append_eq_append, ← List.flatMap_def]

/-- The objects of a ring are live, so they have data. -/
theorem Lists.of_ring {m : Mem} {ns : List Nat} (h : Ring m .books (ns.map .book)) :
    ∃ l, Lists m ns l := by
  have hlive : ∀ n ∈ ns, (m.entry n).isSome := by
    intro n hn
    rw [Mem.isSome_entry, ← Mem.isSome_link_book]
    exact h.live _ (List.mem_cons_of_mem _ (List.mem_map_of_mem hn))
  refine ⟨ns.filterMap m.entry, h, ?_⟩
  clear h
  induction ns with
  | nil => rfl
  | cons n ns ih =>
    obtain ⟨e, he⟩ := Option.isSome_iff_exists.1 (hlive n List.mem_cons_self)
    rw [List.filterMap_cons_some he, List.map_cons, List.map_cons, he,
      ih fun k hk => hlive k (List.mem_cons_of_mem n hk)]

/-! ## The shared data -/

/-- `n` is on the list, or was unlinked at `u` or later. -/
def Since (sh : Shared) (ns : List Nat) (u n : Nat) : Prop :=
  n ∈ ns ∨ ∃ u', u ≤ u' ∧ (n, u') ∈ sh.unlinks

theorem Since.mono {sh : Shared} {ns : List Nat} {u v n : Nat} (h : Since sh ns u n) (hv : v ≤ u) :
    Since sh ns v n :=
  h.imp_right fun ⟨u', hu', hm⟩ => ⟨u', Nat.le_trans hv hu', hm⟩

/-- What a step may do to the shared data: an object leaves the list only by being unlinked now,
`mine` is the only one that may enter it, and data members change only when the object is freed. -/
structure Grows (sh : Shared) (ns : List Nat) (mine : Option Nat) (sh' : Shared)
    (ns' : List Nat) : Prop where
  clock : sh'.clock = sh.clock + 1
  unlinks : sh.unlinks ⊆ sh'.unlinks
  moved : ∀ k ∈ ns, k ∈ ns' ∨ (k, sh.clock) ∈ sh'.unlinks
  entered : ∀ k ∈ ns', k ∈ ns ∨ mine = some k
  left : ∀ p ∈ sh'.unlinks, p ∈ sh.unlinks ∨ p.1 ∈ ns
  next : sh.mem.next ≤ sh'.mem.next
  entry : ∀ n e, sh.mem.entry n = some e → n ∉ sh'.frees → sh'.mem.entry n = some e

theorem Since.grow {sh sh' : Shared} {ns ns' : List Nat} {mine : Option Nat} {u n : Nat}
    (h : Since sh ns u n) (hg : Grows sh ns mine sh' ns') (hu : u ≤ sh.clock) :
    Since sh' ns' u n := by
  rcases h with hn | ⟨u', hu', hm⟩
  · exact (hg.moved n hn).imp_right fun hm => ⟨_, hu, hm⟩
  · exact .inr ⟨u', hu', hg.unlinks hm⟩

/-- `n` was allocated and was never put on the list. -/
structure Private (sh : Shared) (ns : List Nat) (n : Nat) : Prop where
  lt : n < sh.mem.next
  off : n ∉ ns
  kept : ∀ p ∈ sh.unlinks, p.1 ≠ n

/-- A private object is not one that the list or its history speaks of. -/
theorem Since.ne_private {sh : Shared} {ns : List Nat} {u k n : Nat} (hs : Since sh ns u k)
    (hn : Private sh ns n) : k ≠ n := by
  rintro rfl
  rcases hs with hk | ⟨u', -, hm⟩
  · exact hn.off hk
  · exact hn.kept _ hm rfl

/-- The flag that the latest call on a copy wrote. -/
def flagOf : List Update → Int
  | .Borrow :: _ => 1
  | _ => 0

/-- The memory, the unlinked objects and the freed ones. -/
structure Shape (sh : Shared) (ns : List Nat) : Prop where
  calm : sh.oops = false
  ring : Ring sh.mem .books (ns.map .book)
  dom : ∀ n, (sh.mem.heap n).isSome ↔ n < sh.mem.next ∧ n ∉ sh.frees
  past : ∀ p ∈ sh.unlinks, p.2 < sh.clock
  once : (sh.unlinks.map Prod.fst).Nodup
  gone : ∀ p ∈ sh.unlinks, p.1 ∉ ns ∧ p.1 < sh.mem.next
  next_of : ∀ p ∈ sh.unlinks, ∀ b, sh.mem.heap p.1 = some b →
    b.node.next = .books ∨ ∃ m, b.node.next = .book m ∧ Since sh ns (p.2 + 1) m
  freed_gone : ∀ n ∈ sh.frees, n ∈ sh.unlinks.map Prod.fst

/-- The copies on the list and their history as well. -/
structure Core (sh : Shared) (ns : List Nat) : Prop extends Shape sh ns where
  copies : (ns.map sh.copyOf).Nodup
  roots : ∀ n ∈ ns, Since sh ns 0 (sh.copyOf n)
  known : ∀ p ∈ sh.history, Since sh ns 0 p.1
  flags : ∀ n ∈ ns, ∀ e, sh.mem.entry n = some e →
    e.borrow = flagOf (opsOn sh.history (sh.copyOf n))
  alternates : ∀ c, (opsOn sh.history c).IsChain (· ≠ ·)

theorem Core.init : Core Shared.init [] where
  calm := rfl
  ring := Lists.init.ring
  dom := by simp [Shared.init, Mem.init]
  past := by simp [Shared.init]
  once := by simp [Shared.init]
  gone := by simp [Shared.init]
  next_of := by simp [Shared.init]
  copies := by simp
  freed_gone := by simp [Shared.init]
  roots := by simp
  known := by simp [Shared.init]
  flags := by simp
  alternates := by simp [Shared.init, opsOn]

namespace Shape

variable {sh : Shared} {ns : List Nat} (h : Shape sh ns)
include h

theorem live {n : Nat} (hn : n ∈ ns) : (sh.mem.heap n).isSome := by
  obtain ⟨l, hl⟩ := Lists.of_ring h.ring
  exact hl.live hn

theorem lt_next {n : Nat} (hn : n ∈ ns) : n < sh.mem.next :=
  ((h.dom n).1 (h.live hn)).1

theorem nodup : ns.Nodup := by
  obtain ⟨l, hl⟩ := Lists.of_ring h.ring
  exact hl.nodup

theorem length_le : ns.length ≤ sh.mem.next := by
  have hsub : ns ⊆ List.range sh.mem.next := fun n hn => List.mem_range.2 (h.lt_next hn)
  simpa using h.nodup.length_le_of_subset hsub

theorem onList_iff (n : Nat) : OnList sh.mem n ↔ n ∈ ns := by
  obtain ⟨l, hl⟩ := Lists.of_ring h.ring
  simp [OnList, hl.nodes_eq h.length_le]

/-- The time an object was unlinked is unique. -/
theorem unlinked_unique {n u v : Nat} (hu : (n, u) ∈ sh.unlinks)
    (hv : (n, v) ∈ sh.unlinks) : u = v := by
  have := List.inj_on_of_nodup_map h.once hu hv rfl
  simpa using this

theorem private_next : sh.mem.next ∉ ns ∧ ∀ p ∈ sh.unlinks, p.1 ≠ sh.mem.next :=
  ⟨fun hn => Nat.lt_irrefl _ (h.lt_next hn), fun p hp e => Nat.lt_irrefl _ (e ▸ (h.gone p hp).2)⟩

theorem entry_isSome {n : Nat} {e : Entry} (he : sh.mem.entry n = some e) :
    n < sh.mem.next ∧ n ∉ sh.frees :=
  (h.dom n).1 (by rw [← Mem.isSome_entry, he]; rfl)

theorem since_lt_next {u n : Nat} (hs : Since sh ns u n) : n < sh.mem.next := by
  rcases hs with hn | ⟨u', -, hm⟩
  · exact h.lt_next hn
  · exact (h.gone _ hm).2

end Shape

/-! ## What the steps do to the shared data

Each lemma gives the new data and shows `Core` for it; time has moved on by one. -/

namespace Grows

variable {sh sh' : Shared} {ns : List Nat}

/-- Steps that leave the list and its history alone. -/
theorem of_still (mine : Option Nat) (hc : sh'.clock = sh.clock + 1)
    (hu : sh'.unlinks = sh.unlinks) (hn : sh.mem.next ≤ sh'.mem.next)
    (he : ∀ n e, sh.mem.entry n = some e → n ∉ sh'.frees → sh'.mem.entry n = some e) :
    Grows sh ns mine sh' ns :=
  ⟨hc, fun _ hp => hu ▸ hp, fun _ hk => .inl hk, fun _ hk => .inl hk, fun _ hp => .inl (hu ▸ hp),
    hn, he⟩

/-- `old` leaves the list, and `mid` takes its place. -/
theorem of_unlink {as mid bs : List Nat} {old : Nat} {mine : Option Nat}
    (hc : sh'.clock = sh.clock + 1) (hu : sh'.unlinks = (old, sh.clock) :: sh.unlinks)
    (hd : SameData sh.mem sh'.mem) (hns : ns = as ++ old :: bs) (hmid : ∀ k ∈ mid, mine = some k) :
    Grows sh ns mine sh' (as ++ mid ++ bs) := by
  subst hns
  refine ⟨hc, ?_, fun k hk => ?_, fun k hk => ?_, fun p hp => ?_, Nat.le_of_eq hd.1.symm,
    fun n e he _ => (hd.2 n).trans he⟩
  · rw [hu]
    exact List.subset_cons_self _ _
  · rw [hu]
    simp only [List.mem_append, List.mem_cons] at hk ⊢
    rcases hk with hk | rfl | hk
    · exact .inl (.inl (.inl hk))
    · exact .inr (.inl rfl)
    · exact .inl (.inr hk)
  · simp only [List.mem_append, List.mem_cons] at hk ⊢
    rcases hk with (hk | hk) | hk
    · exact .inl (.inl hk)
    · exact .inr (hmid k hk)
    · exact .inl (.inr (.inr hk))
  · rw [hu] at hp
    rcases List.mem_cons.1 hp with rfl | hp
    · exact .inr (by simp)
    · exact .inl hp

end Grows

/-- A private object stays private unless it is the one that enters the list. -/
theorem Private.grow {sh sh' : Shared} {ns ns' : List Nat} {mine : Option Nat} {k : Nat}
    (h : Private sh ns k) (hg : Grows sh ns mine sh' ns') (hm : mine ≠ some k) :
    Private sh' ns' k := by
  refine ⟨Nat.lt_of_lt_of_le h.lt hg.next, fun hk => ?_, fun p hp e => ?_⟩
  · rcases hg.entered k hk with hk | hk
    · exact h.off hk
    · exact hm hk
  · rcases hg.left p hp with hp | hp
    · exact h.kept p hp e
    · exact h.off (e ▸ hp)

/-- A link of the list leads to the head or to an object of the list. -/
theorem first_cases (bs : List Nat) :
    first (bs.map .book) Ref.books = .books ∨
      ∃ m, first (bs.map .book) Ref.books = .book m ∧ m ∈ bs := by
  cases bs with
  | nil => exact .inl rfl
  | cons m bs => exact .inr ⟨m, rfl, List.mem_cons_self⟩

/-- `old` leaves the list, and the private objects `mid` take its place. -/
theorem Shape.unlink {sh sh' : Shared} {as mid bs : List Nat} {old : Nat} {mine : Option Nat}
    (h : Shape sh (as ++ old :: bs)) (hg : Grows sh (as ++ old :: bs) mine sh' (as ++ mid ++ bs))
    (hmid : ∀ k ∈ mid, Private sh (as ++ old :: bs) k)
    (hr : Ring sh'.mem .books ((as ++ mid ++ bs).map .book)) (hd : SameData sh.mem sh'.mem)
    (ho : ∀ p ∈ sh.unlinks, sh'.mem.heap p.1 = sh.mem.heap p.1)
    (hlink : LinkMem.link sh'.mem (.book old) = some ⟨first (bs.map .book) .books, .poison⟩)
    (hcalm : sh'.oops = false) (hu : sh'.unlinks = (old, sh.clock) :: sh.unlinks)
    (hf : sh'.frees = sh.frees) : Shape sh' (as ++ mid ++ bs) := by
  have hmem : old ∈ as ++ old :: bs := by simp
  have hold : old ∉ as ++ mid ++ bs := by
    have hnd := h.nodup
    have hne : old ∉ mid := fun hm => (hmid old hm).off hmem
    simp only [List.nodup_append, List.nodup_cons, List.mem_cons, List.mem_append, not_or] at hnd ⊢
    grind
  refine ⟨hcalm, hr, fun k => ?_, fun p hp => ?_, ?_, fun p hp => ?_, fun p hp b hb => ?_, ?_⟩
  · rw [hd.isSome, hd.1, hf]
    exact h.dom k
  · rw [hg.clock]
    rw [hu] at hp
    rcases List.mem_cons.1 hp with rfl | hp
    · exact Nat.lt_succ_self _
    · exact Nat.lt_succ_of_lt (h.past p hp)
  · rw [hu, List.map_cons, List.nodup_cons]
    refine ⟨fun hm => ?_, h.once⟩
    obtain ⟨p, hp, e⟩ := List.mem_map.1 hm
    exact (h.gone p hp).1 (e ▸ hmem)
  · rw [hd.1]
    rw [hu] at hp
    rcases List.mem_cons.1 hp with rfl | hp
    · exact ⟨hold, h.lt_next hmem⟩
    · obtain ⟨hoff, hlt⟩ := h.gone p hp
      refine ⟨fun hk => ?_, hlt⟩
      simp only [List.mem_append, List.mem_cons, not_or] at hk hoff
      rcases hk with (hk | hk) | hk
      · exact hoff.1 hk
      · exact (hmid _ hk).kept p hp rfl
      · exact hoff.2.2 hk
  · rw [hu] at hp
    rcases List.mem_cons.1 hp with rfl | hp
    · -- it points to what came after it
      simp only [Mem.link_book, hb, Option.map_some, Option.some.injEq] at hlink
      rw [hlink]
      exact (first_cases bs).imp_right fun ⟨m, hm, hmb⟩ =>
        ⟨m, hm, .inl (List.mem_append_right _ hmb)⟩
    · rw [ho p hp] at hb
      exact (h.next_of p hp b hb).imp_right fun ⟨m, hm, hs⟩ => ⟨m, hm, hs.grow hg (h.past p hp)⟩
  · intro n hn
    rw [hu, List.map_cons]
    exact List.mem_cons_of_mem _ (h.freed_gone n (hf ▸ hn))

namespace Core

variable {sh : Shared} {ns : List Nat} (h : Core sh ns)
include h

theorem tick : Core sh.tick ns :=
  { h with
    past := fun p hp => Nat.lt_succ_of_lt (h.past p hp)
    next_of := h.next_of
    roots := h.roots
    known := h.known }

theorem queue (cs : List (Nat × Nat)) : Core { sh with callbacks := cs } ns :=
  { h with
    next_of := h.next_of
    roots := h.roots
    known := h.known }

theorem alloc (b : Book) : Core { sh.tick with mem := sh.mem.alloc b } ns := by
  obtain ⟨l, hl⟩ := Lists.of_ring h.ring
  obtain ⟨hoff, hkept⟩ := h.private_next
  have hfresh : sh.mem.next ∉ sh.frees := by
    intro hf
    obtain ⟨p, hp, e⟩ := List.mem_map.1 (h.freed_gone _ hf)
    exact hkept p hp e
  refine ⟨⟨h.calm, (hl.alloc hoff b).ring, fun n => ?_, h.tick.past, h.once, fun p hp => ?_, ?_,
    h.freed_gone⟩, h.copies, h.roots, h.known, fun n hn e he => ?_, h.alternates⟩
  · rw [heap_alloc]
    split
    · rename_i e
      subst e
      simp [Shared.tick, hfresh]
    · rename_i e
      rw [h.dom]
      simp only [next_alloc, Shared.tick]
      constructor <;> rintro ⟨h₁, h₂⟩ <;> exact ⟨by omega, h₂⟩
  · exact ⟨(h.gone p hp).1, Nat.lt_succ_of_lt (h.gone p hp).2⟩
  · intro p hp c hc
    rw [heap_alloc, if_neg (hkept p hp)] at hc
    exact h.next_of p hp c hc
  · rw [entry_alloc, if_neg (Nat.ne_of_lt (h.lt_next hn))] at he
    exact h.flags n hn e he

theorem free {n : Nat} (hu : n ∈ sh.unlinks.map Prod.fst) (hf : n ∉ sh.frees) :
    ∃ m', sh.free n = { sh with mem := m', frees := n :: sh.frees } ∧ m'.next = sh.mem.next ∧
      (∀ k, m'.heap k = if k = n then none else sh.mem.heap k) ∧ Core (sh.free n).tick ns := by
  obtain ⟨l, hl⟩ := Lists.of_ring h.ring
  obtain ⟨hoff, hlt⟩ : n ∉ ns ∧ n < sh.mem.next := by
    obtain ⟨p, hp, rfl⟩ := List.mem_map.1 hu
    exact h.gone p hp
  obtain ⟨m', hm', hl', hnext, hheap⟩ := hl.kfree hoff ((h.dom n).2 ⟨hlt, hf⟩)
  have hfree : sh.free n = { sh with mem := m', frees := n :: sh.frees } := by
    simp [Shared.free, hm']
  refine ⟨m', hfree, hnext, hheap, ?_⟩
  rw [hfree]
  have hentry : ∀ k ∈ ns, m'.entry k = sh.mem.entry k := by
    intro k hk
    have hne : k ≠ n := fun e => hoff (e ▸ hk)
    rw [Mem.entry, hheap, if_neg hne, Mem.entry]
  refine ⟨⟨h.calm, hl'.ring, fun k => ?_, h.tick.past, h.once, fun p hp => ?_, fun p hp b hb => ?_,
    fun k hk => ?_⟩, h.copies, h.roots, h.known, fun k hk e he => ?_, h.alternates⟩
  · simp only [Shared.tick, hheap, hnext, List.mem_cons, not_or]
    have := h.dom k
    split
    · rename_i e
      simp [e]
    · rename_i e
      simpa [e] using this
  · simp only [Shared.tick, hnext]
    exact h.gone p hp
  · simp only [Shared.tick, hheap] at hb
    split at hb
    · cases hb
    · exact h.next_of p hp b hb
  · rcases List.mem_cons.1 hk with rfl | hk
    · exact hu
    · exact h.freed_gone k hk
  · simp only [Shared.tick, hentry k hk] at he
    exact h.flags k hk e he

theorem add {n : Nat} {e : Entry} (hn : Private sh ns n) (he : sh.mem.entry n = some e)
    (hflag : e.borrow = 0) :
    ∃ m', sh.add n = { sh with mem := m', copyOf := Function.update sh.copyOf n n } ∧
      Grows sh ns (some n) (sh.add n).tick (n :: ns) ∧ Core (sh.add n).tick (n :: ns) := by
  obtain ⟨l, hl⟩ := Lists.of_ring h.ring
  obtain ⟨m', hm', hl', hd, ho⟩ := hl.add hn.off he
  have hadd : sh.add n = { sh with mem := m', copyOf := Function.update sh.copyOf n n } := by
    simp [Shared.add, hm']
  have hg : Grows sh ns (some n) (sh.add n).tick (n :: ns) := by
    rw [hadd]
    refine ⟨rfl, List.Subset.refl _, fun k hk => .inl (List.mem_cons_of_mem n hk), fun k hk => ?_,
      fun p hp => .inl hp, Nat.le_of_eq hd.1.symm, fun k e he _ => (hd.2 k).trans he⟩
    exact (List.mem_cons.1 hk).symm.imp_right fun e => congrArg some e.symm
  have hne : ∀ k ∈ ns, k ≠ n := fun k hk e => hn.off (e ▸ hk)
  refine ⟨m', hadd, hg, ?_⟩
  rw [hadd] at hg ⊢
  refine ⟨⟨h.calm, hl'.ring, fun k => ?_, h.tick.past, h.once, fun p hp => ?_, ?_, h.freed_gone⟩,
    ?_, ?_, fun p hp => (h.known p hp).grow hg (Nat.zero_le _), ?_, h.alternates⟩
  · simp only [Shared.tick]
    rw [hd.isSome, hd.1]
    exact h.dom k
  · simp only [Shared.tick, hd.1, List.mem_cons, not_or]
    exact ⟨⟨hn.kept p hp, (h.gone p hp).1⟩, (h.gone p hp).2⟩
  · intro p hp c hc
    simp only [Shared.tick] at hc
    rw [ho p.1 (h.gone p hp).1 (hn.kept p hp)] at hc
    exact (h.next_of p hp c hc).imp_right fun ⟨m, hm, hs⟩ => ⟨m, hm, hs.grow hg (h.past p hp)⟩
  · simp only [Shared.tick, List.map_cons, Function.update_self, List.nodup_cons]
    rw [List.map_congr_left fun k hk => Function.update_of_ne (hne k hk) ..]
    refine ⟨fun hm => ?_, h.copies⟩
    obtain ⟨k, hk, e⟩ := List.mem_map.1 hm
    exact (h.roots k hk).ne_private hn e
  · intro k hk
    simp only [Shared.tick]
    rcases List.mem_cons.1 hk with rfl | hk
    · rw [Function.update_self]
      exact .inl List.mem_cons_self
    · rw [Function.update_of_ne (hne k hk)]
      exact (h.roots k hk).grow hg (Nat.zero_le _)
  · intro k hk x hx
    simp only [Shared.tick, hd.2] at hx ⊢
    rcases List.mem_cons.1 hk with rfl | hk
    · -- nothing was borrowed of a copy that is new
      have hnil : opsOn sh.history k = [] := by
        simp only [opsOn, List.filterMap_eq_nil_iff]
        exact fun p hp => if_neg ((h.known p hp).ne_private hn)
      rw [he, Option.some.injEq] at hx
      rw [Function.update_self, hnil, ← hx, hflag]
      rfl
    · rw [Function.update_of_ne (hne k hk)]
      exact h.flags k hk x hx

theorem del {n : Nat} (hn : n ∈ ns) :
    ∃ ns' m', sh.del n = { sh with mem := m', unlinks := (n, sh.clock) :: sh.unlinks } ∧
      Grows sh ns none (sh.del n).tick ns' ∧ Core (sh.del n).tick ns' := by
  obtain ⟨l, hl⟩ := Lists.of_ring h.ring
  obtain ⟨as, bs, rfl⟩ := List.append_of_mem hn
  obtain ⟨m', hm', hr, hd, ho, hlink⟩ := hl.del
  have hdel : sh.del n = { sh with mem := m', unlinks := (n, sh.clock) :: sh.unlinks } := by
    simp [Shared.del, hm']
  have hg : Grows sh (as ++ n :: bs) none (sh.del n).tick (as ++ [] ++ bs) := by
    rw [hdel]
    exact .of_unlink rfl rfl hd rfl (by simp)
  have hsub : (as ++ [] ++ bs).Sublist (as ++ n :: bs) := by simp
  refine ⟨_, m', hdel, hg, ?_⟩
  rw [hdel] at hg ⊢
  refine ⟨h.unlink hg (by simp) (by simpa [Shared.tick] using hr) hd
    (fun p hp => ho p.1 (h.gone p hp).1) hlink
    h.calm rfl rfl, h.copies.sublist (hsub.map _), fun k hk => ?_, fun p hp => ?_,
    fun k hk e he => ?_, h.alternates⟩
  · exact (h.roots k (hsub.subset hk)).grow hg (Nat.zero_le _)
  · exact (h.known p hp).grow hg (Nat.zero_le _)
  · simp only [Shared.tick, hd.2] at he
    exact h.flags k (hsub.subset hk) e he

theorem replace {old new : Nat} {e : Entry} (u : Update) (hold : old ∈ ns)
    (hn : Private sh ns new) (he : sh.mem.entry old = some e) (hw : e.borrow = u.wants)
    (hnew : sh.mem.entry new = some { e with borrow := u.flag }) :
    ∃ ns' m', sh.replace u old new =
        { sh with
          mem := m'
          unlinks := (old, sh.clock) :: sh.unlinks
          history := (sh.copyOf old, u) :: sh.history
          copyOf := Function.update sh.copyOf new (sh.copyOf old) } ∧
      Grows sh ns (some new) (sh.replace u old new).tick ns' ∧
      Core (sh.replace u old new).tick ns' := by
  obtain ⟨l, hl⟩ := Lists.of_ring h.ring
  obtain ⟨as, bs, rfl⟩ := List.append_of_mem hold
  obtain ⟨m', hm', hr, hd, ho, hlink⟩ := hl.replace hn.off hnew
  have hrep : sh.replace u old new =
      { sh with
        mem := m'
        unlinks := (old, sh.clock) :: sh.unlinks
        history := (sh.copyOf old, u) :: sh.history
        copyOf := Function.update sh.copyOf new (sh.copyOf old) } := by
    simp [Shared.replace, hm']
  have hg : Grows sh (as ++ old :: bs) (some new) (sh.replace u old new).tick
      (as ++ [new] ++ bs) := by
    rw [hrep]
    exact .of_unlink rfl rfl hd rfl (by simp)
  have hnd := h.nodup
  -- an object of the new list is the copy or was on the list before and is not `old`
  have hcases : ∀ k ∈ as ++ [new] ++ bs, k = new ∨ k ≠ new ∧ k ≠ old ∧ k ∈ as ++ old :: bs := by
    have hoff := hn.off
    simp only [List.nodup_append, List.nodup_cons, List.mem_cons, List.mem_append] at hnd hoff ⊢
    grind
  refine ⟨_, m', hrep, hg, ?_⟩
  rw [hrep] at hg ⊢
  refine ⟨h.unlink hg (by simpa using hn) (by simpa [Shared.tick] using hr) hd
      (fun p hp => ho p.1 (h.gone p hp).1 (hn.kept p hp)) hlink h.calm rfl rfl,
    ?_, fun k hk => ?_, fun p hp => ?_, fun k hk x hx => ?_, fun c => ?_⟩
  · have hsame : ∀ k ∈ as ++ bs, Function.update sh.copyOf new (sh.copyOf old) k = sh.copyOf k := by
      intro k hk
      refine Function.update_of_ne (fun e => hn.off ?_) ..
      subst e
      simp only [List.mem_append, List.mem_cons] at hk ⊢
      exact hk.imp_right .inr
    have hc := h.copies
    simp only [Shared.tick, List.map_append, List.map_cons, Function.update_self,
      List.append_assoc, List.singleton_append] at hc ⊢
    rw [List.map_congr_left fun k hk => hsame k (List.mem_append_left bs hk),
      List.map_congr_left fun k hk => hsame k (List.mem_append_right as hk)]
    exact hc
  · simp only [Shared.tick]
    rcases hcases k hk with rfl | ⟨hne, -, hk⟩
    · rw [Function.update_self]
      exact (h.roots old hold).grow hg (Nat.zero_le _)
    · rw [Function.update_of_ne hne]
      exact (h.roots k hk).grow hg (Nat.zero_le _)
  · rcases List.mem_cons.1 hp with rfl | hp
    · exact (h.roots old hold).grow hg (Nat.zero_le _)
    · exact (h.known p hp).grow hg (Nat.zero_le _)
  · simp only [Shared.tick, hd.2] at hx ⊢
    rcases hcases k hk with rfl | ⟨hne, hne', hk⟩
    · -- the new object is the copy the call was on
      rw [hnew, Option.some.injEq] at hx
      rw [Function.update_self, ← hx]
      cases u <;> simp [opsOn, flagOf, Update.flag]
    · have hcopy : sh.copyOf old ≠ sh.copyOf k := fun e =>
        hne' (List.inj_on_of_nodup_map h.copies hk hold e.symm)
      rw [Function.update_of_ne hne]
      simpa [opsOn, hcopy] using h.flags k hk x hx
  · simp only [Shared.tick]
    by_cases hc : sh.copyOf old = c
    · subst hc
      have hf := h.flags old hold e he
      have ha := h.alternates (sh.copyOf old)
      rw [hw] at hf
      simp only [opsOn, List.filterMap_cons, if_true] at hf ha ⊢
      generalize List.filterMap _ sh.history = ops at hf ha
      cases ops with
      | nil => exact List.IsChain.singleton _
      | cons v ops =>
        refine List.IsChain.cons_cons ?_ ha
        rintro rfl
        cases u <;> simp [flagOf, Update.wants] at hf
    · simpa [opsOn, hc] using h.alternates c

end Core

end LinuxKernelProg.Sync.ListRcu
