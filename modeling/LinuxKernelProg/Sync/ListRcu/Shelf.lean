import LinuxKernelProg.Sync.ListRcu.Rep

/-!
# The RCU book list: calls one after the other

`Shelf` is what the module is for: a list of entries, the latest title first, on which the first
entry with an id is borrowed, returned and deleted. `Rep s ns l` relates a state of the module to
it. Every call keeps `Rep` and does on the shelf what `Shelf.call` says (`call_refines`), so every
sequence of calls does (`calls_refine`).
-/

namespace LinuxKernelProg.Sync.ListRcu

open LinuxKernelProg.Lib LinkMem

abbrev Shelf := List Entry

namespace Shelf

/-- The first 64 bytes of a string, filled up with NUL. -/
def first64 (s : CString) : Fin 64 → UInt8 := s.padded 64 64

/-- The shelf with another flag on the first entry with the id. -/
def setFirst (id flag : Int) : Shelf → Shelf
  | [] => []
  | e :: l => if e.id = id then { e with borrow := flag } :: l else e :: setFirst id flag l

/-- Borrowing or returning: the first entry with the id must have the flag `old`, and gets the
flag `new`; 0 on success and -1, with the shelf as it was, otherwise. -/
def update (old new id : Int) (alloc : Bool) (l : Shelf) : Shelf × Option Int :=
  match l.find? (fun e => e.id = id) with
  | some e => if e.borrow = old ∧ alloc then (setFirst id new l, some 0) else (l, some (-1))
  | none => (l, some (-1))

/-- The first entry with the id is taken off. -/
def delete (id : Int) (l : Shelf) : Shelf := l.eraseP fun e => e.id = id

def call (l : Shelf) : Call → Shelf × Option Int
  | .Add_book id name author alloc =>
    (if alloc then ⟨id, first64 name, first64 author, 0⟩ :: l else l, none)
  | .Borrow_book id _ alloc => update 0 1 id alloc l
  | .Return_book id _ alloc => update 1 0 id alloc l
  | .Delete_book id _ => (delete id l, none)
  | .Reclaim_callback => (l, none)

def calls : Shelf → List Call → Shelf × List (Option Int)
  | l, [] => (l, [])
  | l, c :: cs =>
    let (l, r) := l.call c
    let (l, rs) := calls l cs
    (l, r :: rs)

/-- Flags are 0 or 1. -/
def Flags (l : Shelf) : Prop := ∀ e ∈ l, e.borrow = 0 ∨ e.borrow = 1

theorem strncpy_eq (s : CString) : strncpy s = first64 s := by
  funext i
  simp [strncpy, first64, CString.padded, List.getD_eq_getElem?_getD, i.isLt]

section First

variable {id : Int} {la lb : Shelf} {e : Entry} (hne : ∀ x ∈ la, x.id ≠ id) (hid : e.id = id)
include hne hid

theorem find?_first : (la ++ e :: lb).find? (fun e => e.id = id) = some e := by
  rw [List.find?_append, List.find?_eq_none.2 (by simpa using hne)]
  simp [hid]

theorem setFirst_first (flag : Int) :
    setFirst id flag (la ++ e :: lb) = la ++ { e with borrow := flag } :: lb := by
  induction la with
  | nil => simp [setFirst, hid]
  | cons x la ih =>
    have hx : x.id ≠ id := hne x List.mem_cons_self
    simp only [List.cons_append, setFirst, hx, if_false]
    rw [ih fun y hy => hne y (List.mem_cons_of_mem x hy)]

theorem delete_first : delete id (la ++ e :: lb) = la ++ lb := by
  unfold delete
  rw [List.eraseP_append_right _ (by simpa using hne)]
  simp [hid]

end First

theorem find?_absent {id : Int} {l : Shelf} (h : ∀ e ∈ l, e.id ≠ id) :
    l.find? (fun e => e.id = id) = none :=
  List.find?_eq_none.2 (by simpa using h)

theorem delete_absent {id : Int} {l : Shelf} (h : ∀ e ∈ l, e.id ≠ id) : delete id l = l :=
  List.eraseP_of_forall_not (by simpa using h)

end Shelf

/-! ## The representation -/

/-- The state `s` holds the shelf `l` in the objects `ns`: the memory is the list, only allocated
objects are live, every allocated object is either on the list or handed over, once, and the
objects queued with `call_rcu` are those that were handed over and are still live. -/
structure Rep (s : State) (ns : List Nat) (l : Shelf) : Prop where
  lists : Lists s.mem ns l
  dom : ∀ n, (s.mem.heap n).isSome → n < s.mem.next
  custody : ∀ n < s.mem.next, ns.count n + s.handed.count n = 1
  fresh : ∀ n ∈ s.handed, n < s.mem.next
  queued : ∀ n ∈ s.callbacks, n ∈ s.handed ∧ (s.mem.heap n).isSome
  pending : ∀ n ∈ s.handed, (s.mem.heap n).isSome → n ∈ s.callbacks
  queued_nodup : s.callbacks.Nodup
  flags : Shelf.Flags l

namespace Rep

variable {s : State} {ns : List Nat} {l : Shelf}

theorem init : Rep State.init [] [] where
  lists := Lists.init
  dom := by simp [State.init, Mem.init]
  custody := by simp [State.init, Mem.init]
  fresh := by simp [State.init]
  queued := by simp [State.init]
  pending := by simp [State.init]
  queued_nodup := by simp [State.init]
  flags := by simp [Shelf.Flags]

theorem lt_next (h : Rep s ns l) {n : Nat} (hn : n ∈ ns) : n < s.mem.next :=
  h.dom n (h.lists.live hn)

theorem next_not_mem (h : Rep s ns l) : s.mem.next ∉ ns :=
  fun hn => Nat.lt_irrefl _ (h.lt_next hn)

theorem length_le (h : Rep s ns l) : ns.length ≤ s.mem.next := by
  have hsub : ns ⊆ List.range s.mem.next := fun n hn => List.mem_range.2 (h.lt_next hn)
  simpa using h.lists.nodup.length_le_of_subset hsub

/-- An object on the list was not handed over. -/
theorem not_handed (h : Rep s ns l) {n : Nat} (hn : n ∈ ns) : n ∉ s.handed := by
  have hc := h.custody n (h.lt_next hn)
  have : 0 < ns.count n := List.count_pos_iff.2 hn
  intro hh
  have : 0 < s.handed.count n := List.count_pos_iff.2 hh
  omega

theorem alloc (h : Rep s ns l) (b : Book) :
    Lists (s.mem.alloc b) ns l ∧
      ∀ n, ((s.mem.alloc b).heap n).isSome → n < s.mem.next + 1 := by
  refine ⟨h.lists.alloc h.next_not_mem b, fun n hn => ?_⟩
  rw [heap_alloc] at hn
  split at hn
  · omega
  · have := h.dom n hn
    omega

end Rep

/-- The state after an updater has unlinked `old`, before it hands it over. -/
structure Unlinked (s : State) (old : Nat) (ns : List Nat) (l : Shelf) : Prop where
  lists : Lists s.mem ns l
  dom : ∀ n, (s.mem.heap n).isSome → n < s.mem.next
  live : (s.mem.heap old).isSome
  custody : ∀ n < s.mem.next, ns.count n + (old :: s.handed).count n = 1
  fresh : ∀ n ∈ s.handed, n < s.mem.next
  queued : ∀ n ∈ s.callbacks, n ∈ s.handed ∧ (s.mem.heap n).isSome
  pending : ∀ n ∈ s.handed, (s.mem.heap n).isSome → n ∈ s.callbacks
  queued_nodup : s.callbacks.Nodup
  flags : Shelf.Flags l

theorem Unlinked.retire {s : State} {old : Nat} {ns : List Nat} {l : Shelf}
    (h : Unlinked s old ns l) (async : Bool) :
    ∃ s', ListRcu.retire async s old = some s' ∧ Rep s' ns l := by
  have hlt : old < s.mem.next := h.dom old h.live
  have hc := h.custody old hlt
  rw [List.count_cons_self] at hc
  have hns : old ∉ ns := fun hm => by
    have := List.count_pos_iff.2 hm
    omega
  have hh : old ∉ s.handed := fun hm => by
    have := List.count_pos_iff.2 hm
    omega
  have hfresh : ∀ n ∈ old :: s.handed, n < s.mem.next := by
    simpa using ⟨hlt, h.fresh⟩
  cases async with
  | true =>
    refine ⟨_, rfl, ⟨h.lists, h.dom, h.custody, hfresh, ?_, ?_, ?_, h.flags⟩⟩
    · intro n hn
      rcases List.mem_append.1 hn with hn | hn
      · exact ⟨List.mem_cons_of_mem _ (h.queued n hn).1, (h.queued n hn).2⟩
      · rw [List.mem_singleton.1 hn]
        exact ⟨List.mem_cons_self, h.live⟩
    · intro n hn hlive
      rcases List.mem_cons.1 hn with rfl | hn
      · exact List.mem_append_right _ List.mem_cons_self
      · exact List.mem_append_left _ (h.pending n hn hlive)
    · have : old ∉ s.callbacks := fun hq => hh (h.queued old hq).1
      simpa [List.nodup_append, h.queued_nodup] using fun a ha e => this (by rw [← e]; exact ha)
  | false =>
    obtain ⟨m', hm', hl, hnext, hheap⟩ := h.lists.kfree hns h.live
    refine ⟨{ s with mem := m', handed := old :: s.handed }, by simp [ListRcu.retire, hm'],
      ⟨hl, ?_, by simpa only [hnext] using h.custody, by simpa only [hnext] using hfresh, ?_, ?_,
        h.queued_nodup, h.flags⟩⟩
    · intro n hn
      rw [hheap] at hn
      split at hn
      · simp at hn
      · exact hnext ▸ h.dom n hn
    · intro n hn
      obtain ⟨hn₁, hn₂⟩ := h.queued n hn
      refine ⟨List.mem_cons_of_mem _ hn₁, ?_⟩
      have hne : n ≠ old := fun e => hh (e ▸ hn₁)
      rw [hheap, if_neg hne]
      exact hn₂
    · intro n hn hlive
      rw [hheap] at hlive
      split at hlive
      · simp at hlive
      · next hne => exact h.pending n ((List.mem_cons.1 hn).resolve_left hne) hlive

/-! ## Each call -/

section Calls

variable {s : State} {ns : List Nat} {l : Shelf} (h : Rep s ns l)
include h

theorem Add_book_spec (id : Int) (name author : CString) (alloc : Bool) :
    ∃ s' ns', Add_book id name author alloc s = some s' ∧
      Rep s' ns'
        (if alloc then ⟨id, Shelf.first64 name, Shelf.first64 author, 0⟩ :: l else l) := by
  cases alloc with
  | false => exact ⟨s, ns, rfl, h⟩
  | true =>
    obtain ⟨nd, hf⟩ := fill_book_kzalloc s.mem id name author
    set b : Book := ⟨⟨id, strncpy name, strncpy author, 0⟩, nd⟩ with hb
    obtain ⟨hl, hdom⟩ := h.alloc b
    obtain ⟨m', hm', hl', hd, -⟩ := hl.add h.next_not_mem
      (by rw [entry_alloc, if_pos rfl] : (s.mem.alloc b).entry s.mem.next = some b.toEntry)
    have hnext : m'.next = s.mem.next + 1 := hd.1
    refine ⟨{ s with mem := m' }, s.mem.next :: ns, ?_, ?_⟩
    · simp only [Add_book, if_true, kzalloc] at hf ⊢
      rw [hf, hm']
      rfl
    · refine ⟨?_, ?_, ?_, ?_, ?_, ?_, h.queued_nodup, ?_⟩
      · simpa [hb, Shelf.strncpy_eq] using hl'
      · intro n hn
        rw [hd.isSome] at hn
        exact hnext ▸ hdom n hn
      · intro n hn
        rw [hnext] at hn
        by_cases e : n = s.mem.next
        · subst e
          have h₁ : ns.count s.mem.next = 0 := List.count_eq_zero.2 h.next_not_mem
          have h₂ : s.handed.count s.mem.next = 0 :=
            List.count_eq_zero.2 fun hh => Nat.lt_irrefl _ (h.fresh _ hh)
          simp [h₁, h₂]
        · rw [List.count_cons_of_ne (Ne.symm e)]
          exact h.custody n (by omega)
      · intro n hn
        have := h.fresh n hn
        simp only [hnext]
        omega
      · intro n hn
        refine ⟨(h.queued n hn).1, ?_⟩
        have hlt := h.fresh n (h.queued n hn).1
        rw [hd.isSome, heap_alloc, if_neg (Nat.ne_of_lt hlt)]
        exact (h.queued n hn).2
      · intro n hn hlive
        rw [hd.isSome, heap_alloc, if_neg (Nat.ne_of_lt (h.fresh n hn))] at hlive
        exact h.pending n hn hlive
      · intro e he
        rcases List.mem_cons.1 he with rfl | he
        · exact .inl rfl
        · exact h.flags e he

omit h in
theorem not_refuses_iff {e : Entry} (he : e.borrow = 0 ∨ e.borrow = 1) (u : Update) :
    u.refuses e = false ↔ e.borrow = u.wants := by
  cases u <;> rcases he with he | he <;> simp [Update.refuses, Update.wants, he]

/-- Copy and replace: the list keeps its order, and the old object is the one unlinked. -/
theorem replace_spec {id : Int} {as bs : List Nat} {n : Nat} {la lb : Shelf} {e : Entry}
    (hF : First s.mem id ns l as n bs la e lb) (u : Update) :
    ∃ m₁ m₂, copy_book u (kzalloc s.mem).1 n s.mem.next = some m₁ ∧
      list_replace_rcu m₁ n s.mem.next = some m₂ ∧
      Unlinked { s with mem := m₂ } n (as ++ s.mem.next :: bs)
        (la ++ { e with borrow := u.flag } :: lb) := by
  have hn : n ∈ ns := by simp [hF.nodes]
  have hlt := h.lt_next hn
  obtain ⟨b, hb, rfl⟩ : ∃ b, s.mem.heap n = some b ∧ b.toEntry = e := by
    simpa [Mem.entry] using hF.entry
  set b' : Book := { b with borrow := u.flag } with hb'
  obtain ⟨hl, hdom⟩ := h.alloc b'
  have hnew : s.mem.next ∉ as ++ n :: bs := hF.nodes ▸ h.next_not_mem
  rw [hF.nodes] at hl
  obtain ⟨m', hm', hr, hd, -, hold⟩ := hl.replace hnew
    (by rw [entry_alloc, if_pos rfl] : (s.mem.alloc b').entry s.mem.next = some b'.toEntry)
  have hent : ∀ k ∈ ns, m'.entry k = s.mem.entry k := by
    intro k hk
    rw [hd.2, entry_alloc, if_neg (Nat.ne_of_lt (h.lt_next hk))]
  have hnext : m'.next = s.mem.next + 1 := hd.1
  refine ⟨_, m', copy_book_kzalloc u hb (Nat.ne_of_lt hlt), hm', ?_, ?_, ?_, ?_, ?_, ?_, ?_,
    h.queued_nodup, ?_⟩
  · refine ⟨hr, ?_⟩
    have has : as.map m'.entry = la.map some := hF.before ▸
      List.map_congr_left fun k hk => hent k (by simp [hF.nodes, hk])
    have hbs : bs.map m'.entry = lb.map some := hF.after ▸
      List.map_congr_left fun k hk => hent k (by simp [hF.nodes, hk])
    simp only [List.map_append, List.map_cons, has, hbs, hd.2, entry_alloc, if_true, hb']
  · intro k hk
    rw [hd.isSome] at hk
    exact hnext ▸ hdom k hk
  · rw [hd.isSome, heap_alloc, if_neg (Nat.ne_of_lt hlt), hb]
    rfl
  · -- the new object takes the old one's place in the count, the old one is handed over
    intro k hk
    simp only [hnext] at hk
    by_cases ek : k = s.mem.next
    · subst ek
      have h₁ : (as ++ n :: bs).count s.mem.next = 0 := List.count_eq_zero.2 hnew
      have h₂ : s.handed.count s.mem.next = 0 :=
        List.count_eq_zero.2 fun hh => Nat.lt_irrefl _ (h.fresh _ hh)
      simp only [List.count_append, List.count_cons, beq_iff_eq, h₂, if_true] at h₁ ⊢
      omega
    · have hc := h.custody k (by omega)
      simp only [hF.nodes, List.count_append, List.count_cons, beq_iff_eq, Ne.symm ek,
        if_false] at hc ⊢
      omega
  · intro k hk
    have := h.fresh k hk
    simp only [hnext]
    omega
  · intro k hk
    refine ⟨(h.queued k hk).1, ?_⟩
    have hk' := h.fresh k (h.queued k hk).1
    rw [hd.isSome, heap_alloc, if_neg (Nat.ne_of_lt hk')]
    exact (h.queued k hk).2
  · intro k hk hlive
    rw [hd.isSome, heap_alloc, if_neg (Nat.ne_of_lt (h.fresh k hk))] at hlive
    exact h.pending k hk hlive
  · intro x hx
    simp only [List.mem_append, List.mem_cons] at hx
    rcases hx with hx | rfl | hx
    · exact h.flags x (by simp [hF.list, hx])
    · cases u <;> simp [Update.flag]
    · exact h.flags x (by simp [hF.list, hx])

theorem update_book_spec (u : Update) (id : Int) (async alloc : Bool) :
    ∃ s' ns' r, update_book u id async alloc s = some (s', r) ∧
      Rep s' ns' (Shelf.update u.wants u.flag id alloc l).1 ∧
      (Shelf.update u.wants u.flag id alloc l).2 = some r := by
  rcases h.lists.lookup_spec h.length_le u id with ⟨hlook, hne⟩ | ⟨as, n, bs, la, e, lb, hF, hlook⟩
  · refine ⟨s, ns, -1, by simp [update_book, hlook], ?_, ?_⟩
    · simpa only [Shelf.update, Shelf.find?_absent hne] using h
    · simp only [Shelf.update, Shelf.find?_absent hne]
  · have hfind : (la ++ e :: lb).find? _ = some e := Shelf.find?_first hF.ne hF.id_eq
    rw [← hF.list] at hfind
    have hiff := not_refuses_iff (h.flags e (by simp [hF.list])) u
    by_cases hok : e.borrow = u.wants ∧ alloc
    · obtain ⟨hw, rfl⟩ := hok
      rw [hiff.2 hw] at hlook
      obtain ⟨m₁, m₂, hm₁, hm₂, hU⟩ := replace_spec h hF u
      obtain ⟨s', hs', hR⟩ := hU.retire async
      refine ⟨s', as ++ s.mem.next :: bs, 0, ?_, ?_, ?_⟩
      · simp only [kzalloc] at hm₁
        simp [update_book, hlook, kzalloc, hm₁, hm₂, hs']
      · simp only [Shelf.update, hfind, hw, and_self, if_true]
        rw [hF.list, Shelf.setFirst_first hF.ne hF.id_eq]
        exact hR
      · simp [Shelf.update, hfind, hw]
    · refine ⟨s, ns, -1, ?_, ?_, ?_⟩
      · by_cases hw : e.borrow = u.wants
        · have ha : alloc = false := by simpa [hw] using hok
          simp [update_book, hlook, hiff.2 hw, ha]
        · have hr : u.refuses e = true := by
            simpa using mt hiff.1 hw
          simp [update_book, hlook, hr]
      · simpa only [Shelf.update, hfind, hok, if_false] using h
      · simp only [Shelf.update, hfind, hok, if_false]

theorem Delete_book_spec (id : Int) (async : Bool) :
    ∃ s' ns', Delete_book id async s = some s' ∧
      Rep s' ns' (Shelf.delete id l) := by
  rcases h.lists.find_book_spec h.length_le id with ⟨hfind, hne⟩ | ⟨as, n, bs, la, e, lb, hF, hfind⟩
  · refine ⟨s, ns, by simp [Delete_book, hfind], ?_⟩
    rw [Shelf.delete_absent hne]
    exact h
  · have hl := h.lists
    rw [hF.nodes] at hl
    obtain ⟨m', hm', hr, hd, -, -⟩ := hl.del
    have hnext : m'.next = s.mem.next := hd.1
    have hU : Unlinked { s with mem := m' } n (as ++ bs) (la ++ lb) := by
      refine ⟨⟨hr, ?_⟩, ?_, ?_, ?_, by simpa only [hnext] using h.fresh, ?_, ?_, h.queued_nodup, ?_⟩
      · rw [List.map_congr_left fun k _ => hd.2 k, List.map_append, hF.before, hF.after,
          List.map_append]
      · intro k hk
        rw [hd.isSome] at hk
        exact hnext ▸ h.dom k hk
      · rw [hd.isSome]
        exact hl.live (by simp)
      · intro k hk
        simp only [hnext] at hk
        have hc := h.custody k hk
        simp only [hF.nodes, List.count_append, List.count_cons] at hc ⊢
        omega
      · intro k hk
        rw [hd.isSome]
        exact h.queued k hk
      · intro k hk hlive
        rw [hd.isSome] at hlive
        exact h.pending k hk hlive
      · intro x hx
        refine h.flags x ?_
        simp only [hF.list, List.mem_append, List.mem_cons] at hx ⊢
        tauto
    obtain ⟨s', hs', hR⟩ := hU.retire async
    refine ⟨s', as ++ bs, ?_, ?_⟩
    · simp [Delete_book, hfind, hm', hs']
    · rw [hF.list, Shelf.delete_first hF.ne hF.id_eq]
      exact hR

theorem Reclaim_callback_spec :
    ∃ s', Reclaim_callback s = some s' ∧ Rep s' ns l := by
  cases hc : s.callbacks with
  | nil => exact ⟨s, by simp [Reclaim_callback, hc], h⟩
  | cons n cs =>
    have hq := h.queued n (by simp [hc])
    have hns : n ∉ ns := fun hn => h.not_handed hn hq.1
    have hnd : (n :: cs).Nodup := hc ▸ h.queued_nodup
    obtain ⟨m', hm', hl, hnext, hheap⟩ := h.lists.kfree hns hq.2
    refine ⟨{ s with mem := m', callbacks := cs }, by simp [Reclaim_callback, hc, hm'],
      ⟨hl, ?_, by simpa only [hnext] using h.custody, by simpa only [hnext] using h.fresh, ?_, ?_,
        (List.nodup_cons.1 hnd).2, h.flags⟩⟩
    · intro k hk
      rw [hheap] at hk
      split at hk
      · simp at hk
      · exact hnext ▸ h.dom k hk
    · intro k hk
      obtain ⟨hk₁, hk₂⟩ := h.queued k (by simp [hc, show k ∈ cs from hk])
      have hne : k ≠ n := fun e => (List.nodup_cons.1 hnd).1 (e ▸ hk)
      refine ⟨hk₁, ?_⟩
      rw [hheap, if_neg hne]
      exact hk₂
    · intro k hk hlive
      rw [hheap] at hlive
      split at hlive
      · simp at hlive
      · next hne =>
        have hk' := h.pending k hk hlive
        rw [hc] at hk'
        exact (List.mem_cons.1 hk').resolve_left hne

/-- A call does on the memory what it does on the shelf. -/
theorem call_refines (c : Call) :
    ∃ s' ns', s.call c = some (s', (Shelf.call l c).2) ∧
      Rep s' ns' (Shelf.call l c).1 := by
  cases c with
  | Add_book id name author alloc =>
    obtain ⟨s', ns', hs', hR⟩ := Add_book_spec h id name author alloc
    exact ⟨s', ns', by simp [State.call, hs', Shelf.call], hR⟩
  | Borrow_book id async alloc =>
    obtain ⟨s', ns', r, hs', hR, hr⟩ := update_book_spec h .Borrow id async alloc
    refine ⟨s', ns', ?_, hR⟩
    simp only [State.call, Borrow_book, hs', Option.map_some, Shelf.call]
    rw [← hr]
    rfl
  | Return_book id async alloc =>
    obtain ⟨s', ns', r, hs', hR, hr⟩ := update_book_spec h .Return id async alloc
    refine ⟨s', ns', ?_, hR⟩
    simp only [State.call, Return_book, hs', Option.map_some, Shelf.call]
    rw [← hr]
    rfl
  | Delete_book id async =>
    obtain ⟨s', ns', hs', hR⟩ := Delete_book_spec h id async
    exact ⟨s', ns', by simp [State.call, hs', Shelf.call], hR⟩
  | Reclaim_callback =>
    obtain ⟨s', hs', hR⟩ := Reclaim_callback_spec h
    exact ⟨s', ns, by simp [State.call, hs', Shelf.call], hR⟩

end Calls

/-! ## Sequences of calls -/

theorem calls_refine (cs : List Call) : ∀ {s : State} {ns : List Nat} {l : Shelf}, Rep s ns l →
    ∃ s' ns', s.calls cs = some (s', (Shelf.calls l cs).2) ∧ Rep s' ns' (Shelf.calls l cs).1 := by
  induction cs with
  | nil => exact fun {s ns l} h => ⟨s, ns, rfl, h⟩
  | cons c cs ih =>
    intro s ns l h
    obtain ⟨s₁, ns₁, hs₁, h₁⟩ := call_refines h c
    obtain ⟨s₂, ns₂, hs₂, h₂⟩ := ih h₁
    exact ⟨s₂, ns₂, by simp [State.calls, hs₁, hs₂, Shelf.calls], h₂⟩

/-- **The module is the shelf.** Any sequence of calls from the empty list runs without a fault and
returns what the shelf returns; the list then prints as the shelf. Every object ever allocated is
live and on the list, once, or was handed over, once: to `call_rcu`, and it is queued, once, and
live, or it has been freed. -/
theorem calls_are_shelf_calls (cs : List Call) :
    ∃ (s : State) (ns : List Nat), State.init.calls cs = some (s, (Shelf.calls [] cs).2) ∧
      List_books s.mem = some (Shelf.calls [] cs).1 ∧
      Ring s.mem .books (ns.map .book) ∧
      ∀ n < s.mem.next,
        ns.count n = 1 ∧ s.handed.count n = 0 ∧ s.callbacks.count n = 0 ∧ (s.mem.heap n).isSome ∨
          ns.count n = 0 ∧ s.handed.count n = 1 ∧
            (s.callbacks.count n = 1 ∧ (s.mem.heap n).isSome ∨
              s.callbacks.count n = 0 ∧ s.mem.heap n = none) := by
  obtain ⟨s, ns, hs, hR⟩ := calls_refine cs Rep.init
  refine ⟨s, ns, hs, hR.lists.List_books_eq hR.length_le, hR.lists.ring, fun n hn => ?_⟩
  have hcustody := hR.custody n hn
  by_cases hmem : n ∈ ns
  · have hcount : ns.count n = 1 := List.count_eq_one_of_mem hR.lists.nodup hmem
    have hqueued : n ∉ s.callbacks := fun hq => hR.not_handed hmem (hR.queued n hq).1
    exact .inl ⟨hcount, by omega, List.count_eq_zero.2 hqueued, hR.lists.live hmem⟩
  · have hzero : ns.count n = 0 := List.count_eq_zero.2 hmem
    have hone : s.handed.count n = 1 := by omega
    refine .inr ⟨hzero, hone, ?_⟩
    by_cases hq : n ∈ s.callbacks
    · exact .inl ⟨List.count_eq_one_of_mem hR.queued_nodup hq, (hR.queued n hq).2⟩
    · refine .inr ⟨List.count_eq_zero.2 hq, ?_⟩
      have hhanded : n ∈ s.handed := List.count_pos_iff.1 (by omega)
      exact Option.not_isSome_iff_eq_none.1 fun hlive => hq (hR.pending n hhanded hlive)

end LinuxKernelProg.Sync.ListRcu
