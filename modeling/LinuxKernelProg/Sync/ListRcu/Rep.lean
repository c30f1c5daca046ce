import LinuxKernelProg.Sync.ListRcu.Basic

/-!
# The RCU book list: representation and scans

`Lists m ns l` says that the memory `m` holds the list with the objects `ns` and the data `l`.
The list primitives are specified over it (`Lists.add`, `Lists.replace`, `Lists.del`), and so are
the scans (`lookup_spec`, `find_book_spec`, `List_books_eq`, `Is_borrowed_eq`).
-/

namespace LinuxKernelProg.Sync.ListRcu

open LinuxKernelProg.Lib LinkMem

namespace Mem

@[simp] theorem link_books (m : Mem) : LinkMem.link m .books = some m.books := rfl

@[simp] theorem link_book (m : Mem) (n : Nat) :
    LinkMem.link m (.book n) = (m.heap n).map Book.node := rfl

theorem isSome_link_book (m : Mem) (n : Nat) :
    (LinkMem.link m (.book n)).isSome = (m.heap n).isSome := by simp

theorem isSome_entry (m : Mem) (n : Nat) : (m.entry n).isSome = (m.heap n).isSome := by
  simp [entry]

end Mem

/-! ## Fresh objects -/

section Alloc

variable (m : Mem) (b : Book)

theorem heap_alloc (n : Nat) :
    (m.alloc b).heap n = if n = m.next then some b else m.heap n := by
  simp [Mem.alloc, Function.update_apply]

theorem entry_alloc (n : Nat) :
    (m.alloc b).entry n = if n = m.next then some b.toEntry else m.entry n := by
  unfold Mem.entry
  rw [heap_alloc]
  split <;> rfl

@[simp] theorem next_alloc : (m.alloc b).next = m.next + 1 := rfl

theorem fill_book_kzalloc (id : Int) (name author : CString) :
    ∃ nd, fill_book (kzalloc m).1 m.next id name author =
      m.alloc ⟨⟨id, strncpy name, strncpy author, 0⟩, nd⟩ := by
  refine ⟨⟨.null, .null⟩, ?_⟩
  simp [fill_book, kzalloc, Mem.alloc]

variable {m b}

theorem copy_book_kzalloc (u : Update) {old : Nat} (h : m.heap old = some b)
    (hlt : old ≠ m.next) :
    copy_book u (kzalloc m).1 old m.next = some (m.alloc { b with borrow := u.flag }) := by
  simp [copy_book, kzalloc, Mem.alloc, Function.update_of_ne hlt, h]

end Alloc

/-! ## Lists in memory -/

/-- The list primitives change no data member and allocate nothing. -/
def SameData (m m' : Mem) : Prop := m'.next = m.next ∧ ∀ n, m'.entry n = m.entry n

theorem sameData_frame : Frame SameData where
  refl _ := ⟨rfl, fun _ => rfl⟩
  trans h₁ h₂ := ⟨h₂.1.trans h₁.1, fun n => (h₂.2 n).trans (h₁.2 n)⟩
  store := by
    intro m a l h
    cases a with
    | books => exact ⟨rfl, fun _ => rfl⟩
    | poison => exact ⟨rfl, fun _ => rfl⟩
    | null => exact ⟨rfl, fun _ => rfl⟩
    | book n =>
      refine ⟨rfl, fun k => ?_⟩
      simp only [Mem.entry, LinkMem.setLink, Mem.setLink, Function.update_apply]
      split
      · rename_i e
        subst e
        simp [Function.comp_def]
      · rfl

theorem SameData.isSome {m m' : Mem} (h : SameData m m') (n : Nat) :
    (m'.heap n).isSome = (m.heap n).isSome := by
  rw [← Mem.isSome_entry, ← Mem.isSome_entry, h.2]

/-- `m` holds the list of the objects `ns`, with the data `l`. -/
structure Lists (m : Mem) (ns : List Nat) (l : List Entry) : Prop where
  ring : Ring m .books (ns.map .book)
  data : ns.map m.entry = l.map some

theorem not_mem_cells {n : Nat} {ns : List Nat} (h : n ∉ ns) :
    Ref.book n ∉ Ref.books :: ns.map .book := by simpa using h

theorem heap_eq_of_link {m m' : Mem} {n : Nat} (hd : m'.entry n = m.entry n)
    (hl : LinkMem.link m' (.book n) = LinkMem.link m (.book n)) : m'.heap n = m.heap n := by
  simp only [Mem.entry, Mem.link_book] at hd hl
  cases h : m.heap n <;> cases h' : m'.heap n <;> simp only [h, h', Option.map_none,
    Option.map_some, reduceCtorEq, Option.some.injEq] at hd hl
  · rfl
  · rename_i b b'
    cases b; cases b'
    simp only at hd hl
    rw [hd, hl]

namespace Lists

variable {m : Mem} {ns as bs : List Nat} {l la lb : List Entry}

theorem nodup (h : Lists m ns l) : ns.Nodup :=
  (List.nodup_cons.1 h.ring.nodup).2.of_map _

theorem live (h : Lists m ns l) {n : Nat} (hn : n ∈ ns) : (m.heap n).isSome := by
  rw [← Mem.isSome_link_book]
  exact h.ring.live _ (List.mem_cons_of_mem _ (List.mem_map_of_mem hn))

theorem length_eq (h : Lists m ns l) : ns.length = l.length := by
  simpa using congrArg List.length h.data

/-- A memory that agrees on the list has the same list. -/
theorem congr {m' : Mem} (h : Lists m ns l) (hb : m'.books = m.books)
    (hn : ∀ n ∈ ns, m'.heap n = m.heap n) : Lists m' ns l := by
  refine ⟨h.ring.congr ?_, ?_⟩
  · intro c hc
    rcases List.mem_cons.1 hc with rfl | hc
    · simp [hb]
    · obtain ⟨n, hn', rfl⟩ := List.mem_map.1 hc
      simp [hn n hn']
  · rw [← h.data]
    exact List.map_congr_left fun n hn' => by simp [Mem.entry, hn n hn']

/-- A fresh object is on no list. -/
theorem alloc (h : Lists m ns l) (hn : m.next ∉ ns) (b : Book) : Lists (m.alloc b) ns l := by
  refine h.congr rfl fun n hn' => ?_
  have hne : n ≠ m.next := fun e => hn (e ▸ hn')
  rw [heap_alloc, if_neg hne]

theorem kfree {n : Nat} (h : Lists m ns l) (hn : n ∉ ns) (hl : (m.heap n).isSome) :
    ∃ m', ListRcu.kfree m n = some m' ∧ Lists m' ns l ∧ m'.next = m.next ∧
      ∀ k, m'.heap k = if k = n then none else m.heap k := by
  obtain ⟨b, hb⟩ := Option.isSome_iff_exists.1 hl
  refine ⟨{ m with heap := Function.update m.heap n none }, by simp [ListRcu.kfree, hb], ?_, rfl,
    fun k => Function.update_apply ..⟩
  exact h.congr rfl fun k hk => Function.update_of_ne (fun e => hn (by rw [← e]; exact hk)) ..

theorem init : Lists Mem.init [] [] :=
  ⟨⟨by simp, rfl, rfl⟩, rfl⟩

/-! ## The list primitives -/

/-- `list_add_rcu` puts a live object that is not on the list at its head. -/
theorem add {n : Nat} {e : Entry} (h : Lists m ns l) (hn : n ∉ ns) (he : m.entry n = some e) :
    ∃ m', list_add_rcu m n = some m' ∧ Lists m' (n :: ns) (e :: l) ∧ SameData m m' ∧
      ∀ k, k ∉ ns → k ≠ n → m'.heap k = m.heap k := by
  have hl : (LinkMem.link m (.book n)).isSome := by
    rw [Mem.isSome_link_book, ← Mem.isSome_entry, he]
    rfl
  obtain ⟨m', hm', hr, -, ho⟩ := h.ring.insertAfter_spec (not_mem_cells hn) hl
  have hd : SameData m m' := sameData_frame.insertAfter hm'
  refine ⟨m', hm', ⟨hr, ?_⟩, hd, fun k hk hkn => ?_⟩
  · rw [List.map_cons, hd.2, he, List.map_congr_left fun k _ => hd.2 k, h.data, List.map_cons]
  · exact heap_eq_of_link (hd.2 k) (ho _ (not_mem_cells hk) (by simpa using hkn))

/-- `list_replace_rcu` puts a live object that is not on the list into the place of `old`; the
unlinked `old` keeps its `next` pointer. -/
theorem replace {old new : Nat} {e : Entry} (h : Lists m (as ++ old :: bs) l)
    (hnew : new ∉ as ++ old :: bs) (he : m.entry new = some e) :
    ∃ m', list_replace_rcu m old new = some m' ∧
      Ring m' .books ((as ++ new :: bs).map .book) ∧ SameData m m' ∧
      (∀ k, k ∉ as ++ old :: bs → k ≠ new → m'.heap k = m.heap k) ∧
      LinkMem.link m' (.book old) = some ⟨first (bs.map .book) .books, .poison⟩ := by
  have hr : Ring m .books (as.map .book ++ .book old :: bs.map .book) := by
    simpa using h.ring
  have hl : (LinkMem.link m (.book new)).isSome := by
    rw [Mem.isSome_link_book, ← Mem.isSome_entry, he]
    rfl
  have hnew' : Ref.book new ∉ Ref.books :: (as.map .book ++ .book old :: bs.map .book) := by
    simpa using hnew
  obtain ⟨m', hm', hr', -, ho, hold⟩ := hr.replaceCell_spec .poison hnew' hl
  have hd : SameData m m' := sameData_frame.replaceCell hm'
  refine ⟨m', hm', by simpa using hr', hd, fun k hk hkn => ?_, hold⟩
  exact heap_eq_of_link (hd.2 k) (ho _ (by simpa using hk) (by simpa using hkn))

/-- `list_del_rcu` takes an object out of the list; it keeps its `next` pointer. -/
theorem del {n : Nat} (h : Lists m (as ++ n :: bs) l) :
    ∃ m', list_del_rcu m n = some m' ∧ Ring m' .books ((as ++ bs).map .book) ∧ SameData m m' ∧
      (∀ k, k ∉ as ++ n :: bs → m'.heap k = m.heap k) ∧
      LinkMem.link m' (.book n) = some ⟨first (bs.map .book) .books, .poison⟩ := by
  have hr : Ring m .books (as.map .book ++ .book n :: bs.map .book) := by
    simpa using h.ring
  obtain ⟨m', hm', hr', -, ho, hold⟩ := hr.removeCell_spec .poison
  have hd : SameData m m' := sameData_frame.removeCell hm'
  refine ⟨m', hm', by simpa using hr', hd, fun k hk => ?_, hold⟩
  exact heap_eq_of_link (hd.2 k) (ho _ (by simpa using hk))

end Lists

/-! ## The scans -/

/-- `n` with the data `e` is the first object of the list with the id. -/
structure First (m : Mem) (id : Int) (ns : List Nat) (l : List Entry) (as : List Nat)
    (n : Nat) (bs : List Nat) (la : List Entry) (e : Entry) (lb : List Entry) : Prop where
  nodes : ns = as ++ n :: bs
  list : l = la ++ e :: lb
  before : as.map m.entry = la.map some
  entry : m.entry n = some e
  after : bs.map m.entry = lb.map some
  ne : ∀ x ∈ la, x.id ≠ id
  id_eq : e.id = id

/-- What a loop reads at the cell of a live object of the list. -/
theorem Seg.book {m : Mem} {n : Nat} {ns : List Nat}
    (h : Seg m (.book n) (ns.map .book) .books) :
    ∃ b, m.heap n = some b ∧ b.node.next = first (ns.map .book) .books := by
  have := h.nextOf_left
  simp only [nextOf, Mem.link_book, Option.map_map, Option.map_eq_some_iff,
    Function.comp_apply] at this
  exact this

/-- A loop at a book of the list: its body decides whether the loop goes on to the rest. -/
theorem for_each_cons {β : Type} {m : Mem} {n : Nat} {ns : List Nat} {a : Ref} {l : List Entry}
    (hs : Seg m a ((n :: ns).map .book) .books) (hd : (n :: ns).map m.entry = l.map some) :
    ∃ b l', m.heap n = some b ∧ l = b.toEntry :: l' ∧ ns.map m.entry = l'.map some ∧
      ∀ (body : Nat → Book → β → ForInStep β) (fuel : Nat) (x : β),
        list_for_each_entry m body (fuel + 1) (first ((n :: ns).map .book) .books) x =
          match body n b x with
          | .done y => some y
          | .yield y => list_for_each_entry m body fuel (first (ns.map .book) .books) y := by
  cases l with
  | nil => simp at hd
  | cons e l =>
    simp only [List.map_cons, List.cons.injEq] at hd
    obtain ⟨b, hb, hnext⟩ := Seg.book hs.2
    have he : b.toEntry = e := by simpa [Mem.entry, hb] using hd.1
    refine ⟨b, l, hb, he ▸ rfl, hd.2, fun body fuel x => ?_⟩
    simp only [List.map_cons, first, List.head?_cons, Option.getD_some, list_for_each_entry, hb,
      Option.bind_eq_bind, Option.bind_some]
    rw [hnext]
    rfl

/-- A loop that only accumulates goes through the whole list. -/
theorem for_each_yield {β : Type} {m : Mem} (f : Nat → Entry → β → β) {ns : List Nat} :
    ∀ {a : Ref} {l : List Entry} {fuel : Nat} (x : β), Seg m a (ns.map .book) .books →
      ns.map m.entry = l.map some → ns.length < fuel →
      list_for_each_entry m (fun n b x => .yield (f n b.toEntry x)) fuel
        (first (ns.map .book) .books) x = some ((ns.zip l).foldl (fun x p => f p.1 p.2 x) x) := by
  induction ns with
  | nil =>
    intro a l fuel x _ hd hf
    obtain ⟨k, rfl⟩ := Nat.exists_eq_succ_of_ne_zero (Nat.ne_of_gt hf)
    rfl
  | cons n ns ih =>
    intro a l fuel x hs hd hf
    obtain ⟨k, rfl⟩ := Nat.exists_eq_succ_of_ne_zero (Nat.ne_zero_of_lt hf)
    obtain ⟨b, l', -, rfl, hd', hstep⟩ := for_each_cons hs hd
    rw [hstep, List.zip_cons_cons, List.foldl_cons]
    exact ih (f n b.toEntry x) hs.2 hd' (Nat.lt_of_succ_lt_succ hf)

/-- A loop that leaves at the first book with the id stops there, or ends with what it started
from when no book has the id. -/
theorem for_each_first {β : Type} {m : Mem} (id : Int) (hit : Nat → Book → β) {ns : List Nat} :
    ∀ {a : Ref} {l : List Entry} {fuel : Nat} (x : β), Seg m a (ns.map .book) .books →
      ns.map m.entry = l.map some → ns.length < fuel →
      (list_for_each_entry m (fun n b x => if b.id = id then .done (hit n b) else .yield x) fuel
          (first (ns.map .book) .books) x = some x ∧ ∀ e ∈ l, e.id ≠ id) ∨
      ∃ as n bs la e lb b, First m id ns l as n bs la e lb ∧ m.heap n = some b ∧ b.toEntry = e ∧
        list_for_each_entry m (fun n b x => if b.id = id then .done (hit n b) else .yield x) fuel
          (first (ns.map .book) .books) x = some (hit n b) := by
  induction ns with
  | nil =>
    intro a l fuel x _ hd hf
    obtain ⟨k, rfl⟩ := Nat.exists_eq_succ_of_ne_zero (Nat.ne_of_gt hf)
    cases l with
    | nil => exact .inl ⟨rfl, by simp⟩
    | cons e l => simp at hd
  | cons n ns ih =>
    intro a l fuel x hs hd hf
    obtain ⟨k, rfl⟩ := Nat.exists_eq_succ_of_ne_zero (Nat.ne_zero_of_lt hf)
    obtain ⟨b, l', hb, rfl, hd', hstep⟩ := for_each_cons hs hd
    have hn : m.entry n = some b.toEntry := by simp [Mem.entry, hb]
    rw [hstep]
    by_cases hid : b.id = id
    · right
      refine ⟨[], n, ns, [], b.toEntry, l', b, ⟨rfl, rfl, rfl, hn, hd', by simp, hid⟩, hb, rfl, ?_⟩
      rw [if_pos hid]
    · rw [if_neg hid]
      rcases ih x hs.2 hd' (Nat.lt_of_succ_lt_succ hf) with ⟨hr, hne⟩ |
        ⟨as, c, bs, la, d, lb, b', hF, hb', hd', hr⟩
      · exact .inl ⟨hr, by simpa using ⟨hid, hne⟩⟩
      · right
        refine ⟨n :: as, c, bs, b.toEntry :: la, d, lb, b', ?_, hb', hd', hr⟩
        exact ⟨by simp [hF.nodes], by simp [hF.list], by simp [hF.before, hn], hF.entry,
          hF.after, by simpa using ⟨hid, hF.ne⟩, hF.id_eq⟩

namespace Lists

variable {m : Mem} {ns : List Nat} {l : List Entry}

theorem books_next (h : Lists m ns l) : m.books.next = first (ns.map .book) .books := by
  simpa [nextOf] using h.ring.seg.nextOf_left

/-- The scan of `Borrow_book` and `Return_book` decides on the first book with the id. -/
theorem lookup_spec (h : Lists m ns l) (hf : ns.length ≤ m.next) (u : Update) (id : Int) :
    (lookup u m id = some .absent ∧ ∀ e ∈ l, e.id ≠ id) ∨
      ∃ as n bs la e lb, First m id ns l as n bs la e lb ∧
        lookup u m id = some (if u.refuses e then .refused else .found n) := by
  unfold lookup
  rw [h.books_next]
  rcases for_each_first id (fun n b => if u.refuses b.toEntry then .refused else .found n)
    Lookup.absent h.ring.seg h.data (Nat.lt_succ_of_le hf) with hr | ⟨as, n, bs, la, e,
      lb, b, hF, -, he, hr⟩
  · exact .inl hr
  · exact .inr ⟨as, n, bs, la, e, lb, hF, he ▸ hr⟩

theorem find_book_spec (h : Lists m ns l) (hf : ns.length ≤ m.next) (id : Int) :
    (find_book m id = some none ∧ ∀ e ∈ l, e.id ≠ id) ∨
      ∃ as n bs la e lb, First m id ns l as n bs la e lb ∧
        find_book m id = some (some n) := by
  unfold find_book
  rw [h.books_next]
  rcases for_each_first id (fun n _ => some n) none h.ring.seg h.data
    (Nat.lt_succ_of_le hf) with hr |
    ⟨as, n, bs, la, e, lb, b, hF, -, -, hr⟩
  · exact .inl hr
  · exact .inr ⟨as, n, bs, la, e, lb, hF, hr⟩

/-- `List_books` prints the data of the list, in its order. -/
theorem List_books_eq (h : Lists m ns l) (hf : ns.length ≤ m.next) : List_books m = some l := by
  unfold List_books
  rw [h.books_next, for_each_yield (fun _ e out => out ++ [e]) [] h.ring.seg h.data
    (Nat.lt_succ_of_le hf)]
  have hz : (ns.zip l).map Prod.snd = l := List.map_snd_zip (Nat.le_of_eq h.length_eq.symm)
  rw [← List.foldl_map (g := fun out e => out ++ [e]) (f := Prod.snd), hz]
  simp [List.foldl_append_eq_append, ← List.flatMap_def]

/-- `Is_borrowed` returns the flag of the last book with the id. -/
theorem Is_borrowed_eq (h : Lists m ns l) (hf : ns.length ≤ m.next) (id ret : Int) :
    Is_borrowed m id ret = some (l.foldl (fun ret e => isBorrowedBody id e ret) ret) := by
  unfold Is_borrowed
  rw [h.books_next, for_each_yield (fun _ => isBorrowedBody id) ret h.ring.seg h.data
    (Nat.lt_succ_of_le hf)]
  have hz : (ns.zip l).map Prod.snd = l := List.map_snd_zip (Nat.le_of_eq h.length_eq.symm)
  rw [← List.foldl_map (g := fun ret e => isBorrowedBody id e ret) (f := Prod.snd), hz]

end Lists

end LinuxKernelProg.Sync.ListRcu
