import LinuxKernelProg.Sync.ListRcu.Shelf

/-!
# The RCU book list: what a reader and an updater say about a book

`Is_borrowed` goes on to the end of the list and returns the flag of the last book with the id, or
what its uninitialised local held; `Borrow_book` and `Return_book` stop at the first one. They
agree on an id exactly when one book on the list has it, or none has it and the local held 0.
-/

namespace LinuxKernelProg.Sync.ListRcu

namespace Shelf

/-- The value the loop of `Is_borrowed` ends with. -/
def lastFlag (id : Int) (l : Shelf) (ret : Int) : Int :=
  l.foldl (fun ret e => isBorrowedBody id e ret) ret

variable {id : Int} {l la lb : Shelf} {e : Entry}

theorem lastFlag_absent (h : ∀ e ∈ l, e.id ≠ id) (ret : Int) : lastFlag id l ret = ret := by
  unfold lastFlag
  induction l with
  | nil => rfl
  | cons e l ih =>
    have he : e.id ≠ id := h e List.mem_cons_self
    simp only [List.foldl_cons, isBorrowedBody, he, if_false]
    exact ih fun x hx => h x (List.mem_cons_of_mem e hx)

/-- A book with the id makes the loop forget what came before. -/
theorem lastFlag_present (h : ∃ e ∈ l, e.id = id) (ret ret' : Int) :
    lastFlag id l ret = lastFlag id l ret' := by
  unfold lastFlag
  induction l generalizing ret ret' with
  | nil => simp at h
  | cons e l ih =>
    simp only [List.foldl_cons]
    by_cases he : e.id = id
    · simp [isBorrowedBody, he]
    · apply ih
      simpa [he] using h

theorem lastFlag_first (hne : ∀ x ∈ la, x.id ≠ id) (hid : e.id = id) (ret : Int) :
    lastFlag id (la ++ e :: lb) ret = lastFlag id lb e.borrow := by
  have := lastFlag_absent hne ret
  unfold lastFlag at this ⊢
  rw [List.foldl_append, this, List.foldl_cons]
  simp [isBorrowedBody, hid]

/-- How many books have the id. -/
def copies (l : Shelf) (id : Int) : Nat := l.countP fun e => e.id = id

theorem copies_eq_zero : copies l id = 0 ↔ ∀ e ∈ l, e.id ≠ id := by
  simp [copies, List.countP_eq_zero]

theorem copies_first (hne : ∀ x ∈ la, x.id ≠ id) (hid : e.id = id) :
    copies (la ++ e :: lb) id = copies lb id + 1 := by
  have : la.countP (fun e => decide (e.id = id)) = 0 := copies_eq_zero.2 hne
  simp [copies, List.countP_append, this, hid]

/-- The first book with an id. -/
theorem exists_first (h : ∃ e ∈ l, e.id = id) :
    ∃ la e lb, l = la ++ e :: lb ∧ (∀ x ∈ la, x.id ≠ id) ∧ e.id = id := by
  induction l with
  | nil => simp at h
  | cons x l ih =>
    by_cases hx : x.id = id
    · exact ⟨[], x, l, rfl, by simp, hx⟩
    · obtain ⟨la, e, lb, rfl, hne, hid⟩ := ih (by simpa [hx] using h)
      exact ⟨x :: la, e, lb, rfl, by simpa using ⟨hx, hne⟩, hid⟩

end Shelf

/-- `Borrow_book(id)` or `Return_book(id)` returns 0, given memory. -/
def Succeeds (u : Update) (s : State) (id : Int) : Prop :=
  ∃ async s', update_book u id async true s = some (s', 0)

/-- The list of the state has no book with the id. -/
def Absent (s : State) (id : Int) : Prop :=
  ∀ l, List_books s.mem = some l → ∀ e ∈ l, e.id ≠ id

/-- Reader and updater agree on the book `id`; `ret` is what the uninitialised local of
`Is_borrowed` holds. -/
structure Agrees (s : State) (id ret : Int) : Prop where
  one_iff : Is_borrowed s.mem id ret = some 1 ↔ Succeeds .Return s id
  zero_iff : Is_borrowed s.mem id ret = some 0 ↔ Succeeds .Borrow s id ∨ Absent s id
  after_borrow : ∀ async alloc s', Borrow_book id async alloc s = some (s', 0) →
    Is_borrowed s'.mem id ret = some 1
  after_return : ∀ async alloc s', Return_book id async alloc s = some (s', 0) →
    Is_borrowed s'.mem id ret = some 0

namespace Rep

variable {s : State} {ns : List Nat} {l : Shelf} {id : Int}

theorem Is_borrowed_eq (h : Rep s ns l) (id ret : Int) :
    Is_borrowed s.mem id ret = some (Shelf.lastFlag id l ret) :=
  h.lists.Is_borrowed_eq h.length_le id ret

theorem absent_iff (h : Rep s ns l) : Absent s id ↔ ∀ e ∈ l, e.id ≠ id := by
  unfold Absent
  rw [h.lists.List_books_eq h.length_le]
  simp

theorem succeeds_iff (h : Rep s ns l) (u : Update) :
    Succeeds u s id ↔ (Shelf.update u.wants u.flag id true l).2 = some 0 := by
  constructor
  · rintro ⟨async, s', hs'⟩
    obtain ⟨s₁, ns₁, r, h₁, -, hr⟩ := update_book_spec h u id async true
    rw [hs', Option.some.injEq, Prod.mk.injEq] at h₁
    rw [hr, ← h₁.2]
  · intro hr
    obtain ⟨s₁, ns₁, r, h₁, -, hr'⟩ := update_book_spec h u id false true
    rw [hr, Option.some.injEq] at hr'
    exact ⟨false, s₁, hr' ▸ h₁⟩

section First

variable {la lb : Shelf} {e : Entry} (hne : ∀ x ∈ la, x.id ≠ id) (hid : e.id = id)
include hne hid

theorem succeeds_first (h : Rep s ns (la ++ e :: lb)) (u : Update) :
    Succeeds u s id ↔ e.borrow = u.wants := by
  rw [h.succeeds_iff]
  simp only [Shelf.update, Shelf.find?_first hne hid, and_true]
  split <;> simp_all

/-- After a successful call the reader sees the new flag, unless a later book has the id. -/
theorem after_first (h : Rep s ns (la ++ e :: lb)) (u : Update) {async alloc : Bool} {s' : State}
    (hs' : update_book u id async alloc s = some (s', 0)) (ret : Int) :
    Is_borrowed s'.mem id ret = some (Shelf.lastFlag id lb u.flag) := by
  obtain ⟨s₁, ns₁, r, h₁, hR, hr⟩ := update_book_spec h u id async alloc
  rw [hs', Option.some.injEq, Prod.mk.injEq] at h₁
  obtain ⟨rfl, rfl⟩ := h₁
  by_cases hok : e.borrow = u.wants ∧ alloc
  · simp only [Shelf.update, Shelf.find?_first hne hid, hok, and_self, if_true,
      Shelf.setFirst_first hne hid] at hR
    rw [hR.Is_borrowed_eq, Shelf.lastFlag_first hne (by simpa using hid)]
  · simp only [Shelf.update, Shelf.find?_first hne hid, hok, if_false] at hr
    simp at hr

end First

/-- No book has the id: both updaters fail and the reader returns what its local held. -/
theorem agrees_absent (h : Rep s ns l) (hne : ∀ e ∈ l, e.id ≠ id) (ret : Int) :
    Agrees s id ret ↔ ret = 0 := by
  have hfail : ∀ u async alloc s', update_book u id async alloc s ≠ some (s', 0) := by
    intro u async alloc s' hs'
    obtain ⟨s₁, ns₁, r, h₁, -, hr⟩ := update_book_spec h u id async alloc
    rw [hs', Option.some.injEq, Prod.mk.injEq] at h₁
    rw [← h₁.2] at hr
    simp [Shelf.update, Shelf.find?_absent hne] at hr
  have hret := h.Is_borrowed_eq id ret
  rw [Shelf.lastFlag_absent hne] at hret
  constructor
  · intro ha
    have := ha.zero_iff.2 (.inr (h.absent_iff.2 hne))
    simpa [hret] using this
  · rintro rfl
    refine ⟨⟨fun h1 => ?_, fun h2 => ?_⟩,
      ⟨fun _ => .inr (h.absent_iff.2 hne), fun _ => hret⟩,
      fun _ _ _ hs' => (hfail _ _ _ _ hs').elim, fun _ _ _ hs' => (hfail _ _ _ _ hs').elim⟩
    · simp [hret] at h1
    · obtain ⟨a, s', hs'⟩ := h2
      exact (hfail _ _ _ _ hs').elim

/-- Some book has the id: reader and updater agree when no other one has it. -/
theorem agrees_present {la lb : Shelf} {e : Entry} (h : Rep s ns (la ++ e :: lb))
    (hne : ∀ x ∈ la, x.id ≠ id) (hid : e.id = id) (ret : Int) :
    Agrees s id ret ↔ ∀ x ∈ lb, x.id ≠ id := by
  have hret := h.Is_borrowed_eq id ret
  rw [Shelf.lastFlag_first hne hid] at hret
  have hpresent : ¬ Absent s id := fun ha => h.absent_iff.1 ha e (by simp) hid
  have hflag := h.flags e (by simp)
  constructor
  · intro ha
    by_contra hlb
    have hlb' : ∃ x ∈ lb, x.id = id := by
      simpa using hlb
    -- the flag the reader returns comes from `lb`, before and after the successful call
    rcases hflag with he | he
    · have hS : Succeeds .Borrow s id := (succeeds_first hne hid h .Borrow).2 he
      have h0 := ha.zero_iff.2 (.inl hS)
      obtain ⟨async, s', hs'⟩ := hS
      have h1 := ha.after_borrow async true s' hs'
      rw [after_first hne hid h .Borrow hs', Shelf.lastFlag_present hlb' _ e.borrow] at h1
      rw [hret] at h0
      simp_all
    · have hS : Succeeds .Return s id := (succeeds_first hne hid h .Return).2 he
      have h1 := ha.one_iff.2 hS
      obtain ⟨async, s', hs'⟩ := hS
      have h0 := ha.after_return async true s' hs'
      rw [after_first hne hid h .Return hs', Shelf.lastFlag_present hlb' _ e.borrow] at h0
      rw [hret] at h1
      simp_all
  · intro hlb
    rw [Shelf.lastFlag_absent hlb] at hret
    refine ⟨?_, ?_, fun async alloc s' hs' => ?_, fun async alloc s' hs' => ?_⟩
    · rw [hret, succeeds_first hne hid h]
      simp [Update.wants]
    · rw [hret, succeeds_first hne hid h]
      simp [Update.wants, hpresent]
    · rw [after_first hne hid h .Borrow hs', Shelf.lastFlag_absent hlb]
      rfl
    · rw [after_first hne hid h .Return hs', Shelf.lastFlag_absent hlb]
      rfl

end Rep

/-- **When reader and updater agree.** In every state that calls lead to, they agree on an id
exactly when one book on the list has it, or none has it and the uninitialised local held 0. -/
theorem agrees_iff (cs : List Call) :
    ∃ s rs l, State.init.calls cs = some (s, rs) ∧ List_books s.mem = some l ∧
      ∀ id ret, Agrees s id ret ↔
        Shelf.copies l id = 1 ∨ Shelf.copies l id = 0 ∧ ret = 0 := by
  obtain ⟨s, ns, hs, hR⟩ := calls_refine cs Rep.init
  refine ⟨s, _, _, hs, hR.lists.List_books_eq hR.length_le, fun id ret => ?_⟩
  generalize (Shelf.calls [] cs).1 = l at hR
  by_cases hp : ∃ e ∈ l, e.id = id
  · obtain ⟨la, e, lb, rfl, hne, hid⟩ := Shelf.exists_first hp
    rw [hR.agrees_present hne hid, ← Shelf.copies_eq_zero, Shelf.copies_first hne hid]
    omega
  · have hne : ∀ e ∈ l, e.id ≠ id := by simpa using hp
    rw [hR.agrees_absent hne, Shelf.copies_eq_zero.2 hne]
    omega

/-- Two books with the id 7, the one added last is borrowed: `Is_borrowed(7)` is 0 right after
`Borrow_book(7)` returned 0, and `Return_book(7)` would succeed. -/
theorem borrowed_book_shadowed :
    ¬ ∀ (cs : List Call) (s : State) (rs : List (Option Int)),
      State.init.calls cs = some (s, rs) → ∀ id ret, Agrees s id ret := by
  intro h
  have ha := h [.Add_book 7 ⟨[65], by decide⟩ ⟨[66], by decide⟩ true,
    .Add_book 7 ⟨[67], by decide⟩ ⟨[68], by decide⟩ true, .Borrow_book 7 false true] _ _ rfl 7 0
  have h1 := ha.one_iff.2 ⟨false, _, rfl⟩
  exact absurd h1 (by decide)

end LinuxKernelProg.Sync.ListRcu
