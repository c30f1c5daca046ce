import Mathlib.Data.List.Nodup

/-!
# Circular doubly linked lists in a memory of cells

A memory `M` with cells at addresses `α` gives a `next` and a `prev` pointer for every live
cell. The operations are the intrusive-list operations a head cell and its entries are linked
with: insertion after a cell, replacement of a cell by a fresh one, and removal. `Ring m h xs`
says that the cells `xs` form, in this order, the circular list whose head cell is `h`; every
operation is specified by the ring before and after, by the cells it leaves alone, and by the
fact that a removed or replaced cell keeps its `next` pointer.
-/

namespace LinuxKernelProg.Lib

/-- The two pointers of a list cell. -/
structure Link (α : Type) where
  next : α
  prev : α
deriving DecidableEq

/-- A memory whose cells at `α` can be read and, where they are live, written. -/
class LinkMem (M : Type) (α : outParam Type) [outParam (DecidableEq α)] where
  /-- The cell at an address, `none` where no cell is live. -/
  link : M → α → Option (Link α)
  setLink : M → α → Link α → M
  link_setLink : ∀ {m : M} {a : α}, (link m a).isSome → ∀ (l : Link α) (b : α),
    link (setLink m a l) b = if b = a then some l else link m b

namespace LinkMem

variable {M α : Type} [DecidableEq α] [LinkMem M α]

/-- The `next` pointer of a live cell. -/
def nextOf (m : M) (a : α) : Option α := (link m a).map Link.next

/-- The `prev` pointer of a live cell. -/
def prevOf (m : M) (a : α) : Option α := (link m a).map Link.prev

/-! ## Stores to one pointer -/

def setNext (m : M) (a v : α) : Option M :=
  (link m a).map fun l => setLink m a { l with next := v }

def setPrev (m : M) (a v : α) : Option M :=
  (link m a).map fun l => setLink m a { l with prev := v }

theorem live_of_nextOf {m : M} {a b : α} (h : nextOf m a = some b) : (link m a).isSome := by
  unfold nextOf at h
  obtain ⟨l, hl, -⟩ := Option.map_eq_some_iff.1 h
  simp [hl]

theorem live_of_prevOf {m : M} {a b : α} (h : prevOf m a = some b) : (link m a).isSome := by
  unfold prevOf at h
  obtain ⟨l, hl, -⟩ := Option.map_eq_some_iff.1 h
  simp [hl]

/-- A cell is its two pointers. -/
theorem link_of_pointers {m : M} {a n p : α} (hn : nextOf m a = some n)
    (hp : prevOf m a = some p) : link m a = some ⟨n, p⟩ := by
  obtain ⟨l, hl⟩ := Option.isSome_iff_exists.1 (live_of_nextOf hn)
  cases l
  simp only [nextOf, prevOf, hl, Option.map_some, Option.some.injEq] at hn hp
  rw [hl, hn, hp]

/-- A cell is known by its two pointers. -/
theorem link_eq_of {m m' : M} {a : α} (hn : nextOf m' a = nextOf m a)
    (hp : prevOf m' a = prevOf m a) : link m' a = link m a := by
  unfold nextOf at hn
  unfold prevOf at hp
  cases h : link m a <;> cases h' : link m' a <;> simp only [h, h', Option.map_none,
    Option.map_some, reduceCtorEq, Option.some.injEq] at hn hp
  · rfl
  · rename_i l l'
    cases l; cases l'
    simp only at hn hp
    rw [hn, hp]

theorem setNext_spec {m : M} {a : α} (h : (link m a).isSome) (v : α) :
    ∃ m', setNext m a v = some m' ∧ (∀ b, (link m' b).isSome = (link m b).isSome) ∧
      (∀ b, nextOf m' b = if b = a then some v else nextOf m b) ∧
      (∀ b, prevOf m' b = prevOf m b) := by
  obtain ⟨l, hl⟩ := Option.isSome_iff_exists.1 h
  have hs := link_setLink h { l with next := v }
  refine ⟨setLink m a { l with next := v }, by simp [setNext, hl], ?_, ?_, ?_⟩ <;> intro b
  · rw [hs b]; split <;> simp_all
  · unfold nextOf; rw [hs b]; split <;> rfl
  · unfold prevOf; rw [hs b]; split <;> simp_all

theorem setPrev_spec {m : M} {a : α} (h : (link m a).isSome) (v : α) :
    ∃ m', setPrev m a v = some m' ∧ (∀ b, (link m' b).isSome = (link m b).isSome) ∧
      (∀ b, nextOf m' b = nextOf m b) ∧
      (∀ b, prevOf m' b = if b = a then some v else prevOf m b) := by
  obtain ⟨l, hl⟩ := Option.isSome_iff_exists.1 h
  have hs := link_setLink h { l with prev := v }
  refine ⟨setLink m a { l with prev := v }, by simp [setPrev, hl], ?_, ?_, ?_⟩ <;> intro b
  · rw [hs b]; split <;> simp_all
  · unfold nextOf; rw [hs b]; split <;> simp_all
  · unfold prevOf; rw [hs b]; split <;> rfl

/-- What a store to a `next` pointer that goes through does. -/
theorem of_setNext {m m' : M} {a v : α} (h : setNext m a v = some m') :
    (∀ b, nextOf m' b = if b = a then some v else nextOf m b) ∧ (∀ b, prevOf m' b = prevOf m b) ∧
      ∀ b, b ≠ a → link m' b = link m b := by
  obtain ⟨l, hl, -⟩ := Option.map_eq_some_iff.1 h
  obtain ⟨m'', e, -, hn, hp⟩ := setNext_spec (Option.isSome_iff_exists.2 ⟨l, hl⟩) v
  obtain rfl := Option.some.inj (e.symm.trans h)
  exact ⟨hn, hp, fun b hb => link_eq_of (by rw [hn, if_neg hb]) (hp b)⟩

theorem of_setPrev {m m' : M} {a v : α} (h : setPrev m a v = some m') :
    (∀ b, nextOf m' b = nextOf m b) ∧ (∀ b, prevOf m' b = if b = a then some v else prevOf m b) ∧
      ∀ b, b ≠ a → link m' b = link m b := by
  obtain ⟨l, hl, -⟩ := Option.map_eq_some_iff.1 h
  obtain ⟨m'', e, -, hn, hp⟩ := setPrev_spec (Option.isSome_iff_exists.2 ⟨l, hl⟩) v
  obtain rfl := Option.some.inj (e.symm.trans h)
  exact ⟨hn, hp, fun b hb => link_eq_of (hn b) (by rw [hp, if_neg hb])⟩

/-! ## The list operations -/

/-- Links the cell `new` in between `head` and the cell after it. -/
def insertAfter (m : M) (new head : α) : Option M := do
  let h ← link m head
  let m ← setNext m new h.next
  let m ← setPrev m new head
  let m ← setNext m head new
  setPrev m h.next new

/-- Puts `new` in the place of `old`; `old` keeps its `next` pointer and its `prev` pointer
becomes `poison`. -/
def replaceCell (m : M) (old new poison : α) : Option M := do
  let o ← link m old
  let m ← setNext m new o.next
  let m ← setPrev m new o.prev
  let m ← setNext m o.prev new
  let m ← setPrev m o.next new
  setPrev m old poison

/-- Takes `a` out of its list; `a` keeps its `next` pointer and its `prev` pointer becomes
`poison`. -/
def removeCell (m : M) (a poison : α) : Option M := do
  let l ← link m a
  let m ← setPrev m l.next l.prev
  let m ← setNext m l.prev l.next
  setPrev m a poison

/-- What single stores keep, the operations keep: a rule for the parts of the memory that are
not list cells. -/
structure Frame (R : M → M → Prop) : Prop where
  refl : ∀ m, R m m
  trans : ∀ {a b c}, R a b → R b c → R a c
  store : ∀ m a l, (link m a).isSome → R m (setLink m a l)

namespace Frame

variable {R : M → M → Prop} (hR : Frame R)
include hR

theorem setNext {m m' : M} {a v : α} (h : LinkMem.setNext m a v = some m') : R m m' := by
  obtain ⟨l, hl, rfl⟩ := Option.map_eq_some_iff.1 h
  exact hR.store m a _ (by simp [hl])

theorem setPrev {m m' : M} {a v : α} (h : LinkMem.setPrev m a v = some m') : R m m' := by
  obtain ⟨l, hl, rfl⟩ := Option.map_eq_some_iff.1 h
  exact hR.store m a _ (by simp [hl])

theorem insertAfter {m m' : M} {new head : α} (h : LinkMem.insertAfter m new head = some m') :
    R m m' := by
  simp only [LinkMem.insertAfter, Option.bind_eq_bind, Option.bind_eq_some_iff] at h
  obtain ⟨l, -, m₁, h₁, m₂, h₂, m₃, h₃, h₄⟩ := h
  exact hR.trans (hR.setNext h₁) (hR.trans (hR.setPrev h₂) (hR.trans (hR.setNext h₃)
    (hR.setPrev h₄)))

theorem replaceCell {m m' : M} {old new poison : α}
    (h : LinkMem.replaceCell m old new poison = some m') : R m m' := by
  simp only [LinkMem.replaceCell, Option.bind_eq_bind, Option.bind_eq_some_iff] at h
  obtain ⟨l, -, m₁, h₁, m₂, h₂, m₃, h₃, m₄, h₄, h₅⟩ := h
  exact hR.trans (hR.setNext h₁) (hR.trans (hR.setPrev h₂) (hR.trans (hR.setNext h₃)
    (hR.trans (hR.setPrev h₄) (hR.setPrev h₅))))

theorem removeCell {m m' : M} {a poison : α} (h : LinkMem.removeCell m a poison = some m') :
    R m m' := by
  simp only [LinkMem.removeCell, Option.bind_eq_bind, Option.bind_eq_some_iff] at h
  obtain ⟨l, -, m₁, h₁, m₂, h₂, h₃⟩ := h
  exact hR.trans (hR.setPrev h₁) (hR.trans (hR.setNext h₂) (hR.setPrev h₃))

end Frame

/-! ## Segments -/

/-- `a` and `b` point at each other. -/
def Joined (m : M) (a b : α) : Prop := nextOf m a = some b ∧ prevOf m b = some a

/-- The cells `xs` lead from `a` to `b` by `next` pointers and back by `prev` pointers. -/
def Seg (m : M) : α → List α → α → Prop
  | a, [], b => Joined m a b
  | a, x :: xs, b => Joined m a x ∧ Seg m x xs b

/-- The cell after `a` on the segment from `a` over `xs` to `b`. -/
def first (xs : List α) (b : α) : α := xs.head?.getD b

/-- The cell before `b` on the segment from `a` over `xs` to `b`. -/
def last (a : α) : List α → α
  | [] => a
  | x :: xs => last x xs

omit [DecidableEq α] in
theorem last_mem (a : α) : ∀ xs : List α, last a xs ∈ a :: xs
  | [] => List.mem_singleton_self a
  | x :: xs => List.mem_cons_of_mem a (last_mem x xs)

namespace Seg

variable {m m' : M}

theorem append {a b x : α} {xs ys : List α} :
    Seg m a (xs ++ x :: ys) b ↔ Seg m a xs x ∧ Seg m x ys b := by
  induction xs generalizing a with
  | nil => rfl
  | cons y xs ih => simp only [List.cons_append, Seg, ih, and_assoc]

theorem nextOf_left {a b : α} {xs : List α} (h : Seg m a xs b) :
    nextOf m a = some (first xs b) := by
  cases xs with
  | nil => exact h.1
  | cons x xs => exact h.1.1

theorem prevOf_right {a b : α} {xs : List α} (h : Seg m a xs b) :
    prevOf m b = some (last a xs) := by
  induction xs generalizing a with
  | nil => exact h.2
  | cons x xs ih => exact ih h.2

/-- Every cell a segment starts from or passes is live, and so is its end. -/
theorem live {a b : α} {xs : List α} (h : Seg m a xs b) :
    ∀ c ∈ a :: (xs ++ [b]), (link m c).isSome := by
  induction xs generalizing a with
  | nil =>
    intro c hc
    simp only [List.nil_append, List.mem_cons, List.not_mem_nil, or_false] at hc
    rcases hc with rfl | rfl
    · exact live_of_nextOf h.1
    · exact live_of_prevOf h.2
  | cons x xs ih =>
    intro c hc
    rcases List.mem_cons.1 hc with rfl | hc
    · exact live_of_nextOf h.1.1
    · exact ih h.2 c hc

/-- A segment reads the `next` pointers of all its cells but the end, and the `prev` pointers of
all but the start. -/
theorem congr {a b : α} {xs : List α} (h : Seg m a xs b)
    (hn : ∀ c ∈ a :: xs, nextOf m' c = nextOf m c)
    (hp : ∀ c ∈ xs ++ [b], prevOf m' c = prevOf m c) : Seg m' a xs b := by
  induction xs generalizing a with
  | nil => exact ⟨(hn a (by simp)).trans h.1, (hp b (by simp)).trans h.2⟩
  | cons x xs ih =>
    refine ⟨⟨(hn a (by simp)).trans h.1.1, (hp x (by simp)).trans h.1.2⟩, ih h.2 ?_ ?_⟩
    · exact fun c hc => hn c (List.mem_cons_of_mem a hc)
    · exact fun c hc => hp c (List.mem_cons_of_mem x hc)

/-- Another end for a segment: only the two pointers at the new end are different. -/
theorem retarget_right {a b c : α} {xs : List α} (h : Seg m a xs b) (hnd : (a :: xs).Nodup)
    (hn : ∀ d ∈ a :: xs, d ≠ last a xs → nextOf m' d = nextOf m d)
    (hp : ∀ d ∈ xs, prevOf m' d = prevOf m d)
    (hnl : nextOf m' (last a xs) = some c) (hpc : prevOf m' c = some (last a xs)) :
    Seg m' a xs c := by
  induction xs generalizing a with
  | nil => exact ⟨hnl, hpc⟩
  | cons x xs ih =>
    have hax : a ≠ last x xs := fun e => (List.nodup_cons.1 hnd).1 (e ▸ last_mem x xs)
    refine ⟨⟨(hn a (by simp) hax).trans h.1.1, (hp x (by simp)).trans h.1.2⟩, ?_⟩
    exact ih h.2 (List.nodup_cons.1 hnd).2 (fun d hd => hn d (List.mem_cons_of_mem a hd))
      (fun d hd => hp d (List.mem_cons_of_mem x hd)) hnl hpc

/-- Another start for a segment: only the two pointers at the new start are different. -/
theorem retarget_left {a b c : α} {xs : List α} (h : Seg m a xs b)
    (hn : ∀ d ∈ xs, nextOf m' d = nextOf m d)
    (hp : ∀ d ∈ (xs ++ [b]).tail, prevOf m' d = prevOf m d)
    (hnc : nextOf m' c = some (first xs b)) (hpf : prevOf m' (first xs b) = some c) :
    Seg m' c xs b := by
  cases xs with
  | nil => exact ⟨hnc, hpf⟩
  | cons x xs => exact ⟨⟨hnc, hpf⟩, h.2.congr hn hp⟩

end Seg

/-! ## Rings -/

/-- The cells `xs`, in this order, are the circular list with head cell `h`. -/
structure Ring (m : M) (h : α) (xs : List α) : Prop where
  nodup : (h :: xs).Nodup
  seg : Seg m h xs h

omit [DecidableEq α] in
theorem first_mem (b : α) (xs : List α) : first xs b ∈ xs ++ [b] := by
  cases xs with
  | nil => exact List.mem_singleton_self b
  | cons x xs => exact List.mem_cons_self

omit [DecidableEq α] in
/-- The cell after the start is not met again on the way to the end. -/
theorem ne_first_of_mem_tail {b d : α} {xs : List α} (hnd : (xs ++ [b]).Nodup)
    (hd : d ∈ (xs ++ [b]).tail) : d ≠ first xs b := by
  cases xs with
  | nil => simp at hd
  | cons x xs =>
    rintro rfl
    exact (List.nodup_cons.1 hnd).1 hd

namespace Ring

variable {m : M} {h : α} {xs ys : List α}

theorem live (hr : Ring m h xs) : ∀ c ∈ h :: xs, (link m c).isSome := by
  intro c hc
  apply hr.seg.live
  rw [← List.cons_append]
  exact List.mem_append_left _ hc

/-- A memory that agrees on the cells of a ring has the same ring. -/
theorem congr {m' : M} (hr : Ring m h xs) (hl : ∀ c ∈ h :: xs, link m' c = link m c) :
    Ring m' h xs := by
  refine ⟨hr.nodup, hr.seg.congr ?_ ?_⟩
  · intro c hc
    unfold nextOf
    rw [hl c hc]
  · intro c hc
    have hc' : c ∈ h :: xs := by simpa [or_comm] using hc
    unfold prevOf
    rw [hl c hc']

/-- The ring is what the `next` pointers lead through. -/
theorem nextOf_mem (hr : Ring m h xs) {c : α} (hc : c ∈ h :: xs) :
    ∃ d ∈ h :: xs, nextOf m c = some d := by
  rcases List.mem_cons.1 hc with rfl | hc
  · exact ⟨first xs c, by simpa [or_comm] using first_mem c xs, hr.seg.nextOf_left⟩
  · obtain ⟨as, bs, rfl⟩ := List.append_of_mem hc
    have hs := (Seg.append.1 hr.seg).2.nextOf_left
    refine ⟨first bs h, ?_, hs⟩
    have := first_mem h bs
    simp only [List.mem_append, List.mem_cons] at this ⊢
    tauto

/-- Inserting a fresh live cell after the head puts it in front of the list. -/
theorem insertAfter_spec {new : α} (hr : Ring m h xs) (hnew : new ∉ h :: xs)
    (hl : (link m new).isSome) :
    ∃ m', insertAfter m new h = some m' ∧ Ring m' h (new :: xs) ∧
      (∀ b, (link m' b).isSome = (link m b).isSome) ∧
      ∀ b, b ∉ h :: xs → b ≠ new → link m' b = link m b := by
  obtain ⟨l, hlh⟩ := Option.isSome_iff_exists.1 (hr.live h List.mem_cons_self)
  have hnext : l.next = first xs h := by
    have := hr.seg.nextOf_left
    simpa [nextOf, hlh] using this
  have hfirst : first xs h ∈ h :: xs := by simpa [or_comm] using first_mem h xs
  have hnh : new ≠ h := fun e => hnew (e ▸ List.mem_cons_self)
  have hnf : new ≠ first xs h := fun e => hnew (e ▸ hfirst)
  obtain ⟨m₁, e₁, l₁, n₁, p₁⟩ := setNext_spec hl l.next
  obtain ⟨m₂, e₂, l₂, n₂, p₂⟩ := setPrev_spec (by rw [l₁]; exact hl : (link m₁ new).isSome) h
  obtain ⟨m₃, e₃, l₃, n₃, p₃⟩ := setNext_spec
    (by rw [l₂, l₁]; exact hr.live h List.mem_cons_self : (link m₂ h).isSome) new
  obtain ⟨m₄, e₄, l₄, n₄, p₄⟩ := setPrev_spec
    (by rw [l₃, l₂, l₁, hnext]; exact hr.live _ hfirst : (link m₃ l.next).isSome) new
  have hn : ∀ b, nextOf m₄ b =
      if b = h then some new else if b = new then some (first xs h) else nextOf m b := by
    intro b
    rw [n₄, n₃, n₂, n₁, hnext]
  have hp : ∀ b, prevOf m₄ b =
      if b = first xs h then some new else if b = new then some h else prevOf m b := by
    intro b
    rw [p₄, p₃, p₂, p₁, hnext]
  refine ⟨m₄, ?_, ⟨?_, ?_, ?_⟩, fun b => ?_, fun b hb hbn => ?_⟩
  · simp only [insertAfter, hlh, Option.bind_eq_bind, Option.bind_some, e₁, e₂, e₃, e₄]
  · have := hr.nodup
    simp only [List.nodup_cons, List.mem_cons, not_or] at this hnew ⊢
    exact ⟨⟨Ne.symm hnew.1, this.1⟩, hnew.2, this.2⟩
  · exact ⟨by rw [hn]; simp, by rw [hp]; simp [hnf]⟩
  · refine hr.seg.retarget_left (fun d hd => ?_) (fun d hd => ?_) ?_ ?_
    · have hdh : d ≠ h := fun e => (List.nodup_cons.1 hr.nodup).1 (e ▸ hd)
      have hdn : d ≠ new := fun e => hnew (e ▸ List.mem_cons_of_mem h hd)
      rw [hn, if_neg hdh, if_neg hdn]
    · have hdn : d ≠ new := by
        rintro rfl
        exact hnew (by simpa [or_comm] using List.mem_of_mem_tail hd)
      have hnd : (xs ++ [h]).Nodup := List.nodup_append_comm.1 hr.nodup
      rw [hp, if_neg (ne_first_of_mem_tail hnd hd), if_neg hdn]
    · rw [hn, if_neg hnh, if_pos rfl]
    · rw [hp, if_pos rfl]
  · rw [l₄, l₃, l₂, l₁]
  · have hbh : b ≠ h := fun e => hb (e ▸ List.mem_cons_self)
    have hbf : b ≠ first xs h := fun e => hb (e ▸ hfirst)
    exact link_eq_of (by rw [hn, if_neg hbh, if_neg hbn]) (by rw [hp, if_neg hbf, if_neg hbn])

/-- The neighbours of a cell of the ring. -/
theorem link_mid {c : α} (hr : Ring m h (xs ++ c :: ys)) :
    link m c = some ⟨first ys h, last h xs⟩ := by
  obtain ⟨h₁, h₂⟩ := Seg.append.1 hr.seg
  exact link_of_pointers h₂.nextOf_left h₁.prevOf_right

/-- How the cells before, at and after a position of a ring differ. -/
theorem split_nodup {c : α} (hr : Ring m h (xs ++ c :: ys)) :
    (h :: xs).Nodup ∧ (ys ++ [h]).Nodup ∧ (∀ d ∈ h :: xs, d ≠ c) ∧ (∀ d ∈ ys ++ [h], d ≠ c) ∧
      (∀ d ∈ xs, d ∉ ys ++ [h]) ∧ ∀ d ∈ ys, d ∉ h :: xs := by
  have := hr.nodup
  simp only [List.nodup_cons, List.mem_append, List.mem_cons, not_or, List.nodup_append,
    List.not_mem_nil, or_false] at this ⊢
  grind

/-- Replacing a cell of the ring by a fresh live one keeps every position. -/
theorem replaceCell_spec {old new : α} (poison : α) (hr : Ring m h (xs ++ old :: ys))
    (hnew : new ∉ h :: (xs ++ old :: ys)) (hl : (link m new).isSome) :
    ∃ m', replaceCell m old new poison = some m' ∧ Ring m' h (xs ++ new :: ys) ∧
      (∀ b, (link m' b).isSome = (link m b).isSome) ∧
      (∀ b, b ∉ h :: (xs ++ old :: ys) → b ≠ new → link m' b = link m b) ∧
      link m' old = some ⟨first ys h, poison⟩ := by
  obtain ⟨hs₁, hs₂⟩ := Seg.append.1 hr.seg
  obtain ⟨nd₁, nd₂, ne₁, ne₂, dj₁, dj₂⟩ := hr.split_nodup
  have hp_mem := last_mem h xs
  have hn_mem := first_mem h ys
  have hmem : ∀ d, d ∈ h :: xs ∨ d ∈ ys ++ [h] ∨ d = old → d ∈ h :: (xs ++ old :: ys) := by
    intro d
    simp only [List.mem_cons, List.mem_append, List.not_mem_nil, or_false]
    tauto
  have hne : ∀ d, d ∈ h :: xs ∨ d ∈ ys ++ [h] ∨ d = old → d ≠ new :=
    fun d hd e => hnew (e ▸ hmem d hd)
  have hlive : ∀ d, d ∈ h :: xs ∨ d ∈ ys ++ [h] ∨ d = old → (link m d).isSome :=
    fun d hd => hr.live d (hmem d hd)
  obtain ⟨m₁, e₁, l₁, n₁, p₁⟩ := setNext_spec hl (first ys h)
  obtain ⟨m₂, e₂, l₂, n₂, p₂⟩ := setPrev_spec (by rw [l₁]; exact hl : (link m₁ new).isSome)
    (last h xs)
  obtain ⟨m₃, e₃, l₃, n₃, p₃⟩ := setNext_spec
    (by rw [l₂, l₁]; exact hlive _ (.inl hp_mem) : (link m₂ (last h xs)).isSome) new
  obtain ⟨m₄, e₄, l₄, n₄, p₄⟩ := setPrev_spec
    (by rw [l₃, l₂, l₁]; exact hlive _ (.inr (.inl hn_mem)) : (link m₃ (first ys h)).isSome) new
  obtain ⟨m₅, e₅, l₅, n₅, p₅⟩ := setPrev_spec
    (by rw [l₄, l₃, l₂, l₁]; exact hlive _ (.inr (.inr rfl)) : (link m₄ old).isSome) poison
  have hn : ∀ b, nextOf m₅ b =
      if b = last h xs then some new else if b = new then some (first ys h) else nextOf m b := by
    intro b
    rw [n₅, n₄, n₃, n₂, n₁]
  have hp : ∀ b, prevOf m₅ b = if b = old then some poison else if b = first ys h then some new
      else if b = new then some (last h xs) else prevOf m b := by
    intro b
    rw [p₅, p₄, p₃, p₂, p₁]
  have live₅ : ∀ b, (link m₅ b).isSome = (link m b).isSome := fun b => by rw [l₅, l₄, l₃, l₂, l₁]
  refine ⟨m₅, ?_, ⟨?_, Seg.append.2 ⟨?_, ?_⟩⟩, live₅, fun b hb hbn => ?_, ?_⟩
  · simp only [replaceCell, hr.link_mid, Option.bind_eq_bind, Option.bind_some, e₁, e₂, e₃, e₄, e₅]
  · have := hr.nodup
    simp only [List.nodup_cons, List.mem_append, List.mem_cons, not_or, List.nodup_append] at *
    grind
  · refine hs₁.retarget_right nd₁ (fun d hd hdl => ?_) (fun d hd => ?_) ?_ ?_
    · rw [hn, if_neg hdl, if_neg (hne d (.inl hd))]
    · have hdf : d ≠ first ys h := fun e => dj₁ d hd (e ▸ hn_mem)
      rw [hp, if_neg (ne₁ d (List.mem_cons_of_mem h hd)), if_neg hdf,
        if_neg (hne d (.inl (List.mem_cons_of_mem h hd)))]
    · rw [hn, if_pos rfl]
    · rw [hp, if_neg (hne old (.inr (.inr rfl))).symm,
        if_neg (hne _ (.inr (.inl hn_mem))).symm, if_pos rfl]
  · refine hs₂.retarget_left (fun d hd => ?_) (fun d hd => ?_) ?_ ?_
    · have hdp : d ≠ last h xs := fun e => dj₂ d hd (e ▸ hp_mem)
      rw [hn, if_neg hdp, if_neg (hne d (.inr (.inl (List.mem_append_left _ hd))))]
    · have hd' := List.mem_of_mem_tail hd
      rw [hp, if_neg (ne₂ d hd'), if_neg (ne_first_of_mem_tail nd₂ hd),
        if_neg (hne d (.inr (.inl hd')))]
    · rw [hn, if_neg (hne _ (.inl hp_mem)).symm, if_pos rfl]
    · rw [hp, if_neg (ne₂ _ hn_mem), if_pos rfl]
  · have hbm : ∀ d ∈ h :: (xs ++ old :: ys), b ≠ d := fun d hd e => hb (e ▸ hd)
    refine link_eq_of ?_ ?_
    · rw [hn, if_neg (hbm _ (hmem _ (.inl hp_mem))), if_neg hbn]
    · rw [hp, if_neg (hbm _ (hmem _ (.inr (.inr rfl)))),
        if_neg (hbm _ (hmem _ (.inr (.inl hn_mem)))), if_neg hbn]
  · have hno : nextOf m₅ old = some (first ys h) := by
      rw [hn, if_neg (ne₁ _ hp_mem).symm, if_neg (hne old (.inr (.inr rfl)))]
      exact hs₂.nextOf_left
    have hpo : prevOf m₅ old = some poison := by rw [hp, if_pos rfl]
    exact link_of_pointers hno hpo

/-- Removing a cell of the ring keeps the order of the others. -/
theorem removeCell_spec {c : α} (poison : α) (hr : Ring m h (xs ++ c :: ys)) :
    ∃ m', removeCell m c poison = some m' ∧ Ring m' h (xs ++ ys) ∧
      (∀ b, (link m' b).isSome = (link m b).isSome) ∧
      (∀ b, b ∉ h :: (xs ++ c :: ys) → link m' b = link m b) ∧
      link m' c = some ⟨first ys h, poison⟩ := by
  obtain ⟨hs₁, hs₂⟩ := Seg.append.1 hr.seg
  obtain ⟨nd₁, nd₂, ne₁, ne₂, dj₁, dj₂⟩ := hr.split_nodup
  have hp_mem := last_mem h xs
  have hn_mem := first_mem h ys
  have hmem : ∀ d, d ∈ h :: xs ∨ d ∈ ys ++ [h] ∨ d = c → d ∈ h :: (xs ++ c :: ys) := by
    intro d
    simp only [List.mem_cons, List.mem_append, List.not_mem_nil, or_false]
    tauto
  have hlive : ∀ d, d ∈ h :: xs ∨ d ∈ ys ++ [h] ∨ d = c → (link m d).isSome :=
    fun d hd => hr.live d (hmem d hd)
  obtain ⟨m₁, e₁, l₁, n₁, p₁⟩ := setPrev_spec (hlive _ (.inr (.inl hn_mem))) (last h xs)
  obtain ⟨m₂, e₂, l₂, n₂, p₂⟩ := setNext_spec
    (by rw [l₁]; exact hlive _ (.inl hp_mem) : (link m₁ (last h xs)).isSome) (first ys h)
  obtain ⟨m₃, e₃, l₃, n₃, p₃⟩ := setPrev_spec
    (by rw [l₂, l₁]; exact hlive _ (.inr (.inr rfl)) : (link m₂ c).isSome) poison
  have hn : ∀ b, nextOf m₃ b = if b = last h xs then some (first ys h) else nextOf m b := by
    intro b
    rw [n₃, n₂, n₁]
  have hp : ∀ b, prevOf m₃ b = if b = c then some poison else if b = first ys h then
      some (last h xs) else prevOf m b := by
    intro b
    rw [p₃, p₂, p₁]
  refine ⟨m₃, ?_, ⟨?_, ?_⟩, fun b => by rw [l₃, l₂, l₁], fun b hb => ?_, ?_⟩
  · simp only [removeCell, hr.link_mid, Option.bind_eq_bind, Option.bind_some, e₁, e₂, e₃]
  · have := hr.nodup
    simp only [List.nodup_cons, List.mem_append, List.mem_cons, not_or, List.nodup_append] at *
    grind
  · have hs : Seg m₃ h xs (first ys h) := by
      refine hs₁.retarget_right nd₁ (fun d hd hdl => ?_) (fun d hd => ?_) ?_ ?_
      · rw [hn, if_neg hdl]
      · have hdf : d ≠ first ys h := fun e => dj₁ d hd (e ▸ hn_mem)
        rw [hp, if_neg (ne₁ d (List.mem_cons_of_mem h hd)), if_neg hdf]
      · rw [hn, if_pos rfl]
      · rw [hp, if_neg (ne₂ _ hn_mem), if_pos rfl]
    -- the cells after the removed one, if any, keep their pointers
    cases ys with
    | nil => simpa [first] using hs
    | cons y ys =>
      refine Seg.append.2 ⟨hs, hs₂.2.congr (fun d hd => ?_) (fun d hd => ?_)⟩
      · have hdp : d ≠ last h xs := fun e => dj₂ d hd (e ▸ hp_mem)
        rw [hn, if_neg hdp]
      · have hd' : d ∈ (y :: ys ++ [h]) := List.mem_cons_of_mem y hd
        rw [hp, if_neg (ne₂ d hd'), if_neg (ne_first_of_mem_tail nd₂ (by simpa using hd))]
  · have hbm : ∀ d ∈ h :: (xs ++ c :: ys), b ≠ d := fun d hd e => hb (e ▸ hd)
    refine link_eq_of ?_ ?_
    · rw [hn, if_neg (hbm _ (hmem _ (.inl hp_mem)))]
    · rw [hp, if_neg (hbm _ (hmem _ (.inr (.inr rfl)))),
        if_neg (hbm _ (hmem _ (.inr (.inl hn_mem))))]
  · have hno : nextOf m₃ c = some (first ys h) := by
      rw [hn, if_neg (ne₁ _ hp_mem).symm]
      exact hs₂.nextOf_left
    have hpo : prevOf m₃ c = some poison := by rw [hp, if_pos rfl]
    exact link_of_pointers hno hpo

end Ring

end LinkMem

end LinuxKernelProg.Lib
