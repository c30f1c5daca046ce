import Mathlib.Data.List.Forall2
import LinuxKernelProg.Lib.CBuffer
import LinuxKernelProg.Sync.ListRcu.Shelf

/-!
# The RCU book list: what is printed

`Add_book` copies a name and an author with `strncpy` into fields of 64 bytes, and `List_books`
prints the fields with `%s`. A string of 64 bytes or more leaves a field without a NUL, and the line
goes on behind it; `Borrow_book` and `Return_book` copy such a field along.
-/

namespace LinuxKernelProg.Sync.ListRcu

open LinuxKernelProg.Lib

/-- What `%s` prints of a field; `none` when it reads past the end. -/
def print_field (field : Fin 64 → UInt8) : Option (List UInt8) := CBuffer.string (List.ofFn field) 0

/-! ## The books as they were given -/

structure Title where
  id : Int
  name : CString
  author : CString
  borrow : Int

def Title.entry (t : Title) : Entry :=
  ⟨t.id, Shelf.first64 t.name, Shelf.first64 t.author, t.borrow⟩

abbrev Catalogue := List Title

namespace Catalogue

def setFirst (id flag : Int) : Catalogue → Catalogue
  | [] => []
  | t :: cat => if t.id = id then { t with borrow := flag } :: cat else t :: setFirst id flag cat

def update (old new id : Int) (alloc : Bool) (cat : Catalogue) : Catalogue :=
  match cat.find? (fun t => t.id = id) with
  | some t => if t.borrow = old ∧ alloc then setFirst id new cat else cat
  | none => cat

/-- What a call does, with whole names. -/
def call (cat : Catalogue) : Call → Catalogue
  | .Add_book id name author alloc => if alloc then ⟨id, name, author, 0⟩ :: cat else cat
  | .Borrow_book id _ alloc => update 0 1 id alloc cat
  | .Return_book id _ alloc => update 1 0 id alloc cat
  | .Delete_book id _ => cat.eraseP fun t => t.id = id
  | .Reclaim_callback => cat

def calls (cs : List Call) : Catalogue := cs.foldl call []

end Catalogue

/-- The line of a book shows its id, as much of its name and its author as a field and its NUL hold,
and its flag. -/
structure Title.Shown (t : Title) (e : Entry) : Prop where
  id : e.id = t.id
  name : print_field e.name = some (t.name.bytes.take 63)
  author : print_field e.author = some (t.author.bytes.take 63)
  borrow : e.borrow = t.borrow

/-- `List_books` prints the books. -/
def Catalogue.Printed (cat : Catalogue) (m : Mem) : Prop :=
  ∃ es, List_books m = some es ∧ List.Forall₂ Title.Shown cat es

/-- After every call of the sequence. -/
def PrintedRun (cs : List Call) : Prop :=
  ∀ i, ∃ s rs, State.init.calls (cs.take i) = some (s, rs) ∧
    (Catalogue.calls (cs.take i)).Printed s.mem

/-- The strings fit, with their NUL. -/
def Title.Fits (t : Title) : Prop := t.name.bytes.length < 64 ∧ t.author.bytes.length < 64

def Call.Fits : Call → Prop
  | .Add_book id name author alloc => alloc = true → Title.Fits ⟨id, name, author, 0⟩
  | _ => True

/-! ## A field -/

theorem print_field_iff (s : CString) :
    print_field (Shelf.first64 s) = some (s.bytes.take 63) ↔ s.bytes.length < 64 := by
  have hfield : List.ofFn (Shelf.first64 s) =
      s.bytes.take 64 ++ List.replicate (64 - (s.bytes.take 64).length) 0 :=
    s.ofFn_padded (Nat.le_refl 64)
  rw [print_field, hfield, CBuffer.string, List.drop_zero]
  constructor
  · intro h
    refine Nat.lt_of_not_le fun hlen => ?_
    -- the field is full
    have htake : (s.bytes.take 64).length = 64 := List.length_take_of_le hlen
    rw [htake, Nat.sub_self, List.replicate_zero, List.append_nil,
      CBuffer.scan_eq_none fun hm => s.nul_free (List.mem_of_mem_take hm)] at h
    cases h
  · intro hlen
    obtain ⟨n, hn⟩ : ∃ n, 64 - s.bytes.length = n + 1 := ⟨63 - s.bytes.length, by omega⟩
    rw [List.take_of_length_le (by omega), List.take_of_length_le (by omega), hn,
      List.replicate_succ, CBuffer.scan_append s.nul_free]

theorem Title.shown_iff (t : Title) : t.Shown t.entry ↔ t.Fits := by
  constructor
  · intro h
    exact ⟨(print_field_iff t.name).1 h.name, (print_field_iff t.author).1 h.author⟩
  · rintro ⟨hname, hauthor⟩
    exact ⟨rfl, (print_field_iff t.name).2 hname, (print_field_iff t.author).2 hauthor, rfl⟩

/-! ## The shelf -/

namespace Catalogue

variable {cat : Catalogue} {c : Call}

theorem map_setFirst (id flag : Int) (cat : Catalogue) :
    (setFirst id flag cat).map Title.entry = Shelf.setFirst id flag (cat.map Title.entry) := by
  induction cat with
  | nil => rfl
  | cons t cat ih =>
    have hid : t.entry.id = t.id := rfl
    rw [setFirst, List.map_cons, Shelf.setFirst, hid]
    split
    · rfl
    · rw [List.map_cons, ih]

theorem map_update (old new id : Int) (alloc : Bool) (cat : Catalogue) :
    (update old new id alloc cat).map Title.entry =
      (Shelf.update old new id alloc (cat.map Title.entry)).1 := by
  have hfind : (cat.map Title.entry).find? (fun e => e.id = id) =
      (cat.find? fun t => t.id = id).map Title.entry :=
    List.find?_map
  unfold update Shelf.update
  rw [hfind]
  cases cat.find? fun t => t.id = id with
  | none => rfl
  | some t =>
    have hborrow : t.entry.borrow = t.borrow := rfl
    simp only [Option.map_some, hborrow]
    split
    · exact map_setFirst id new cat
    · rfl

/-- The shelf is the catalogue with its strings cut. -/
theorem map_call (cat : Catalogue) (c : Call) :
    (cat.call c).map Title.entry = (Shelf.call (cat.map Title.entry) c).1 := by
  cases c with
  | Add_book id name author alloc => cases alloc <;> rfl
  | Borrow_book id async alloc => exact map_update 0 1 id alloc cat
  | Return_book id async alloc => exact map_update 1 0 id alloc cat
  | Delete_book id async =>
    simp only [call, Shelf.call, Shelf.delete, List.eraseP_map]
    rfl
  | Reclaim_callback => rfl

theorem map_calls (cs : List Call) : ∀ cat : Catalogue,
    (cs.foldl call cat).map Title.entry = (Shelf.calls (cat.map Title.entry) cs).1 := by
  induction cs with
  | nil => exact fun _ => rfl
  | cons c cs ih =>
    intro cat
    rw [List.foldl_cons, ih, map_call]
    rfl

theorem fits_setFirst (id flag : Int) (h : ∀ t ∈ cat, t.Fits) :
    ∀ t ∈ setFirst id flag cat, t.Fits := by
  induction cat with
  | nil => exact h
  | cons t cat ih =>
    obtain ⟨ht, hcat⟩ := List.forall_mem_cons.1 h
    rw [setFirst]
    split
    · exact List.forall_mem_cons.2 ⟨ht, hcat⟩
    · exact List.forall_mem_cons.2 ⟨ht, ih hcat⟩

theorem fits_update (old new id : Int) (alloc : Bool) (h : ∀ t ∈ cat, t.Fits) :
    ∀ t ∈ update old new id alloc cat, t.Fits := by
  unfold update
  split
  · split
    · exact fits_setFirst id new h
    · exact h
  · exact h

/-- A call keeps what fits. -/
theorem fits_call (hc : c.Fits) (h : ∀ t ∈ cat, t.Fits) : ∀ t ∈ cat.call c, t.Fits := by
  cases c with
  | Add_book id name author alloc =>
    cases alloc with
    | false => exact h
    | true => exact List.forall_mem_cons.2 ⟨hc rfl, h⟩
  | Borrow_book id async alloc => exact fits_update 0 1 id alloc h
  | Return_book id async alloc => exact fits_update 1 0 id alloc h
  | Delete_book id async => exact fun t ht => h t (List.mem_of_mem_eraseP ht)
  | Reclaim_callback => exact h

theorem fits_calls {cs : List Call} (hcs : ∀ c ∈ cs, c.Fits) :
    ∀ {cat : Catalogue}, (∀ t ∈ cat, t.Fits) →
    ∀ t ∈ cs.foldl call cat, t.Fits := by
  induction cs with
  | nil => exact fun h => h
  | cons c cs ih =>
    intro cat h
    obtain ⟨hc, hcs⟩ := List.forall_mem_cons.1 hcs
    exact ih hcs (fits_call hc h)

end Catalogue

/-! ## The runs -/

theorem Rep.printed_iff {s : State} {ns : List Nat} {cat : Catalogue}
    (h : Rep s ns (cat.map Title.entry)) :
    cat.Printed s.mem ↔ ∀ t ∈ cat, t.Fits := by
  have hlist := h.lists.List_books_eq h.length_le
  have hshown : List.Forall₂ Title.Shown cat (cat.map Title.entry) ↔ ∀ t ∈ cat, t.Fits := by
    rw [List.forall₂_map_right_iff, List.forall₂_same]
    exact forall₂_congr fun t _ => t.shown_iff
  rw [← hshown]
  constructor
  · rintro ⟨es, hes, hall⟩
    rw [hlist] at hes
    cases hes
    exact hall
  · intro hall
    exact ⟨_, hlist, hall⟩

/-- After a sequence of calls the books are printed exactly when the strings of those that are left
fit. -/
theorem printed_calls_iff (cs : List Call) :
    (∃ s rs, State.init.calls cs = some (s, rs) ∧ (Catalogue.calls cs).Printed s.mem) ↔
      ∀ t ∈ Catalogue.calls cs, t.Fits := by
  obtain ⟨s, ns, hs, hR⟩ := calls_refine cs Rep.init
  have hmap := Catalogue.map_calls cs []
  rw [List.map_nil] at hmap
  rw [← hmap] at hR
  have hiff := Rep.printed_iff hR
  constructor
  · rintro ⟨s', rs, hs', hprinted⟩
    rw [hs] at hs'
    cases hs'
    exact hiff.1 hprinted
  · intro h
    exact ⟨s, _, hs, hiff.2 h⟩

/-- **The books are printed** after every call exactly when every string that a book is added with
fits. -/
theorem printedRun_iff (cs : List Call) : PrintedRun cs ↔ ∀ c ∈ cs, c.Fits := by
  simp only [PrintedRun, printed_calls_iff]
  constructor
  · intro h c hc
    obtain ⟨i, hi⟩ := List.getElem?_of_mem hc
    cases c with
    | Add_book id name author alloc =>
      intro halloc
      subst halloc
      refine h (i + 1) _ ?_
      rw [List.take_add_one, hi, Option.toList_some, Catalogue.calls, List.foldl_append]
      exact List.mem_cons_self
    | _ => trivial
  · intro h i
    exact Catalogue.fits_calls (fun c hc => h c (List.mem_of_mem_take hc)) (by simp)

/-- A name of 64 letters. -/
def CString.long : CString := ⟨List.replicate 64 97, by decide⟩

/-- The name is printed with what is behind it. -/
theorem long_name_not_printed : ¬ PrintedRun [.Add_book 7 CString.long CString.empty true] := by
  intro h
  have hfits := (printed_calls_iff _).1 (h 1) ⟨7, CString.long, CString.empty, 0⟩ List.mem_cons_self
  exact absurd hfits.1 (by decide)

end LinuxKernelProg.Sync.ListRcu
