import LinuxKernelProg.Security.ApparmorInfo

/-!
# The profile of a process

`show_current_profile` of `part1/apparmour/apparmor_info.c` prints the label of the process and what
it means. The kernel writes `name (mode)`; the function looks for the words of the modes anywhere in
the label, so a profile whose name has such a word in it may be taken for one of another mode
(`right_iff`).
-/

namespace LinuxKernelProg.Security

open LinuxKernelProg.Lib
open LinuxKernelProg.Lib.CBuffer

/-! ## What is printed -/

inductive Status where
  | unconfined
  | enforcing
  | complain
  | confined
  deriving DecidableEq

def Status.line : Status → List UInt8
  | .unconfined => str "Status: UNCONFINED (No restrictions)\n"
  | .enforcing => str "Status: ENFORCING (Violations blocked)\n"
  | .complain => str "Status: COMPLAIN MODE (Logging only)\n"
  | .confined => str "Status: CONFINED\n"

/-- Lines 139-146. -/
def status (buf : List UInt8) : Status :=
  if strstr (str "unconfined") buf then .unconfined
  else if strstr (str "enforce") buf then .enforcing
  else if strstr (str "complain") buf then .complain
  else .confined

/-- `fp` is what `filp_open` gives, and the read from it; an error of `kernel_read` is negative.
`none` is a use of memory outside of the buffer. -/
def show_current_profile {file : List UInt8} (kmalloc : Option (Vector UInt8 256))
    (comm : List UInt8) (pid : Int)
    (fp : Except Int (Except Int (KernelRead file 255))) : Option (List UInt8) :=
  match kmalloc with
  | none => some []
  | some buf =>
    let m := str "\n=== CURRENT PROCESS CONFINEMENT ===\n" ++ str "Process: " ++ comm ++
      str " (PID: " ++ decInt pid ++ str ")\n"
    match fp with
    | .error _ => some (m ++ str "AppArmor Profile: Not available\n")
    | .ok (.error _) => some m
    | .ok (.ok r) =>
      if 0 < r.len then do
        let buf ← store (file.take r.len ++ buf.toList.drop r.len) r.len 0
        let last ← load buf (r.len - 1)
        let trimmed := if last = newline then store buf (r.len - 1) 0 else some buf
        let buf ← trimmed
        let profile ← string buf 0
        some (m ++ str "AppArmor Profile: " ++ profile ++ [newline] ++ (status profile).line)
      else some m

/-! ## The labels of the kernel -/

inductive Mode where
  | enforce
  | complain
  | kill
  | unconfined

def Mode.word : Mode → List UInt8
  | .enforce => str "enforce"
  | .complain => str "complain"
  | .kill => str "kill"
  | .unconfined => str "unconfined"

/-- The words that are looked for before the one of the mode. -/
def Mode.earlier : Mode → List (List UInt8)
  | .unconfined => []
  | .enforce => [str "unconfined"]
  | .complain => [str "unconfined", str "enforce"]
  | .kill => [str "unconfined", str "enforce", str "complain"]

def Mode.status : Mode → Status
  | .enforce => .enforcing
  | .complain => .complain
  | .kill => .confined
  | .unconfined => .unconfined

inductive Label where
  | unconfined
  | profile (name : List UInt8) (mode : Mode)

def Label.text : Label → List UInt8
  | .unconfined => str "unconfined"
  | .profile name mode => name ++ str " (" ++ mode.word ++ str ")"

def Label.status : Label → Status
  | .unconfined => .unconfined
  | .profile _ mode => mode.status

/-- No word of an earlier mode is in the name. -/
def Label.Plain : Label → Prop
  | .unconfined => True
  | .profile name mode => ∀ w ∈ mode.earlier, ¬ w <:+: name

/-- What is in `attr/current`. -/
structure Attr where
  label : Label
  newline? : Bool
  nul_free : 0 ∉ label.text
  newline_free : newline ∉ label.text
  length_le : label.text.length + newline?.toNat ≤ 254

def Attr.file (a : Attr) : List UInt8 := a.label.text ++ if a.newline? then [newline] else []

theorem Attr.length_file (a : Attr) : a.file.length = a.label.text.length + a.newline?.toNat := by
  unfold Attr.file
  cases a.newline? <;> simp

/-- The whole of it is read. -/
def Attr.read (a : Attr) : KernelRead a.file 255 where
  len := a.file.length
  le_count := Nat.le_succ_of_le (Nat.le_trans (Nat.le_of_eq a.length_file) a.length_le)
  le_length := Nat.le_refl _
  pos _ h := List.length_pos_iff.2 h

/-- The last line that is printed is the one of the status. -/
def Shows (out : Option (List UInt8)) (st : Status) : Prop := ∃ m, out = some (m ++ st.line)

/-- Each status is shown for its modes only, and for all of them. -/
def Right (a : Attr) (buf : Vector UInt8 256) (comm : List UInt8) (pid : Int) : Prop :=
  ∀ st, Shows (show_current_profile (some buf) comm pid (.ok (.ok a.read))) st ↔ a.label.status = st

variable {a : Attr} {label : Label} {out : Option (List UInt8)}

theorem Status.eq_of_suffix {st st' : Status} (h : st.line <:+ st'.line) : st = st' := by
  revert h
  cases st <;> cases st' <;> decide

theorem Shows.unique {st st' : Status} (h : Shows out st) (h' : Shows out st') : st = st' := by
  obtain ⟨m, rfl⟩ := h
  obtain ⟨m', h'⟩ := h'
  have hsuf : st.line <:+ m' ++ st'.line := ⟨m, Option.some.inj h'⟩
  rcases List.suffix_or_suffix_of_suffix hsuf (List.suffix_append m' st'.line) with h | h
  · exact Status.eq_of_suffix h
  · exact (Status.eq_of_suffix h).symm

/-! ## The words in a label -/

theorem Mode.word_letters (m : Mode) : 32 ∉ m.word ∧ 40 ∉ m.word ∧ 41 ∉ m.word ∧ m.word ≠ [] := by
  cases m <;> decide

/-- The word of a mode is in the word of no other mode. -/
theorem Mode.word_infix_iff (m m' : Mode) : m.word <:+: m'.word ↔ m = m' := by
  constructor
  · intro h
    revert h
    cases m <;> cases m' <;> first | exact fun _ => rfl | exact fun h => absurd h (by decide)
  · rintro rfl
    exact List.infix_rfl

/-- The word of a mode is in a label if it is in the name, or if it is the mode. -/
theorem Label.strstr_word_iff (m : Mode) (name : List UInt8) (mode : Mode) :
    strstr m.word (Label.profile name mode).text = true ↔ m.word <:+: name ∨ m = mode := by
  obtain ⟨hspace, hleft, hright, hne⟩ := m.word_letters
  have htext : (Label.profile name mode).text =
      name ++ 32 :: ([] ++ 40 :: (mode.word ++ 41 :: [])) := by
    simp [Label.text, str]
  rw [strstr_iff, htext, infix_append_cons_iff hspace, infix_append_cons_iff hleft,
    infix_append_cons_iff hright, List.infix_nil, m.word_infix_iff]
  simp [hne]

/-- The words are looked for one after the other. -/
theorem Label.status_eq_iff (label : Label) :
    Security.status label.text = label.status ↔ label.Plain := by
  cases label with
  | unconfined => exact iff_of_true (by decide) trivial
  | profile name mode =>
    have hu : strstr (str "unconfined") _ = true ↔ _ := strstr_word_iff .unconfined name mode
    have he : strstr (str "enforce") _ = true ↔ _ := strstr_word_iff .enforce name mode
    have hc : strstr (str "complain") _ = true ↔ _ := strstr_word_iff .complain name mode
    simp only [Mode.word] at hu he hc
    simp only [Security.status, Label.status, Plain]
    by_cases hname : str "unconfined" <:+: name
    · cases mode <;> simp [hu, hname, Mode.status, Mode.earlier]
    · cases mode with
      | unconfined => simp [hu, Mode.status, Mode.earlier]
      | enforce => simp [hu, he, hname, Mode.status, Mode.earlier]
      | complain =>
        by_cases hname' : str "enforce" <:+: name <;>
          simp [hu, he, hc, hname, hname', Mode.status, Mode.earlier]
      | kill =>
        by_cases hname' : str "enforce" <:+: name
        · simp [hu, he, hname, hname', Mode.status, Mode.earlier]
        · by_cases hname'' : str "complain" <:+: name <;>
            simp [hu, he, hc, hname, hname', hname'', Mode.status, Mode.earlier]

theorem Label.text_ne_nil (label : Label) : label.text ≠ [] := by
  cases label with
  | unconfined => decide
  | profile name mode => simp [text, str]

/-- The buffer in which the last byte of the label is not a newline any more. -/
theorem Attr.trim (a : Attr) (rest : List UInt8) :
    ∃ last buf, load (a.file ++ 0 :: rest) (a.file.length - 1) = some last ∧
      (if last = newline then store (a.file ++ 0 :: rest) (a.file.length - 1) 0
        else some (a.file ++ 0 :: rest)) = some buf ∧
      string buf 0 = some a.label.text := by
  have hlen := a.length_file
  cases hnl : a.newline? with
  | true =>
    have hfile : a.file = a.label.text ++ newline :: [] := by rw [Attr.file, hnl, if_pos rfl]
    have hlast : a.file.length - 1 = 0 + a.label.text.length := by
      rw [hnl, Bool.toNat_true] at hlen
      omega
    have hnul : 0 ∉ a.file := by
      rw [hfile, List.mem_append, List.mem_singleton]
      rintro (h | h)
      · exact a.nul_free h
      · exact absurd h (by decide)
    have hholds := Holds.mk_append hnul rest
    rw [hlast]
    rw [hfile] at hholds ⊢
    obtain ⟨hstore, hleft, -⟩ := hholds.cut
    exact ⟨newline, _, by simp [load], (if_pos rfl).trans hstore, hleft.string_eq⟩
  | false =>
    have hfile : a.file = a.label.text := by
      rw [Attr.file, hnl, if_neg Bool.false_ne_true, List.append_nil]
    have hpos : 0 < a.label.text.length := List.length_pos_iff.2 a.label.text_ne_nil
    rw [hfile]
    have hlt : a.label.text.length - 1 < a.label.text.length := by omega
    have hload : load (a.label.text ++ 0 :: rest) (a.label.text.length - 1) =
        some a.label.text[a.label.text.length - 1] := by
      rw [load, List.getElem?_append_left hlt, List.getElem?_eq_getElem hlt]
    have hne : a.label.text[a.label.text.length - 1] ≠ newline := fun h =>
      a.newline_free (h ▸ List.getElem_mem hlt)
    exact ⟨_, _, hload, if_neg hne, (Holds.mk_append a.nul_free rest).string_eq⟩

/-- The newline is cut off, and the label is looked at. -/
theorem Attr.shows (a : Attr) (buf : Vector UInt8 256) (comm : List UInt8) (pid : Int) :
    Shows (show_current_profile (some buf) comm pid (.ok (.ok a.read))) (status a.label.text) := by
  have hpos : 0 < a.label.text.length := List.length_pos_iff.2 a.label.text_ne_nil
  have hlen := a.length_file
  have hread : a.read.len = a.file.length := rfl
  have hlt : a.read.len < buf.toList.length := by
    rw [buf.length_toList]
    exact Nat.lt_succ_of_le a.read.le_count
  have hstore := a.read.store_eq hlt
  rw [hread, List.take_length] at hstore
  obtain ⟨last, trimmed, hload, htrim, hstring⟩ := a.trim (buf.toList.drop (a.file.length + 1))
  simp only [show_current_profile, hread, List.take_length,
    if_pos (show 0 < a.file.length by omega), hstore, Option.bind_eq_bind, Option.bind_some, hload,
    htrim, hstring]
  exact ⟨_, rfl⟩

/-- **The status is right** exactly when no word of an earlier mode is in the name of the
profile. -/
theorem right_iff (a : Attr) (buf : Vector UInt8 256) (comm : List UInt8) (pid : Int) :
    Right a buf comm pid ↔ a.label.Plain := by
  have hshows := a.shows buf comm pid
  rw [← Label.status_eq_iff]
  constructor
  · intro h
    exact ((h _).1 hshows).symm
  · intro h st
    constructor
    · intro hst
      rw [← h]
      exact hshows.unique hst
    · intro hst
      rw [← hst, ← h]
      exact hshows

/-- A profile with a mode in its name. -/
def Attr.misnamed : Attr where
  label := .profile (str "unconfined-test") .enforce
  newline? := true
  nul_free := by decide
  newline_free := by decide
  length_le := by decide

/-- It is enforced, and is said to be unconfined. -/
theorem misnamed_not_right : ¬ Right .misnamed (Vector.replicate 256 0) (str "cat") 7 := by
  intro h
  have hst : Mode.enforce.status = status Attr.misnamed.label.text :=
    (h _).1 (Attr.misnamed.shows _ _ _)
  exact absurd hst (by decide)

end LinuxKernelProg.Security
