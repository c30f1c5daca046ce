import Mathlib.Data.Nat.Digits.Lemmas
import Mathlib.Data.List.Infix

/-!
# Text

Text is a list of bytes. `dec` and `hex` print a number, `padLeft` and `padRight` fill a field of a
format, `strstr` looks for a piece of text in a line, and `lines` is what `fgets` reads with a
buffer of a given size: up to a newline, or as much as the buffer holds.
-/

namespace LinuxKernelProg.Lib

/-- The bytes of a literal. -/
def str (s : String) : List UInt8 := s.toList.map fun c => UInt8.ofNat c.toNat

def newline : UInt8 := 10

def digit (d : Nat) : UInt8 := UInt8.ofNat (if d < 10 then 48 + d else 87 + d)

def digits (base n : Nat) : List UInt8 :=
  if n = 0 then [digit 0] else (Nat.digits base n).reverse.map digit

/-- `%lu` -/
def dec (n : Nat) : List UInt8 := digits 10 n

/-- `%lx` -/
def hex (n : Nat) : List UInt8 := digits 16 n

/-- `%d` -/
def decInt (z : Int) : List UInt8 := if z < 0 then str "-" ++ dec z.natAbs else dec z.natAbs

def padLeft (c : UInt8) (width : Nat) (t : List UInt8) : List UInt8 :=
  List.replicate (width - t.length) c ++ t

def padRight (c : UInt8) (width : Nat) (t : List UInt8) : List UInt8 :=
  t ++ List.replicate (width - t.length) c

/-- The pattern is somewhere in the text. -/
def strstr (pat : List UInt8) : List UInt8 → Bool
  | [] => pat.isEmpty
  | b :: rest => pat.isPrefixOf (b :: rest) || strstr pat rest

/-- What successive calls of `fgets(line, size, fp)` read, the first one after `cur`. -/
def linesFrom (size : Nat) (cur : List UInt8) : List UInt8 → List (List UInt8)
  | [] => if cur = [] then [] else [cur]
  | b :: rest =>
    if b = newline ∨ cur.length + 2 = size then (cur ++ [b]) :: linesFrom size [] rest
    else linesFrom size (cur ++ [b]) rest

def lines (size : Nat) (t : List UInt8) : List (List UInt8) := linesFrom size [] t

/-- The lines, each with its newline. -/
def unlines (ls : List (List UInt8)) : List UInt8 := (ls.map (· ++ [newline])).flatten

variable {size : Nat} {pat t u : List UInt8} {c : UInt8}

/-! ## Lines -/

theorem linesFrom_append (cur t u : List UInt8) :
    linesFrom size cur (t ++ newline :: u) = linesFrom size cur (t ++ [newline]) ++
      lines size u := by
  induction t generalizing cur with
  | nil => simp [linesFrom, lines]
  | cons b t ih =>
    simp only [List.cons_append, linesFrom]
    split
    · rw [ih, List.cons_append]
    · exact ih _

/-- Text that is made of whole lines. -/
def Whole (t : List UInt8) : Prop := t = [] ∨ ∃ u, t = u ++ [newline]

theorem whole_line (t : List UInt8) : Whole (t ++ [newline]) := .inr ⟨t, rfl⟩

theorem Whole.append (ht : Whole t) (hu : Whole u) : Whole (t ++ u) := by
  rcases hu with rfl | ⟨v, rfl⟩
  · rwa [List.append_nil]
  · exact .inr ⟨t ++ v, (List.append_assoc t v [newline]).symm⟩

theorem whole_flatten {ts : List (List UInt8)} (h : ∀ t ∈ ts, Whole t) : Whole ts.flatten := by
  induction ts with
  | nil => exact .inl rfl
  | cons t ts ih =>
    exact (h t List.mem_cons_self).append (ih fun u hu => h u (List.mem_cons_of_mem t hu))

theorem whole_unlines (ls : List (List UInt8)) : Whole (unlines ls) := by
  apply whole_flatten
  intro t ht
  obtain ⟨l, -, rfl⟩ := List.mem_map.1 ht
  exact whole_line l

/-- Whole lines are read before what comes behind them. -/
theorem Whole.lines_append (ht : Whole t) (u : List UInt8) :
    lines size (t ++ u) = lines size t ++ lines size u := by
  rcases ht with rfl | ⟨v, rfl⟩
  · rfl
  · rw [List.append_assoc]
    exact linesFrom_append [] v u

/-- A line that fits is read at once. -/
theorem lines_line (ht : newline ∉ t) (hsize : t.length + 2 ≤ size) :
    lines size (t ++ [newline]) = [t ++ [newline]] := by
  have key : ∀ (t cur : List UInt8), newline ∉ t → cur.length + t.length + 2 ≤ size →
      linesFrom size cur (t ++ [newline]) = [cur ++ t ++ [newline]] := by
    intro t
    induction t with
    | nil => simp [linesFrom]
    | cons b t ih =>
      intro cur ht hsize
      rw [List.length_cons] at hsize
      have hb : ¬ (b = newline ∨ cur.length + 2 = size) := by
        rintro (rfl | h)
        · exact ht List.mem_cons_self
        · omega
      rw [List.cons_append, linesFrom, if_neg hb, ih]
      · simp
      · exact fun h => ht (List.mem_cons_of_mem b h)
      · rw [List.length_append, List.length_singleton]
        omega
  simpa [lines] using key t [] ht (by simpa using hsize)

/-! ## Numbers -/

theorem length_digits {base n k : Nat} (hb : 1 < base) (hk : 0 < k) (hn : n < base ^ k) :
    (digits base n).length ≤ k := by
  unfold digits
  split
  · exact hk
  · rw [List.length_map, List.length_reverse]
    exact (Nat.digits_length_le_iff hb n).2 hn

/-- A number is printed with the digits of its base. -/
theorem digits_all {base n : Nat} (hb : 1 < base) {p : UInt8 → Prop}
    (hp : ∀ d < base, p (digit d)) :
    ∀ c ∈ digits base n, p c := by
  intro c hc
  unfold digits at hc
  split at hc
  · rw [List.mem_singleton.1 hc]
    exact hp 0 (by omega)
  · obtain ⟨d, hd, rfl⟩ := List.mem_map.1 hc
    exact hp d (Nat.digits_lt_base hb (List.mem_reverse.1 hd))

theorem dec_subset (n : Nat) : dec n ⊆ str "0123456789" :=
  digits_all (p := (· ∈ str "0123456789")) (by decide) (by decide)

theorem hex_subset (n : Nat) : hex n ⊆ str "0123456789abcdef" :=
  digits_all (p := (· ∈ str "0123456789abcdef")) (by decide) (by decide)

theorem decInt_subset (z : Int) : decInt z ⊆ str "-0123456789" := by
  have hdec : dec z.natAbs ⊆ str "-0123456789" :=
    List.Subset.trans (dec_subset z.natAbs) (List.subset_cons_self 45 _)
  unfold decInt
  split
  · exact List.append_subset.2 ⟨by decide, hdec⟩
  · exact hdec

theorem length_dec (x : BitVec 64) : (dec x.toNat).length ≤ 20 :=
  length_digits (by decide) (by decide) (Nat.lt_of_lt_of_le x.isLt (by decide))

theorem length_hex (x : BitVec 64) : (hex x.toNat).length ≤ 16 :=
  length_digits (by decide) (by decide) x.isLt

theorem length_decInt (x : BitVec 32) : (decInt x.toInt).length ≤ 11 := by
  have hx : x.toInt.natAbs < 10 ^ 10 := by
    have := x.isLt
    rw [BitVec.toInt_eq_toNat_cond]
    split <;> omega
  have hdec : (dec x.toInt.natAbs).length ≤ 10 := length_digits (by decide) (by decide) hx
  unfold decInt
  split
  · rw [List.length_append]
    exact Nat.add_le_add (Nat.le_refl 1) hdec
  · exact Nat.le_succ_of_le hdec

theorem padLeft_subset {width : Nat} (hc : c ∈ u) (ht : t ⊆ u) : padLeft c width t ⊆ u := by
  refine List.append_subset.2 ⟨fun b hb => ?_, ht⟩
  rw [List.eq_of_mem_replicate hb]
  exact hc

theorem padRight_subset {width : Nat} (hc : c ∈ u) (ht : t ⊆ u) : padRight c width t ⊆ u := by
  refine List.append_subset.2 ⟨ht, fun b hb => ?_⟩
  rw [List.eq_of_mem_replicate hb]
  exact hc

theorem line_subset (h : t ⊆ u) : t ++ [newline] ⊆ u ++ [newline] :=
  List.append_subset.2
    ⟨List.subset_append_of_subset_left [newline] h, List.subset_append_right u [newline]⟩

theorem length_padLeft {width : Nat} : (padLeft c width t).length = max width t.length := by
  rw [padLeft, List.length_append, List.length_replicate]
  omega

theorem length_padRight {width : Nat} : (padRight c width t).length = max width t.length := by
  rw [padRight, List.length_append, List.length_replicate]
  omega

theorem not_mem_unlines {b : UInt8} {ls : List (List UInt8)} (hb : b ≠ newline)
    (h : ∀ l ∈ ls, b ∉ l) : b ∉ unlines ls := by
  intro hm
  obtain ⟨line, hline, hb'⟩ := List.mem_flatten.1 hm
  obtain ⟨l, hl, rfl⟩ := List.mem_map.1 hline
  rcases List.mem_append.1 hb' with hb' | hb'
  · exact h l hl hb'
  · exact hb (List.mem_singleton.1 hb')

theorem unlines_singleton (l : List UInt8) : unlines [l] = l ++ [newline] := List.append_nil _

theorem unlines_append (ls ms : List (List UInt8)) :
    unlines (ls ++ ms) = unlines ls ++ unlines ms := by
  rw [unlines, List.map_append, List.flatten_append]
  rfl

/-! ## Search -/

theorem strstr_iff : strstr pat t = true ↔ pat <:+: t := by
  induction t with
  | nil => simp [strstr]
  | cons b t ih =>
    rw [strstr, Bool.or_eq_true, ih, List.isPrefixOf_iff_prefix, List.infix_cons_iff]

theorem strstr_eq_false_iff : strstr pat t = false ↔ ¬ pat <:+: t := by
  rw [← strstr_iff, Bool.not_eq_true]

theorem strstr_of_not_subset (h : ¬ pat ⊆ t) : strstr pat t = false :=
  strstr_eq_false_iff.2 fun hin => h hin.subset

theorem strstr_of_not_mem {p : UInt8} (hp : p ∈ pat) (h : p ∉ t) : strstr pat t = false :=
  strstr_of_not_subset fun hsub => h (hsub hp)

/-- Wherever the pattern is laid over the text, they differ inside the text. -/
def apart (pat : List UInt8) : List UInt8 → Bool
  | [] => true
  | b :: t => !pat.isPrefixOf (b :: t) && !(b :: t).isPrefixOf pat && apart pat t

theorem not_isPrefixOf_append {v : List UInt8} (h₁ : pat.isPrefixOf v = false)
    (h₂ : v.isPrefixOf pat = false) (u : List UInt8) : pat.isPrefixOf (v ++ u) = false := by
  rw [← Bool.not_eq_true, List.isPrefixOf_iff_prefix] at h₁ h₂ ⊢
  intro h
  rcases List.prefix_or_prefix_of_prefix h (List.prefix_append v u) with h | h
  · exact h₁ h
  · exact h₂ h

theorem strstr_append (h : apart pat t = true) (u : List UInt8) :
    strstr pat (t ++ u) = strstr pat u := by
  induction t with
  | nil => rfl
  | cons b t ih =>
    simp only [apart, Bool.and_eq_true, Bool.not_eq_true'] at h
    rw [List.cons_append, strstr, ih h.2, ← List.cons_append, not_isPrefixOf_append h.1.1 h.1.2,
      Bool.false_or]

/-- A pattern that differs from the first part of a text and that has a byte which is not in the
rest. -/
theorem strstr_absent (h : apart pat t = true) (hu : ¬ pat ⊆ u) : strstr pat (t ++ u) = false := by
  rw [strstr_append h, strstr_of_not_subset hu]

/-- Text without the first byte of the pattern. -/
theorem strstr_skip {p : UInt8} {ps : List UInt8} (h : p ∉ t) (u : List UInt8) :
    strstr (p :: ps) (t ++ u) = strstr (p :: ps) u := by
  induction t with
  | nil => rfl
  | cons b t ih =>
    have hb : (p == b) = false := beq_eq_false_iff_ne.2 fun hpb => h (hpb ▸ List.mem_cons_self)
    rw [List.cons_append, strstr, ih fun hm => h (List.mem_cons_of_mem b hm), List.isPrefixOf, hb,
      Bool.false_and, Bool.false_or]

/-- Text that is too short for the pattern to get over a byte it does not have. -/
theorem strstr_append_short {b : UInt8} {v : List UInt8} (hb : b ∉ pat)
    (hlen : t.length + v.length < pat.length) (u : List UInt8) :
    strstr pat (t ++ (v ++ b :: u)) = strstr pat (v ++ b :: u) := by
  induction t with
  | nil => rfl
  | cons c t ih =>
    have hno : pat.isPrefixOf (c :: t ++ (v ++ b :: u)) = false := by
      rw [← Bool.not_eq_true, List.isPrefixOf_iff_prefix]
      intro h
      have hsplit : c :: t ++ (v ++ b :: u) = (c :: t ++ v ++ [b]) ++ u := by simp
      rw [hsplit] at h
      have hle : (c :: t ++ v ++ [b]).length ≤ pat.length := by
        simp only [List.length_append, List.length_singleton]
        omega
      have hpre := List.prefix_of_prefix_length_le (List.prefix_append _ u) h hle
      exact hb (hpre.subset (List.mem_append_right _ List.mem_cons_self))
    rw [List.length_cons] at hlen
    rw [List.cons_append, strstr, ← List.cons_append, hno, Bool.false_or, ih (by omega)]

/-- A byte behind the text that the pattern does not have. -/
theorem strstr_concat {b : UInt8} (hb : b ∉ pat) (hne : pat ≠ []) (t : List UInt8) :
    strstr pat (t ++ [b]) = strstr pat t := by
  rw [Bool.eq_iff_iff, strstr_iff, strstr_iff, List.infix_concat_iff]
  refine or_iff_right fun h => hb ?_
  rcases List.suffix_concat_iff.1 h with h | ⟨u, rfl, -⟩
  · exact absurd h hne
  · exact List.mem_append_right u List.mem_cons_self

/-- A byte that the pattern does not have parts the text in two. -/
theorem infix_append_cons_iff {b : UInt8} (hb : b ∉ pat) :
    pat <:+: t ++ b :: u ↔ pat <:+: t ∨ pat <:+: u := by
  rw [List.infix_append_iff, List.infix_cons_iff]
  have hpre : ∀ {l : List UInt8}, b ∉ l → l <+: b :: u → l = [] := by
    intro l hl h
    cases l with
    | nil => rfl
    | cons c l =>
      obtain ⟨rfl, -⟩ := List.cons_prefix_cons.1 h
      exact absurd List.mem_cons_self hl
  constructor
  · rintro (h | (h | h) | ⟨l, r, rfl, hl, hr⟩)
    · exact .inl h
    · rw [hpre hb h]
      exact .inl (List.nil_infix)
    · exact .inr h
    · rw [hpre (fun hm => hb (List.mem_append_right l hm)) hr, List.append_nil]
      exact .inl hl.isInfix
  · rintro (h | h)
    · exact .inl h
    · exact .inr (.inl (.inr h))

theorem flatten_lines (t : List UInt8) : (lines size t).flatten = t := by
  have key : ∀ t cur, (linesFrom size cur t).flatten = cur ++ t := by
    intro t
    induction t with
    | nil =>
      intro cur
      unfold linesFrom
      split
      · rename_i h
        rw [h]
        rfl
      · simp
    | cons b t ih =>
      intro cur
      unfold linesFrom
      split
      · rw [List.flatten_cons, ih]
        simp
      · rw [ih]
        simp
  exact key t []

/-- What is not in a text is in none of its lines. -/
theorem strstr_lines {l : List UInt8} (h : strstr pat t = false) (hl : l ∈ lines size t) :
    strstr pat l = false := by
  rw [strstr_eq_false_iff] at h ⊢
  have hinfix : l <:+: t := by
    have := List.infix_of_mem_flatten hl
    rwa [flatten_lines] at this
  exact fun hp => h (hp.trans hinfix)

end LinuxKernelProg.Lib
