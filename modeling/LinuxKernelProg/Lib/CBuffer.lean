import Mathlib.Data.List.Infix

/-!
# Strings in a buffer

A `char` array of a fixed size, and the functions of `string.h` that read it from an offset on. Each
is `none` when it reads outside of the array, which it does exactly when there is no NUL to stop it.
-/

namespace LinuxKernelProg.Lib

/-! ## Separated text -/

/-- Text is a piece without separators, or one in front of a separator and more text. -/
theorem separated_induction {α : Type} [DecidableEq α] (sep : α) {P : List α → Prop}
    (last : ∀ u, sep ∉ u → P u) (cons : ∀ u v, sep ∉ u → P v → P (u ++ sep :: v))
    (text : List α) : P text := by
  induction hn : text.length using Nat.strong_induction_on generalizing text with
  | _ n ih =>
    by_cases hsep : sep ∈ text
    · obtain ⟨u, v, rfl, hu⟩ := List.eq_append_cons_of_mem hsep
      refine cons u v hu (ih v.length ?_ v rfl)
      rw [← hn, List.length_append, List.length_cons]
      omega
    · exact last text hsep

theorem separated_inj {α : Type} {sep : α} {u : List α} : ∀ {u' v v' : List α}, sep ∉ u → sep ∉ u' →
    u ++ sep :: v = u' ++ sep :: v' → u = u' ∧ v = v' := by
  induction u with
  | nil =>
    intro u' v v' _ hu' h
    cases u' with
    | nil => exact ⟨rfl, (List.cons.inj h).2⟩
    | cons b u' =>
      obtain ⟨rfl, -⟩ := List.cons.inj h
      exact absurd List.mem_cons_self hu'
  | cons a u ih =>
    intro u' v v' hu hu' h
    cases u' with
    | nil =>
      obtain ⟨rfl, -⟩ := List.cons.inj h
      exact absurd List.mem_cons_self hu
    | cons b u' =>
      obtain ⟨hab, hrest⟩ := List.cons.inj h
      subst hab
      obtain ⟨rfl, hv⟩ := ih (fun hm => hu (List.mem_cons_of_mem a hm))
        (fun hm => hu' (List.mem_cons_of_mem a hm)) hrest
      exact ⟨rfl, hv⟩

namespace CBuffer

/-- The bytes in front of the first NUL. -/
def scan : List UInt8 → Option (List UInt8)
  | [] => none
  | b :: rest => if b = 0 then some [] else (scan rest).map (b :: ·)

/-- Where the first `c` in front of the NUL is, if there is one. -/
def scanChr (c : UInt8) : List UInt8 → Option (Option Nat)
  | [] => none
  | b :: rest =>
    if b = c then some (some 0)
    else if b = 0 then some none
    else (scanChr c rest).map (Option.map (· + 1))

variable (buf : List UInt8) (p : Nat)

/-- `buf[p]` -/
def load : Option UInt8 := buf[p]?

/-- `buf[p] = b` -/
def store (b : UInt8) : Option (List UInt8) := if p < buf.length then some (buf.set p b) else none

/-- What `%s` prints. -/
def string : Option (List UInt8) := scan (buf.drop p)

def strlen : Option Nat := (string buf p).map List.length

/-- `none` inside is `NULL`. -/
def strchr (c : UInt8) : Option (Option Nat) := (scanChr c (buf.drop p)).map (Option.map (p + ·))

/-- The string `s` and its NUL are at the offset. -/
structure Holds (s : List UInt8) : Prop where
  nul_free : 0 ∉ s
  prefix_drop : s ++ [0] <+: buf.drop p

variable {buf : List UInt8} {p : Nat} {c : UInt8} {s u v : List UInt8}

theorem scan_append (h : 0 ∉ s) (rest : List UInt8) : scan (s ++ 0 :: rest) = some s := by
  induction s with
  | nil => rfl
  | cons b s ih =>
    obtain ⟨hb, hs⟩ := not_or.1 (mt List.mem_cons.2 h)
    rw [List.cons_append, scan, if_neg (Ne.symm hb), ih hs, Option.map_some]

theorem scan_eq_none (h : 0 ∉ s) : scan s = none := by
  induction s with
  | nil => rfl
  | cons b s ih =>
    obtain ⟨hb, hs⟩ := not_or.1 (mt List.mem_cons.2 h)
    rw [scan, if_neg (Ne.symm hb), ih hs, Option.map_none]

theorem scanChr_append (h : 0 ∉ u) (hc : c ∉ u) (rest : List UInt8) :
    scanChr c (u ++ c :: rest) = some (some u.length) := by
  induction u with
  | nil => simp [scanChr]
  | cons b u ih =>
    obtain ⟨hb, hu⟩ := not_or.1 (mt List.mem_cons.2 h)
    obtain ⟨hcb, hcu⟩ := not_or.1 (mt List.mem_cons.2 hc)
    rw [List.cons_append, scanChr, if_neg (Ne.symm hcb), if_neg (Ne.symm hb), ih hu hcu]
    rfl

theorem scanChr_eq_none (h : 0 ∉ s) (hc : c ∉ s) (hc₀ : c ≠ 0) (rest : List UInt8) :
    scanChr c (s ++ 0 :: rest) = some none := by
  induction s with
  | nil => simp [scanChr, Ne.symm hc₀]
  | cons b s ih =>
    obtain ⟨hb, hs⟩ := not_or.1 (mt List.mem_cons.2 h)
    obtain ⟨hcb, hcs⟩ := not_or.1 (mt List.mem_cons.2 hc)
    rw [List.cons_append, scanChr, if_neg (Ne.symm hcb), if_neg (Ne.symm hb), ih hs hcs]
    rfl

/-- A NUL behind the text that is copied to the start of a buffer. -/
theorem store_append {t : List UInt8} (hlt : t.length < buf.length) :
    store (t ++ buf.drop t.length) t.length 0 = some (t ++ 0 :: buf.drop (t.length + 1)) := by
  unfold store
  rw [if_pos, List.set_append_right _ _ (Nat.le_refl _), Nat.sub_self,
    List.drop_eq_getElem_cons hlt]
  · rfl
  · rw [List.length_append, List.length_drop]
    omega

namespace Holds

theorem drop_eq (h : Holds buf p s) : ∃ rest, buf.drop p = s ++ 0 :: rest := by
  obtain ⟨rest, hr⟩ := h.prefix_drop
  exact ⟨rest, by rw [← hr, List.append_assoc, List.singleton_append]⟩

theorem mk_append (h : 0 ∉ s) (rest : List UInt8) : Holds (s ++ 0 :: rest) 0 s :=
  ⟨h, rest, by simp⟩

/-- The string ends at the first NUL of the text. -/
theorem mk_takeWhile (t rest : List UInt8) : Holds (t ++ 0 :: rest) 0 (t.takeWhile (· ≠ 0)) := by
  induction t with
  | nil => exact mk_append List.not_mem_nil rest
  | cons b t ih =>
    by_cases hb : b = 0
    · rw [hb, List.takeWhile_cons, if_neg (by simp)]
      exact mk_append List.not_mem_nil (t ++ 0 :: rest)
    · rw [List.takeWhile_cons, if_pos (decide_eq_true hb)]
      refine ⟨fun h => ?_, List.cons_prefix_cons.2 ⟨rfl, ih.prefix_drop⟩⟩
      rcases List.mem_cons.1 h with h | h
      · exact hb h.symm
      · exact ih.nul_free h

theorem lt_length (h : Holds buf p s) : p + s.length < buf.length := by
  have hlen := h.prefix_drop.length_le
  rw [List.length_append, List.length_singleton, List.length_drop] at hlen
  omega

theorem string_eq (h : Holds buf p s) : string buf p = some s := by
  obtain ⟨rest, hr⟩ := h.drop_eq
  rw [string, hr, scan_append h.nul_free]

theorem strlen_eq (h : Holds buf p s) : strlen buf p = some s.length := by
  rw [strlen, h.string_eq, Option.map_some]

theorem load_eq (h : Holds buf p s) : load buf p = some (s.headD 0) := by
  obtain ⟨rest, hr⟩ := h.drop_eq
  rw [load, ← Nat.add_zero p, ← List.getElem?_drop, hr]
  cases s <;> rfl

theorem strchr_eq_none (h : Holds buf p s) (hc : c ∉ s) (hc₀ : c ≠ 0) :
    strchr buf p c = some none := by
  obtain ⟨rest, hr⟩ := h.drop_eq
  rw [strchr, hr, scanChr_eq_none h.nul_free hc hc₀]
  rfl

theorem strchr_eq (h : Holds buf p (u ++ c :: v)) (hc : c ∉ u) :
    strchr buf p c = some (some (p + u.length)) := by
  obtain ⟨rest, hr⟩ := h.drop_eq
  rw [strchr, hr, List.append_assoc, List.cons_append,
    scanChr_append (fun hu => h.nul_free (List.mem_append_left _ hu)) hc]
  rfl

/-- A NUL over a byte of the string makes two strings of it. -/
theorem cut (h : Holds buf p (u ++ c :: v)) :
    store buf (p + u.length) 0 = some (buf.set (p + u.length) 0) ∧
      Holds (buf.set (p + u.length) 0) p u ∧
        Holds (buf.set (p + u.length) 0) (p + u.length + 1) v := by
  have hlt := h.lt_length
  rw [List.length_append, List.length_cons] at hlt
  obtain ⟨rest, hr⟩ := h.drop_eq
  refine ⟨if_pos (by omega), ⟨fun hu => h.nul_free (List.mem_append_left _ hu), v ++ 0 :: rest, ?_⟩,
    ⟨fun hv => h.nul_free (List.mem_append_right _ (List.mem_cons_of_mem c hv)), rest, ?_⟩⟩
  · rw [List.drop_set, if_neg (by omega), Nat.add_sub_cancel_left, hr]
    simp
  · rw [List.drop_set, if_pos (by omega), Nat.add_assoc, ← List.drop_drop, hr]
    simp

end Holds

end CBuffer

end LinuxKernelProg.Lib
