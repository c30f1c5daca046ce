import LinuxKernelProg.Lib.CBuffer

/-!
# Tokens in a buffer

`strtok` with one delimiter. It puts a NUL behind each token that it finds, in the buffer itself,
and goes on behind that NUL at the next call. `strtoks_eq` says which strings the pointers of
several calls lead to when all the calls have been made.
-/

namespace LinuxKernelProg.Lib

namespace CBuffer

/-- A call of `strtok` that starts at the offset `p`: the buffer, where the next call starts, and
what is returned. -/
def strtok (c : UInt8) (buf : List UInt8) (p : Nat) : Option (List UInt8 × Nat × Option Nat) := do
  let token := p + ((buf.drop p).takeWhile (· = c)).length
  let first ← load buf token
  if first = 0 then return (buf, token, none)
  let stop := token + ((buf.drop token).takeWhile fun b => b ≠ c ∧ b ≠ 0).length
  let last ← load buf stop
  if last = 0 then return (buf, stop, some token)
  let cut ← store buf stop 0
  return (cut, stop + 1, some token)

/-- `k` calls, the later ones with `NULL`. -/
def strtoks (c : UInt8) : Nat → List UInt8 → Nat → Option (List UInt8 × List (Option Nat))
  | 0, buf, _ => some (buf, [])
  | k + 1, buf, p => do
    let (buf, p, token) ← strtok c buf p
    let (buf, tokens) ← strtoks c k buf p
    return (buf, token :: tokens)

/-- The pieces of the text that are not empty. -/
def tokens (c : UInt8) (text : List UInt8) : List (List UInt8) := (text.splitOn c).filter (· ≠ [])

variable {c : UInt8} {buf text u v : List UInt8} {p k : Nat}

theorem tokens_last (hu : c ∉ u) : tokens c u = [u].filter (· ≠ []) := by
  rw [tokens, List.splitOn_eq_singleton hu]

theorem tokens_cons (hu : c ∉ u) (v : List UInt8) :
    tokens c (u ++ c :: v) = [u].filter (· ≠ []) ++ tokens c v := by
  rw [tokens, List.splitOn_append_cons_self_of_not_mem hu,
    ← List.singleton_append, List.filter_append]
  rfl

/-- A token is not empty and has no delimiter in it. -/
theorem of_mem_tokens : u ∈ tokens c text → u ≠ [] ∧ c ∉ u := by
  induction text using separated_induction c with
  | last t ht =>
    rw [tokens_last ht]
    intro h
    obtain ⟨hmem, hne⟩ := List.mem_filter.1 h
    rw [List.mem_singleton.1 hmem] at hne ⊢
    exact ⟨of_decide_eq_true hne, ht⟩
  | cons t v ht ih =>
    rw [tokens_cons ht]
    intro h
    rcases List.mem_append.1 h with h | h
    · obtain ⟨hmem, hne⟩ := List.mem_filter.1 h
      rw [List.mem_singleton.1 hmem] at hne ⊢
      exact ⟨of_decide_eq_true hne, ht⟩
    · exact ih h

namespace Holds

theorem tail (h : Holds buf p (c :: v)) : Holds buf (p + 1) v := by
  obtain ⟨rest, hr⟩ := h.drop_eq
  refine ⟨fun hv => h.nul_free (List.mem_cons_of_mem c hv), rest, ?_⟩
  rw [← List.drop_drop, hr]
  simp

/-- A delimiter in front is passed over. -/
theorem strtok_skip (h : Holds buf p (c :: v)) : strtok c buf p = strtok c buf (p + 1) := by
  obtain ⟨rest, hr⟩ := h.drop_eq
  have hdrop : buf.drop p = c :: buf.drop (p + 1) := by
    rw [← List.drop_drop, hr]
    rfl
  have htoken : p + ((buf.drop p).takeWhile (· = c)).length =
      p + 1 + ((buf.drop (p + 1)).takeWhile (· = c)).length := by
    rw [hdrop, List.takeWhile_cons, if_pos (by simp), List.length_cons]
    omega
  simp only [strtok, htoken]

theorem strtok_nil (hc : c ≠ 0) (h : Holds buf p []) : strtok c buf p = some (buf, p, none) := by
  obtain ⟨rest, hr⟩ := h.drop_eq
  have htoken : (buf.drop p).takeWhile (· = c) = [] := by
    rw [hr, List.nil_append, List.takeWhile_cons_of_neg (by simpa using hc.symm)]
  simp only [strtok, htoken, List.length_nil, Nat.add_zero, h.load_eq, List.headD_nil]
  rfl

end Holds

/-- Where a token starts: the byte there, and how far it goes. -/
theorem drop_token (hu : c ∉ u) (hnul : 0 ∉ u) (hne : u ≠ []) {b : UInt8} (hb : b = c ∨ b = 0)
    {rest : List UInt8} (hdrop : buf.drop p = u ++ b :: rest) :
    (buf.drop p).takeWhile (· = c) = [] ∧ (∃ a, load buf p = some a ∧ a ≠ 0) ∧
      (buf.drop p).takeWhile (fun b => b ≠ c ∧ b ≠ 0) = u ∧ load buf (p + u.length) = some b := by
  have hload : ∀ i, load buf (p + i) = (u ++ b :: rest)[i]? := fun i => by
    rw [load, ← List.getElem?_drop, hdrop]
  refine ⟨?_, ?_, ?_, ?_⟩
  · rw [hdrop]
    cases u with
    | nil => exact absurd rfl hne
    | cons a u =>
      have hac : a ≠ c := fun heq => hu (heq ▸ List.mem_cons_self)
      rw [List.cons_append, List.takeWhile_cons_of_neg (by simpa using hac)]
  · cases u with
    | nil => exact absurd rfl hne
    | cons a u => exact ⟨a, hload 0, fun heq => hnul (heq ▸ List.mem_cons_self)⟩
  · have hall : ∀ a ∈ u, decide (a ≠ c ∧ a ≠ 0) = true := fun a ha =>
      decide_eq_true ⟨fun heq => hu (heq ▸ ha), fun heq => hnul (heq ▸ ha)⟩
    have hstop : ¬ (b ≠ c ∧ b ≠ 0) := by
      rcases hb with rfl | rfl <;> simp
    rw [hdrop, List.takeWhile_append_of_pos hall, List.takeWhile_cons,
      if_neg (by simpa using hstop), List.append_nil]
  · rw [hload, List.getElem?_append_right (Nat.le_refl _), Nat.sub_self]
    rfl

namespace Holds

/-- The last token. -/
theorem strtok_last (h : Holds buf p u) (hu : c ∉ u) (hne : u ≠ []) :
    strtok c buf p = some (buf, p + u.length, some p) := by
  obtain ⟨rest, hr⟩ := h.drop_eq
  obtain ⟨hskip, ⟨a, ha, ha₀⟩, hspan, hlast⟩ := drop_token hu h.nul_free hne (.inr rfl) hr
  simp only [strtok, hskip, List.length_nil, Nat.add_zero, ha, hspan, hlast, Option.bind_eq_bind,
    Option.bind_some, if_neg ha₀]
  rfl

/-- A token with a delimiter behind it. -/
theorem strtok_cons (hc : c ≠ 0) (h : Holds buf p (u ++ c :: v)) (hu : c ∉ u) (hne : u ≠ []) :
    strtok c buf p = some (buf.set (p + u.length) 0, p + u.length + 1, some p) := by
  obtain ⟨rest, hr⟩ := h.drop_eq
  rw [List.append_assoc, List.cons_append] at hr
  obtain ⟨hskip, ⟨a, ha, ha₀⟩, hspan, hlast⟩ :=
    drop_token hu (fun hnul => h.nul_free (List.mem_append_left _ hnul)) hne (.inl rfl) hr
  simp only [strtok, hskip, List.length_nil, Nat.add_zero, ha, hspan, hlast, Option.bind_eq_bind,
    Option.bind_some, if_neg ha₀, if_neg hc, h.cut.1]
  rfl

theorem of_take_eq {buf' : List UInt8} (h : Holds buf p u)
    (heq : buf'.take (p + u.length + 1) = buf.take (p + u.length + 1)) : Holds buf' p u := by
  refine ⟨h.nul_free, ?_⟩
  have htake : ∀ b : List UInt8,
      (b.drop p).take (u ++ [0]).length = (b.take (p + u.length + 1)).drop p := by
    intro b
    rw [List.drop_take, List.length_append, List.length_singleton]
    congr 1
    omega
  rw [List.prefix_iff_eq_take, htake, heq, ← htake]
  exact List.prefix_iff_eq_take.1 h.prefix_drop

theorem behind (h : Holds buf p u) : Holds buf (p + u.length) [] := by
  obtain ⟨rest, hr⟩ := h.drop_eq
  refine ⟨List.not_mem_nil, rest, ?_⟩
  rw [← List.drop_drop, hr, List.drop_left]
  rfl

/-- Behind the last token all calls return `NULL`. -/
theorem strtoks_nil (hc : c ≠ 0) (h : Holds buf p []) (k : Nat) :
    strtoks c k buf p = some (buf, List.replicate k none) := by
  induction k with
  | zero => rfl
  | succ k ih =>
    simp only [strtoks, h.strtok_nil hc, ih, Option.bind_eq_bind, Option.bind_some]
    rfl

end Holds

/-- The tokens that `k` calls return; `NULL` behind the last one. -/
def firstTokens (c : UInt8) (text : List UInt8) (k : Nat) : List (Option (List UInt8)) :=
  (List.range k).map fun i => (tokens c text)[i]?

theorem firstTokens_succ {ts : List (List UInt8)} (h : tokens c text = u :: ts)
    (h' : tokens c v = ts) :
    firstTokens c text (k + 1) = some u :: firstTokens c v k := by
  rw [firstTokens, List.range_succ_eq_map, List.map_cons, h, List.map_map, firstTokens, h']
  rfl

theorem firstTokens_nil (h : tokens c text = []) :
    firstTokens c text k = List.replicate k none := by
  rw [firstTokens, h]
  simp

/-- When `k` calls have been made, the pointers lead to the first `k` tokens of the text, and are
`NULL` behind the last one. Nothing in front of the text has changed. -/
theorem strtoks_eq (hc : c ≠ 0) (h : Holds buf p text) (k : Nat) : ∃ buf' pointers,
    strtoks c k buf p = some (buf', pointers) ∧ buf'.take p = buf.take p ∧
      pointers.map (Option.map (string buf')) = (firstTokens c text k).map (Option.map some) := by
  induction text using separated_induction c generalizing buf p k with
  | last u hu =>
    by_cases hne : u = []
    · subst hne
      refine ⟨buf, _, h.strtoks_nil hc k, rfl, ?_⟩
      rw [firstTokens_nil (tokens_last hu), List.map_replicate, List.map_replicate]
      rfl
    · have htokens : tokens c u = [u] := by
        rw [tokens_last hu]
        simp [hne]
      cases k with
      | zero => exact ⟨buf, [], rfl, rfl, rfl⟩
      | succ k =>
        refine ⟨buf, some p :: List.replicate k none, ?_, rfl, ?_⟩
        · simp only [strtoks, h.strtok_last hu hne, h.behind.strtoks_nil hc, Option.bind_eq_bind,
            Option.bind_some]
          rfl
        · have hnil : tokens c ([] : List UInt8) = [] := tokens_last List.not_mem_nil
          rw [firstTokens_succ htokens hnil, firstTokens_nil hnil, List.map_cons, List.map_cons,
            List.map_replicate, List.map_replicate, Option.map_some, h.string_eq]
          rfl
  | cons u v hu ih =>
    cases k with
    | zero => exact ⟨buf, [], rfl, rfl, rfl⟩
    | succ k =>
      by_cases hne : u = []
      · subst hne
        obtain ⟨buf', pointers, heq, htake, hstrings⟩ := ih h.tail (k + 1)
        refine ⟨buf', pointers, ?_, ?_, ?_⟩
        · rw [← heq]
          simp only [strtoks, h.strtok_skip]
        · have := congrArg (List.take p) htake
          simpa [List.take_take] using this
        · have htokens : tokens c ([] ++ c :: v) = tokens c v := tokens_cons hu v
          rw [hstrings, firstTokens, firstTokens, htokens]
      · obtain ⟨-, hleft, hright⟩ := h.cut
        obtain ⟨buf', pointers, heq, htake, hstrings⟩ := ih hright k
        have htokens : tokens c (u ++ c :: v) = u :: tokens c v := by
          rw [tokens_cons hu]
          simp [hne]
        refine ⟨buf', some p :: pointers, ?_, ?_, ?_⟩
        · simp only [strtoks, h.strtok_cons hc hu hne, heq, Option.bind_eq_bind, Option.bind_some]
          rfl
        · have hle := congrArg (List.take p) htake
          rw [List.take_take, List.take_take, Nat.min_eq_left (by omega)] at hle
          rw [hle, List.take_set_of_le (by omega)]
        · rw [firstTokens_succ htokens rfl, List.map_cons, List.map_cons, hstrings, Option.map_some,
            (hleft.of_take_eq htake).string_eq]
          rfl

end CBuffer

end LinuxKernelProg.Lib
