import Mathlib.Data.List.TakeWhile

/-!
# Notifier chains

A chain is the list of its blocks, in the order of their priorities. To walk it is to go from a
block to the one behind it; `rest` is what a walk still has in front of it (`rest_head`,
`rest_next`).
-/

namespace LinuxKernelProg.Lib.NotifierChain

variable {β : Type} [DecidableEq β]

/-- `notifier_chain_register`: a block goes behind those of the same priority. `none` where it is in
the chain already. -/
def register (priority : β → Int) (b : β) : List β → Option (List β)
  | [] => some [b]
  | c :: l =>
    if c = b then none
    else if priority c < priority b then some (b :: c :: l)
    else (register priority b l).map (c :: ·)

/-- `notifier_chain_unregister`; `none` where the block is not in the chain. -/
def unregister (b : β) (l : List β) : Option (List β) := if b ∈ l then some (l.erase b) else none

/-- The blocks from `nb` on. -/
def rest (l : List β) : Option β → List β
  | none => []
  | some b => l.dropWhile (· ≠ b)

/-- `nb->next`. -/
def next (l : List β) (b : β) : Option β := (rest l (some b)).tail.head?

variable {priority : β → Int} {l l' before behind : List β} {b : β}

theorem register_perm (h : register priority b l = some l') : l'.Perm (b :: l) := by
  induction l generalizing l' with
  | nil =>
    cases h
    exact .refl _
  | cons c l ih =>
    rw [register] at h
    split at h
    · nomatch h
    · split at h
      · cases h
        exact .refl _
      · obtain ⟨m, hm, rfl⟩ := Option.map_eq_some_iff.1 h
        exact ((ih hm).cons c).trans (.swap b c l)

/-- To register a block and to take it out again changes nothing. -/
theorem unregister_register (h : register priority b l = some l') : unregister b l' = some l := by
  rw [unregister, if_pos ((register_perm h).mem_iff.2 List.mem_cons_self)]
  apply congrArg some
  induction l generalizing l' with
  | nil =>
    cases h
    exact List.erase_cons_head b []
  | cons c l ih =>
    rw [register] at h
    split at h
    · nomatch h
    · next hne =>
      split at h
      · cases h
        exact List.erase_cons_head b (c :: l)
      · obtain ⟨m, hm, rfl⟩ := Option.map_eq_some_iff.1 h
        rw [List.erase_cons_tail (by simpa using hne), ih hm]

theorem rest_of_notMem (hb : b ∉ before) : rest (before ++ b :: behind) (some b) = b :: behind := by
  have hbefore : ∀ c ∈ before, decide (c ≠ b) = true := fun c hc =>
    decide_eq_true fun heq => hb (heq ▸ hc)
  rw [rest, List.dropWhile_append_of_pos hbefore, List.dropWhile_cons_of_neg (by simp)]

theorem rest_head : rest l l.head? = l := by
  cases l with
  | nil => rfl
  | cons b l => exact @rest_of_notMem β _ [] l b List.not_mem_nil

/-- A walk has a block in front of it, and then what it has at the next one. -/
theorem rest_next (hl : l.Nodup) (hb : b ∈ l) : rest l (some b) = b :: rest l (next l b) := by
  obtain ⟨before, behind, rfl⟩ := List.append_of_mem hb
  obtain ⟨-, hnodup, hapart⟩ := List.nodup_append.1 hl
  have hrest : rest (before ++ b :: behind) (some b) = b :: behind :=
    rest_of_notMem fun hmem => hapart b hmem b List.mem_cons_self rfl
  rw [next, hrest, List.tail_cons]
  cases behind with
  | nil => rfl
  | cons c behind =>
    have hc : c ∉ before ++ [b] := by
      rintro hmem
      rcases List.mem_append.1 hmem with hmem | hmem
      · exact hapart c hmem c (List.mem_cons_of_mem _ List.mem_cons_self) rfl
      · rw [List.mem_singleton.1 hmem] at hnodup
        exact (List.nodup_cons.1 hnodup).1 List.mem_cons_self
    have hsplit : before ++ b :: c :: behind = (before ++ [b]) ++ c :: behind := by simp
    rw [List.head?_cons, hsplit, rest_of_notMem hc]

end LinuxKernelProg.Lib.NotifierChain
