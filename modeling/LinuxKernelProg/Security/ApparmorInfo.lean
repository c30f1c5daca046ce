import LinuxKernelProg.Lib.CBuffer
import LinuxKernelProg.Lib.CString
import LinuxKernelProg.Lib.Loop
import LinuxKernelProg.Lib.Text

/-!
# The loaded profiles

`show_loaded_profiles` of `part1/apparmour/apparmor_info.c` reads the list of the profiles into a
page and prints the first 20 lines that are not empty. It cuts the page into strings as it goes.
-/

namespace LinuxKernelProg.Security

open LinuxKernelProg.Lib
open LinuxKernelProg.Lib.CBuffer

/-! ## Reading the file -/

/-- What `kernel_read(fp, buf, count, &pos)` can read from the start of a file. -/
structure KernelRead (file : List UInt8) (count : Nat) where
  len : Nat
  le_count : len ≤ count
  le_length : len ≤ file.length
  pos : 0 < count → file ≠ [] → 0 < len

/-- An error is the one of `filp_open` or `kernel_read`. `none` is a store outside of the buffer. -/
def read_file_content {file : List UInt8} {size : Nat} (buf : List UInt8)
    (read : Except Int (KernelRead file (size - 1))) : Option (Int × List UInt8) :=
  match read with
  | .error e => some (e, buf)
  | .ok r =>
    let buf := file.take r.len ++ buf.drop r.len
    if 0 < r.len then (store buf r.len 0).map fun buf => (r.len, buf) else some (r.len, buf)

/-! ## Printing the lines -/

structure Listing where
  buf : List UInt8
  line : Option Nat
  count : Nat
  m : List UInt8

/-- Lines 84-93, with `*line` read. -/
def Listing.cut (s : Listing) (line : Nat) : Option Listing := do
  let next ← strchr s.buf line newline
  let buf ← match next with
    | some next => store s.buf next 0
    | none => some s.buf
  let len ← strlen buf line
  if 0 < len then
    let text ← string buf line
    some ⟨buf, next.map (· + 1), s.count + 1, s.m ++ (text ++ [newline])⟩
  else some ⟨buf, next.map (· + 1), s.count, s.m⟩

/-- The loop of lines 83-94; `some none` is a read or a store outside of the buffer. -/
def Listing.body : Option Listing → Option (Option Listing)
  | none => none
  | some s =>
    match s.line with
    | none => none
    | some line =>
      match load s.buf line with
      | none => some none
      | some b => if b ≠ 0 ∧ s.count < 20 then some (s.cut line) else none

def header : List UInt8 :=
  str "\n=== LOADED APPARMOR PROFILES ===\n" ++
    (padRight 32 40 (str "Profile Name") ++ str " Mode\n") ++
      (padRight 32 40 (str "------------") ++ str " ----\n")

def total (count : Nat) : List UInt8 :=
  if count = 0 then str "  (No profiles loaded)\n"
  else str "\nTotal profiles shown: " ++ dec count ++ [newline]

/-- What is printed; `none` when the fuel is used up, `some none` when memory outside of the buffer
is used. -/
def show_loaded_profiles {file : List UInt8} (fuel : Nat) (kmalloc : Option (Vector UInt8 4096))
    (read : Except Int (KernelRead file (4096 - 1))) : Option (Option (List UInt8)) :=
  match kmalloc with
  | none => some (some [])
  | some buf =>
    match read_file_content buf.toList read with
    | none => some none
    | some (len, buf) =>
      if len ≤ 0 then some (some [])
      else
        (loop Listing.body fuel (some ⟨buf, some 0, 0, header⟩)).map
          fun s => s.map fun s => s.m ++ total s.count

/-! ## The profiles of a file -/

/-- The lines that are not empty. -/
def profiles (file : List UInt8) : List (List UInt8) := (file.splitOn newline).filter (· ≠ [])

def listing (ps : List (List UInt8)) : List UInt8 := header ++ unlines ps ++ total ps.length

/-- It returns, and has printed the first 20 profiles and their number. -/
def Listed {file : List UInt8} (kmalloc : Option (Vector UInt8 4096))
    (read : Except Int (KernelRead file (4096 - 1))) : Prop :=
  ∃ fuel, show_loaded_profiles fuel kmalloc read = some (some (listing ((profiles file).take 20)))

/-- Where the lines that are not empty end, in the text that has the first line at `p`. -/
def ends : Nat → List (List UInt8) → List Nat
  | _, [] => []
  | p, l :: ls => if l = [] then ends (p + 1) ls else (p + l.length) :: ends (p + l.length + 1) ls

/-- The first 20 profiles end within the bytes that are read. -/
def Fits (file : List UInt8) (len : Nat) : Prop :=
  ∀ e ∈ (ends 0 (file.splitOn newline)).take 20, e ≤ len

variable {file text u v : List UInt8}

theorem profiles_last (hu : newline ∉ u) : profiles u = [u].filter (· ≠ []) := by
  rw [profiles, List.splitOn_eq_singleton hu]

theorem profiles_cons (hu : newline ∉ u) (v : List UInt8) :
    profiles (u ++ newline :: v) = [u].filter (· ≠ []) ++ profiles v := by
  rw [profiles, List.splitOn_append_cons_self_of_not_mem hu, ← List.singleton_append,
    List.filter_append]
  rfl

theorem filter_singleton (u : List UInt8) : [u].filter (· ≠ []) = if u = [] then [] else [u] := by
  cases u <;> rfl

/-! ## The loop -/

/-- The state in front of the next line, the one at `p` being the string `u`. -/
def Listing.next (s : Listing) (buf : List UInt8) (line : Option Nat) (u : List UInt8) :
    Listing where
  buf := buf
  line := line
  count := s.count + ([u].filter (· ≠ [])).length
  m := s.m ++ unlines ([u].filter (· ≠ []))

section

variable {s : Listing} {p : Nat}

theorem Listing.next_eq (s : Listing) (buf : List UInt8) (line : Option Nat) (u : List UInt8) :
    (if 0 < u.length then some ⟨buf, line, s.count + 1, s.m ++ (u ++ [newline])⟩
      else some ⟨buf, line, s.count, s.m⟩) =
      some (s.next buf line u) := by
  unfold Listing.next
  rw [filter_singleton]
  cases u with
  | nil => simp [unlines]
  | cons b u => simp [unlines]

/-- A line that ends with a newline. -/
theorem Listing.cut_cons (h : Holds s.buf p (u ++ newline :: v)) (hu : newline ∉ u) :
    s.cut p = some (s.next (s.buf.set (p + u.length) 0) (some (p + u.length + 1)) u) := by
  obtain ⟨hstore, hleft, -⟩ := h.cut
  rw [← Listing.next_eq]
  simp only [Listing.cut, h.strchr_eq hu, hstore, hleft.strlen_eq, hleft.string_eq,
    Option.bind_eq_bind, Option.bind_some, Option.map_some]

/-- The last line. -/
theorem Listing.cut_last (h : Holds s.buf p u) (hu : newline ∉ u) :
    s.cut p = some (s.next s.buf none u) := by
  rw [← Listing.next_eq]
  simp only [Listing.cut, h.strchr_eq_none hu (by decide), h.strlen_eq, h.string_eq,
    Option.bind_eq_bind, Option.bind_some, Option.map_none]

theorem Listing.body_some (hline : s.line = some p) (h : Holds s.buf p text) :
    Listing.body (some s) = if text ≠ [] ∧ s.count < 20 then some (s.cut p) else none := by
  have hne : text.headD 0 ≠ 0 ↔ text ≠ [] := by
    cases text with
    | nil => simp
    | cons b rest =>
      have hb : b ≠ 0 := fun hb => h.nul_free (hb ▸ List.mem_cons_self)
      simpa using hb
  simp only [Listing.body, hline, h.load_eq, hne]

/-- What the loop does to the text that is left. -/
theorem Listing.exits (text : List UInt8) :
    ∀ (s : Listing) (p : Nat), s.line = some p → Holds s.buf p text →
      ∃ t, Exits Listing.body (some s) (some t) ∧
        t.m = s.m ++ unlines ((profiles text).take (20 - s.count)) ∧
        t.count = s.count + ((profiles text).take (20 - s.count)).length := by
  induction text using separated_induction newline with
  | last u hu =>
    intro s p hline h
    have hbody := Listing.body_some hline h
    rw [profiles_last hu, filter_singleton]
    by_cases hgo : u ≠ [] ∧ s.count < 20
    · rw [if_pos hgo, Listing.cut_last h hu] at hbody
      refine ⟨_, (exits_of_none rfl).step hbody, ?_⟩
      have htake : [u].take (20 - s.count) = [u] := List.take_of_length_le (by simp; omega)
      rw [if_neg hgo.1, htake]
      simp [Listing.next, hgo.1]
    · rw [if_neg hgo] at hbody
      refine ⟨s, exits_of_none hbody, ?_⟩
      have htake : (if u = [] then [] else [u]).take (20 - s.count) = [] := by
        split
        · exact List.take_nil
        · rename_i hne
          rw [Nat.sub_eq_zero_of_le (Nat.le_of_not_lt fun hlt => hgo ⟨hne, hlt⟩), List.take_zero]
      simp [htake, unlines]
  | cons u v hu ih =>
    intro s p hline h
    have hbody := Listing.body_some hline h
    rw [profiles_cons hu]
    by_cases hcount : s.count < 20
    · rw [if_pos ⟨by simp, hcount⟩, Listing.cut_cons h hu] at hbody
      obtain ⟨t, ht, hm, hc⟩ :=
        ih (s.next (s.buf.set (p + u.length) 0) (some (p + u.length + 1)) u) _ rfl h.cut.2.2
      have hone : ([u].filter (· ≠ [])).length ≤ 20 - s.count :=
        Nat.le_trans (List.length_filter_le _ _)
          (Nat.le_sub_of_add_le (by simpa [Nat.add_comm] using hcount))
      refine ⟨t, ht.step hbody, ?_⟩
      rw [hm, hc, List.take_append, List.take_of_length_le hone]
      simp only [Listing.next, unlines_append, List.length_append, List.append_assoc, Nat.sub_sub,
        Nat.add_assoc, and_self]
    · rw [if_neg (fun h => hcount h.2)] at hbody
      refine ⟨s, exits_of_none hbody, ?_⟩
      simp [Nat.sub_eq_zero_of_le (Nat.not_lt.1 hcount), unlines]

end

/-! ## The file -/

/-- `buf[len] = '\0'` behind what was read. -/
theorem KernelRead.store_eq {count : Nat} {buf : List UInt8} (r : KernelRead file count)
    (hlt : r.len < buf.length) :
    store (file.take r.len ++ buf.drop r.len) r.len 0 =
      some (file.take r.len ++ 0 :: buf.drop (r.len + 1)) := by
  have htake : (file.take r.len).length = r.len := List.length_take_of_le r.le_length
  have hstore := store_append (t := file.take r.len) (htake.symm ▸ hlt)
  rwa [htake] at hstore

/-- The string in the buffer is what was read. -/
theorem read_file_content_eq {size : Nat} {buf : List UInt8} (hbuf : buf.length = size)
    (hsize : 1 < size) (hne : file ≠ [])
    (r : KernelRead file (size - 1)) :
    ∃ rest, read_file_content buf (.ok r) = some ((r.len : Int), file.take r.len ++ 0 :: rest) := by
  have hpos : 0 < r.len := r.pos (by omega) hne
  have hle := r.le_count
  refine ⟨buf.drop (r.len + 1), ?_⟩
  simp only [read_file_content, if_pos hpos, r.store_eq (by omega : r.len < buf.length),
    Option.map_some]

/-- **What is printed**: the profiles of the bytes that are read. Nothing outside of the buffer is
used. -/
theorem show_loaded_profiles_eq (hfile : 0 ∉ file) (hne : file ≠ []) (buf : Vector UInt8 4096)
    (r : KernelRead file (4096 - 1)) :
    ∃ fuel, show_loaded_profiles fuel (some buf) (.ok r) =
      some (some (listing ((profiles (file.take r.len)).take 20))) := by
  obtain ⟨rest, hread⟩ := read_file_content_eq buf.length_toList (by decide) hne r
  have hlen : ¬ (r.len : Int) ≤ 0 := by
    have := r.pos (by decide) hne
    omega
  have hholds : Holds (file.take r.len ++ 0 :: rest) 0 (file.take r.len) :=
    Holds.mk_append (fun h => hfile (List.mem_of_mem_take h)) rest
  obtain ⟨t, ⟨fuel, ht⟩, hm, hc⟩ :=
    Listing.exits (file.take r.len) ⟨file.take r.len ++ 0 :: rest, some 0, 0, header⟩ 0 rfl hholds
  refine ⟨fuel, ?_⟩
  simp only [show_loaded_profiles, hread, if_neg hlen, ht, Option.map_some, hm, hc, listing,
    Nat.sub_zero, Nat.zero_add]

theorem show_loaded_profiles_nil (fuel : Nat) (buf : Vector UInt8 4096)
    (r : KernelRead [] (4096 - 1)) :
    show_loaded_profiles fuel (some buf) (.ok r) = some (some []) := by
  have hlen : r.len = 0 := Nat.le_zero.1 r.le_length
  simp [show_loaded_profiles, read_file_content, hlen]

theorem show_loaded_profiles_unique {kmalloc : Option (Vector UInt8 4096)}
    {read : Except Int (KernelRead file (4096 - 1))}
    {fuel fuel' : Nat} {o o' : Option (List UInt8)}
      (h : show_loaded_profiles fuel kmalloc read = some o)
    (h' : show_loaded_profiles fuel' kmalloc read = some o') : o = o' := by
  unfold show_loaded_profiles at h h'
  cases kmalloc with
  | none => exact Option.some.inj (h.symm.trans h')
  | some buf =>
    dsimp only at h h'
    cases hread : read_file_content buf.toList read with
    | none =>
      rw [hread] at h h'
      exact Option.some.inj (h.symm.trans h')
    | some r =>
      rw [hread] at h h'
      dsimp only at h h'
      split at h
      · rename_i hlen
        rw [if_pos hlen] at h'
        exact Option.some.inj (h.symm.trans h')
      · rename_i hlen
        rw [if_neg hlen] at h'
        obtain ⟨t, ht, rfl⟩ := Option.map_eq_some_iff.1 h
        obtain ⟨t', ht', rfl⟩ := Option.map_eq_some_iff.1 h'
        rw [loop_unique ht ht']

theorem unlines_cons_append (l : List UInt8) (ls : List (List UInt8)) (t : List UInt8) :
    unlines (l :: ls) ++ t = l ++ newline :: (unlines ls ++ t) := by
  simp [unlines]

/-- Lines that are not empty can be told from what comes behind an empty line. -/
theorem unlines_append_inj {ps : List (List UInt8)} : ∀ {qs : List (List UInt8)} {t u : List UInt8},
    (∀ l ∈ ps, l ≠ [] ∧ newline ∉ l) → (∀ l ∈ qs, l ≠ [] ∧ newline ∉ l) →
    unlines ps ++ newline :: t = unlines qs ++ newline :: u → ps = qs := by
  induction ps with
  | nil =>
    intro qs t u _ hq h
    cases qs with
    | nil => rfl
    | cons l qs =>
      obtain ⟨hl, hnl⟩ := hq l List.mem_cons_self
      rw [unlines_cons_append] at h
      exact absurd (separated_inj (u := []) List.not_mem_nil hnl h).1 hl.symm
  | cons l ps ih =>
    intro qs t u hp hq h
    obtain ⟨hl, hnl⟩ := hp l List.mem_cons_self
    cases qs with
    | nil =>
      rw [unlines_cons_append] at h
      exact absurd (separated_inj hnl (List.not_mem_nil : newline ∉ []) h).1 hl
    | cons l' qs =>
      rw [unlines_cons_append, unlines_cons_append] at h
      obtain ⟨rfl, hrest⟩ := separated_inj hnl (hq l' List.mem_cons_self).2 h
      rw [ih (fun l h => hp l (List.mem_cons_of_mem _ h))
        (fun l h => hq l (List.mem_cons_of_mem _ h)) hrest]

theorem total_pos {count : Nat} (h : count ≠ 0) : ∃ t, total count = newline :: t :=
  ⟨str "Total profiles shown: " ++ dec count ++ [newline], if_neg h⟩

/-- A listing without lines is different from one with lines. -/
theorem listing_ne_nil {ps : List (List UInt8)} (hp : ∀ l ∈ ps, l ≠ [] ∧ newline ∉ l)
    (h : listing [] = listing ps) :
    ps = [] := by
  cases ps with
  | nil => rfl
  | cons l ps =>
    obtain ⟨t, ht⟩ := total_pos (Nat.succ_ne_zero ps.length)
    have hnil : listing [] = header ++ (str "  (No profiles loaded)" ++ newline :: []) := rfl
    rw [hnil, listing, List.length_cons, ht, List.append_assoc, unlines_cons_append] at h
    have hnone : newline ∉ str "  (No profiles loaded)" := by decide
    have hrest := (separated_inj hnone (hp l List.mem_cons_self).2 (List.append_cancel_left h)).2
    exact absurd hrest.symm (List.append_ne_nil_of_right_ne_nil _ (List.cons_ne_nil _ _))

theorem listing_ne_empty (ps : List (List UInt8)) : listing ps ≠ [] := by
  simp [listing, header, str]

/-- The lines of a listing can be read back. -/
theorem listing_inj {ps qs : List (List UInt8)} (hp : ∀ l ∈ ps, l ≠ [] ∧ newline ∉ l)
    (hq : ∀ l ∈ qs, l ≠ [] ∧ newline ∉ l)
    (h : listing ps = listing qs) : ps = qs := by
  by_cases hps : ps = []
  · subst hps
    exact (listing_ne_nil hq h).symm
  · by_cases hqs : qs = []
    · subst hqs
      exact listing_ne_nil hp h.symm
    · obtain ⟨t, ht⟩ := total_pos (mt List.length_eq_zero_iff.1 hps)
      obtain ⟨u, hu⟩ := total_pos (mt List.length_eq_zero_iff.1 hqs)
      rw [listing, listing, ht, hu, List.append_assoc, List.append_assoc] at h
      exact unlines_append_inj hp hq (List.append_cancel_left h)

theorem mem_profiles {l : List UInt8} (h : l ∈ profiles text) : l ≠ [] ∧ newline ∉ l := by
  induction text using separated_induction newline with
  | last u hu =>
    rw [profiles_last hu, List.mem_filter, List.mem_singleton] at h
    obtain ⟨rfl, hl⟩ := h
    exact ⟨of_decide_eq_true hl, hu⟩
  | cons u v hu ih =>
    rw [profiles_cons hu, List.mem_append, List.mem_filter, List.mem_singleton] at h
    rcases h with ⟨rfl, hl⟩ | h
    · exact ⟨of_decide_eq_true hl, hu⟩
    · exact ih h

/-! ## The bytes that are read -/

theorem lt_of_mem_ends {e : Nat} {ls : List (List UInt8)} : ∀ {p}, e ∈ ends p ls → p < e := by
  induction ls with
  | nil =>
    intro p h
    cases h
  | cons l ls ih =>
    intro p h
    rw [ends] at h
    split at h
    · exact Nat.lt_of_succ_lt (ih h)
    · rename_i hl
      have := List.length_pos_iff.2 hl
      rcases List.mem_cons.1 h with rfl | h
      · omega
      · have := ih h
        omega

theorem length_ends (p : Nat) (text : List UInt8) :
    (ends p (text.splitOn newline)).length = (profiles text).length := by
  unfold profiles
  induction text.splitOn newline generalizing p with
  | nil => rfl
  | cons l ls ih =>
    rw [ends, List.filter_cons]
    by_cases hl : l = []
    · simp [hl, ih]
    · simp [hl, ih]

/-- There is no line left, in front of a point that is not behind the first one. -/
theorem take_ends_iff (k : Nat) {p n : Nat} (hn : n ≤ p) (text : List UInt8) :
    (∀ e ∈ (ends p (text.splitOn newline)).take k, e ≤ n) ↔ (profiles text).take k = [] := by
  rw [List.take_eq_nil_iff, ← List.length_eq_zero_iff, ← length_ends p text,
    List.length_eq_zero_iff, ← List.take_eq_nil_iff]
  constructor
  · intro h
    refine List.eq_nil_iff_forall_not_mem.2 fun e he => ?_
    have := lt_of_mem_ends (List.mem_of_mem_take he)
    have := h e he
    omega
  · intro h
    rw [h]
    exact fun e he => (List.not_mem_nil he).elim

/-- The first bytes of a line are the line only if they are all of it. -/
theorem cut_line_iff (hu : u ≠ []) (len k : Nat) (rest : List (List UInt8)) :
    ([u.take len].filter (· ≠ [])).take (k + 1) = u :: rest ↔ u.length ≤ len ∧ rest = [] := by
  rw [filter_singleton]
  by_cases hcut : u.take len = []
  · have hlen : ¬ u.length ≤ len := fun h => hu (List.take_of_length_le h ▸ hcut)
    simp [hcut, hlen]
  · rw [if_neg hcut, List.take_succ_cons, List.take_nil, List.cons.injEq, List.take_eq_self_iff,
      eq_comm (a := [])]

/-- The lines of the first bytes are those of the text exactly when these end there. -/
theorem take_profiles_eq_iff (text : List UInt8) : ∀ k p len,
    (profiles (text.take len)).take k = (profiles text).take k ↔
      ∀ e ∈ (ends p (text.splitOn newline)).take k, e ≤ p + len := by
  induction text using separated_induction newline with
  | last u hu =>
    intro k p len
    have hcut : newline ∉ u.take len := fun h => hu (List.mem_of_mem_take h)
    rw [profiles_last hu, profiles_last hcut, List.splitOn_eq_singleton hu, filter_singleton u]
    cases k with
    | zero => simp
    | succ k =>
      by_cases hne : u = []
      · simp [hne, ends]
      · rw [if_neg hne, List.take_succ_cons, List.take_nil, cut_line_iff hne]
        simp [hne, ends]
  | cons u v hu ih =>
    intro k p len
    rw [profiles_cons hu, List.splitOn_append_cons_self_of_not_mem hu, filter_singleton, ends]
    by_cases hlen : len ≤ u.length
    · -- the rest of the text is not read
      have hcut : newline ∉ u.take len := fun h => hu (List.mem_of_mem_take h)
      rw [List.take_append_of_le_length hlen, profiles_last hcut]
      by_cases hne : u = []
      · rw [if_pos hne, if_pos hne, hne, List.take_nil, List.nil_append,
          take_ends_iff k (by simp [hne] at hlen; omega), eq_comm]
        exact Iff.of_eq (congrArg _ List.take_nil)
      · rw [if_neg hne, if_neg hne]
        cases k with
        | zero => simp
        | succ k =>
          rw [List.singleton_append, List.take_succ_cons, cut_line_iff hne, List.take_succ_cons,
            List.forall_mem_cons, take_ends_iff k (by omega), Nat.add_le_add_iff_left]
    · obtain ⟨n, rfl⟩ : ∃ n, len = u.length + 1 + n := ⟨len - (u.length + 1), by omega⟩
      have htake : (u ++ newline :: v).take (u.length + 1 + n) = u ++ newline :: v.take n := by
        rw [Nat.add_assoc, List.take_length_add_append, Nat.add_comm 1 n, List.take_succ_cons]
      rw [htake, profiles_cons hu, filter_singleton]
      by_cases hne : u = []
      · rw [if_pos hne, if_pos hne, List.nil_append, List.nil_append, ih k (p + 1) n, hne,
          List.length_nil, Nat.zero_add,
          Nat.add_assoc]
      · rw [if_neg hne, if_neg hne]
        cases k with
        | zero => simp
        | succ k =>
          rw [List.singleton_append, List.singleton_append, List.take_succ_cons,
            List.take_succ_cons, List.take_succ_cons, List.forall_mem_cons, List.cons.injEq,
            ih k (p + u.length + 1) n, Nat.add_assoc p, Nat.add_assoc p]
          constructor
          · rintro ⟨-, h⟩
            exact ⟨by omega, h⟩
          · rintro ⟨-, h⟩
            exact ⟨rfl, h⟩

/-- **The first 20 profiles** are printed whole exactly when there are bytes in the file and the
profiles end within those that are read. -/
theorem listed_iff (file : CString) (buf : Vector UInt8 4096)
    (r : KernelRead file.bytes (4096 - 1)) :
    Listed (some buf) (.ok r) ↔ file.bytes ≠ [] ∧ Fits file.bytes r.len := by
  by_cases hne : file.bytes = []
  · refine iff_of_false ?_ fun h => h.1 hne
    rintro ⟨fuel, hfuel⟩
    obtain ⟨bytes, hbytes⟩ := file
    subst hne
    rw [show_loaded_profiles_nil fuel buf r] at hfuel
    exact listing_ne_empty _ (Option.some.inj (Option.some.inj hfuel)).symm
  · obtain ⟨fuel, hfuel⟩ := show_loaded_profiles_eq file.nul_free hne buf r
    have hiff := take_profiles_eq_iff file.bytes 20 0 r.len
    rw [Nat.zero_add] at hiff
    rw [Fits, ← hiff]
    constructor
    · rintro ⟨fuel', hfuel'⟩
      refine ⟨hne, listing_inj ?_ ?_ (Option.some.inj (show_loaded_profiles_unique hfuel hfuel'))⟩
      · exact fun l hl => mem_profiles (List.mem_of_mem_take hl)
      · exact fun l hl => mem_profiles (List.mem_of_mem_take hl)
    · rintro ⟨-, h⟩
      exact ⟨fuel, by rw [hfuel, h]⟩

/-- A full page is read of a file with one long line. -/
def KernelRead.ofLong : KernelRead (List.replicate 4096 97) (4096 - 1) where
  len := 4095
  le_count := Nat.le_refl 4095
  le_length := by
    rw [List.length_replicate]
    exact Nat.le_succ 4095
  pos _ _ := Nat.succ_pos 4094

/-- A profile that does not end within the page is printed without its end. -/
theorem long_profile_not_listed :
    ¬ Listed (some (Vector.replicate 4096 0)) (.ok KernelRead.ofLong) := by
  rintro ⟨fuel', hfuel'⟩
  have hmem : ∀ b ≠ 97, ∀ n, b ∉ List.replicate n (97 : UInt8) :=
    fun b hb n h => hb (List.eq_of_mem_replicate h)
  have hone : ∀ n, n ≠ 0 →
      (profiles (List.replicate n (97 : UInt8))).take 20 = [List.replicate n 97] := by
    intro n hn
    rw [profiles_last (hmem newline (by decide) n), filter_singleton,
      if_neg (mt (List.replicate_eq_nil_iff _).1 hn)]
    rfl
  obtain ⟨fuel, hfuel⟩ := show_loaded_profiles_eq (hmem 0 (by decide) 4096)
    (mt (List.replicate_eq_nil_iff (n := 4096) _).1 (by decide))
      (Vector.replicate 4096 0) KernelRead.ofLong
  have heq := listing_inj (fun l hl => mem_profiles (List.mem_of_mem_take hl))
    (fun l hl => mem_profiles (List.mem_of_mem_take hl))
      (Option.some.inj (show_loaded_profiles_unique hfuel hfuel'))
  rw [List.take_replicate, hone _ (by decide), hone _ (by decide)] at heq
  have hlen := congrArg List.length (List.cons.inj heq).1
  rw [List.length_replicate, List.length_replicate] at hlen
  exact absurd hlen (by decide)

end LinuxKernelProg.Security
