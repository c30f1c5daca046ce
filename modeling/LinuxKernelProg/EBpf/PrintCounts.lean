import LinuxKernelProg.EBpf.ExecCount
import LinuxKernelProg.Lib.Loop

/-!
# Printing the execve counter

`print_counts` of `map_counter_exec.c` and of `reader.c` (the same code): a loop that asks for the
next key until there is none. It starts with the key that is all zero. The first key of the map
comes next to a key that is not there, but `handle_exec` puts the zero key in for an empty file
name, and then the loop starts behind it (`print_counts_behind`).
-/

namespace LinuxKernelProg.EBpf

open LinuxKernelProg.Lib

/-! ## The program -/

def zeroKey : Key := fun _ => 0

/-- The first key in the order of the map when the key is not there, otherwise the one behind it;
`none` for an error. -/
def bpf_map_get_next_key (order : List Key) (key : Key) : Option Key :=
  if key ∈ order then order[order.idxOf key + 1]? else order.head?

/-- A line that is printed: a name, and a count. -/
abbrev Line := List UInt8 × BitVec 64

/-- What `%.*s` prints of a key: up to 16 bytes, as far as the first NUL. -/
def printed (key : Key) : List UInt8 := (List.ofFn key).takeWhile (· ≠ 0)

structure Locals where
  key : Key
  next_key : Key
  val : BitVec 64
  out : List Line

def Locals.init : Locals := ⟨zeroKey, zeroKey, 0, []⟩

/-- The loop of `print_counts` on a map that does not change. -/
def print_next (m : ExecCnt) (order : List Key) (s : Locals) : Option Locals :=
  match bpf_map_get_next_key order s.key with
  | none => none
  | some next_key =>
    let s := { s with next_key }
    let s :=
      match m.lookup next_key with
      | some val => { s with val, out := s.out ++ [(printed next_key, val)] }
      | none => s
    some { s with key := s.next_key }

/-- `print_counts` ends, and has printed these lines. -/
def print_counts (m : ExecCnt) (order : List Key) (out : List Line) : Prop :=
  ∃ s, Exits (print_next m order) .init s ∧ s.out = out

/-! ## The order of the keys -/

variable {m : ExecCnt} {order rest : List Key} {key : Key}

theorem get_next_key_append {pre : List Key} (hnodup : (pre ++ key :: rest).Nodup) :
    bpf_map_get_next_key (pre ++ key :: rest) key = rest.head? := by
  have hpre : key ∉ pre := fun h =>
    List.disjoint_of_nodup_append hnodup h List.mem_cons_self
  have hidx : (pre ++ key :: rest).idxOf key = pre.length := by
    rw [List.idxOf_append_of_notMem hpre, List.idxOf_cons_self, Nat.add_zero]
  rw [bpf_map_get_next_key, if_pos (by simp), hidx, List.getElem?_append_right (by omega)]
  cases rest <;> simp

theorem get_next_key_absent (hk : key ∉ order) : bpf_map_get_next_key order key = order.head? :=
  if_neg hk

/-! ## The loop -/

def line (m : ExecCnt) (key : Key) : Line := (printed key, (m.lookup key).getD 0)

theorem print_next_none {s : Locals} (h : bpf_map_get_next_key order s.key = none) :
    print_next m order s = none := by
  simp only [print_next, h]

/-- One line. -/
theorem print_next_some {s : Locals} (h : bpf_map_get_next_key order s.key = some key)
    (hk : key ∈ m.keys) :
    ∃ s', print_next m order s = some s' ∧ s'.key = key ∧ s'.out = s.out ++ [line m key] := by
  cases hl : m.lookup key with
  | none => exact absurd hk (BoundedMap.lookup_eq_none_iff.1 hl)
  | some val =>
    refine ⟨⟨key, key, val, s.out ++ [(printed key, val)]⟩, ?_, rfl, ?_⟩
    · simp only [print_next, h, hl]
    · rw [line, hl, Option.getD_some]

/-- From a key of the map on, the lines are those of the keys behind it. -/
theorem exits_behind (pre : List Key) (hsub : ∀ k ∈ rest, k ∈ m.keys)
    (hnodup : (pre ++ key :: rest).Nodup) {s : Locals} (hs : s.key = key) :
    ∃ t, Exits (print_next m (pre ++ key :: rest)) s t ∧ t.out = s.out ++ rest.map (line m) := by
  induction rest generalizing pre key s with
  | nil =>
    refine ⟨s, exits_of_none (print_next_none ?_), by simp⟩
    rw [hs, get_next_key_append hnodup]
    rfl
  | cons k rest ih =>
    have hnext : bpf_map_get_next_key (pre ++ key :: k :: rest) s.key = some k := by
      rw [hs, get_next_key_append hnodup]
      rfl
    obtain ⟨s', hstep, hkey, hout⟩ := print_next_some hnext (hsub k List.mem_cons_self)
    -- the key that was printed goes to the front part
    have happend : pre ++ key :: k :: rest = (pre ++ [key]) ++ k :: rest := by simp
    obtain ⟨t, ht, htout⟩ := ih (pre ++ [key])
      (fun k hk => hsub k (List.mem_cons_of_mem _ hk)) (happend ▸ hnodup) hkey
    refine ⟨t, Exits.step hstep (happend ▸ ht), ?_⟩
    rw [htout, hout, List.map_cons, List.append_assoc, List.singleton_append]

/-- Without the zero key the loop prints the whole map. -/
theorem print_counts_absent (hsub : ∀ k ∈ order, k ∈ m.keys) (hnodup : order.Nodup)
    (hz : zeroKey ∉ order) : print_counts m order (order.map (line m)) := by
  have hfirst : bpf_map_get_next_key order Locals.init.key = order.head? := get_next_key_absent hz
  cases order with
  | nil => exact ⟨.init, exits_of_none (print_next_none hfirst), rfl⟩
  | cons k rest =>
    obtain ⟨s, hstep, hkey, hout⟩ := print_next_some hfirst (hsub k List.mem_cons_self)
    obtain ⟨t, ht, htout⟩ := exits_behind []
      (fun k hk => hsub k (List.mem_cons_of_mem _ hk)) hnodup hkey
    refine ⟨t, Exits.step hstep ht, ?_⟩
    rw [htout, hout, List.map_cons]
    rfl

/-- With it the loop prints what comes behind it. -/
theorem print_counts_behind (pre : List Key) (hsub : ∀ k ∈ rest, k ∈ m.keys)
    (hnodup : (pre ++ zeroKey :: rest).Nodup) :
    print_counts m (pre ++ zeroKey :: rest) (rest.map (line m)) := by
  obtain ⟨t, ht, htout⟩ := exits_behind (s := .init) pre hsub hnodup rfl
  exact ⟨t, ht, htout⟩

theorem print_counts_unique {out out' : List Line} (h : print_counts m order out)
    (h' : print_counts m order out') : out = out' := by
  obtain ⟨s, hs, rfl⟩ := h
  obtain ⟨s', hs', rfl⟩ := h'
  rw [hs.unique hs']

/-! ## The keys of `handle_exec` -/

/-- Contents that `handle_exec` can produce. -/
def Produced (m : ExecCnt) : Prop := ∀ k ∈ m.keys, ∃ e : Event, e.key = k

theorem produced_after (es : List Event) : Produced (after es) := by
  intro k hk
  rw [keys_of_counts (entries_after es)] at hk
  obtain ⟨e, -, he⟩ := List.mem_map.1 (List.mem_eraseDups.1 (List.mem_of_mem_take hk))
  exact ⟨e, he⟩

theorem exists_padded (e : Event) : ∃ s : CString, e.key = s.padded 15 16 := by
  unfold Event.key
  split
  · exact ⟨_, rfl⟩
  · exact ⟨_, rfl⟩

/-- The zero-padded name of a key is all that is printed of it. -/
theorem printed_inj (hprod : Produced m) {k k' : Key} (hk : k ∈ m.keys) (hk' : k' ∈ m.keys)
    (h : printed k = printed k') : k = k' := by
  obtain ⟨e, rfl⟩ := hprod k hk
  obtain ⟨e', rfl⟩ := hprod k' hk'
  obtain ⟨s, hs⟩ := exists_padded e
  obtain ⟨s', hs'⟩ := exists_padded e'
  rw [hs, hs', printed, printed, CString.takeWhile_padded s (by omega),
    CString.takeWhile_padded s' (by omega)] at h
  rw [hs, hs']
  exact (CString.padded_eq_iff (by omega)).2 h

/-- Every entry of the map is printed in one line, and nothing else is printed. -/
structure PrintedOnce (m : ExecCnt) (out : List Line) : Prop where
  once : ∀ p ∈ m.entries, out.count (printed p.1, p.2) = 1
  only : ∀ l ∈ out, ∃ p ∈ m.entries, l = (printed p.1, p.2)

theorem line_of_entry {p : Key × BitVec 64} (hp : p ∈ m.entries) :
    line m p.1 = (printed p.1, p.2) := by
  rw [line, BoundedMap.lookup_eq_some_iff.2 hp, Option.getD_some]

theorem printedOnce_of_perm (hprod : Produced m) (horder : order.Perm m.keys) :
    PrintedOnce m (order.map (line m)) := by
  have hinj : ∀ k ∈ order, ∀ k' ∈ order, line m k = line m k' → k = k' := fun k hk k' hk' he =>
    printed_inj hprod (horder.subset hk) (horder.subset hk') (congrArg Prod.fst he)
  have hnodup : (order.map (line m)).Nodup :=
    (horder.nodup_iff.2 BoundedMap.nodup_keys).map_on hinj
  constructor
  · intro p hp
    have hk : p.1 ∈ order := horder.symm.subset (List.mem_map_of_mem hp)
    rw [← line_of_entry hp]
    exact List.count_eq_one_of_mem hnodup (List.mem_map_of_mem hk)
  · intro l hl
    obtain ⟨k, hk, rfl⟩ := List.mem_map.1 hl
    obtain ⟨p, hp, rfl⟩ := List.mem_map.1 (horder.subset hk)
    exact ⟨p, hp, line_of_entry hp⟩

/-- **Printing the map.** The loop ends with every entry printed once exactly when the key that is
all zero is not in the map. -/
theorem print_counts_iff (hprod : Produced m) (horder : order.Perm m.keys) :
    (∃ out, print_counts m order out ∧ PrintedOnce m out) ↔ zeroKey ∉ m.keys := by
  have hnodup : order.Nodup := horder.nodup_iff.2 BoundedMap.nodup_keys
  constructor
  · rintro ⟨out, hout, honce⟩ hz
    obtain ⟨pre, rest, rfl⟩ := List.append_of_mem (horder.symm.subset hz)
    have hsub : ∀ k ∈ rest, k ∈ m.keys := fun k hk =>
      horder.subset (List.mem_append_right pre (List.mem_cons_of_mem _ hk))
    obtain rfl := print_counts_unique hout (print_counts_behind pre hsub hnodup)
    -- the line of the zero key would be that of a key behind it
    obtain ⟨p, hp, hpz⟩ := List.mem_map.1 hz
    have hone := honce.once p hp
    have hmem : (printed p.1, p.2) ∈ rest.map (line m) :=
      List.count_pos_iff.1 (hone ▸ Nat.one_pos)
    obtain ⟨k, hk, hline⟩ := List.mem_map.1 hmem
    have hkz : k = zeroKey :=
      printed_inj hprod (hsub k hk) hz (hpz ▸ congrArg Prod.fst hline)
    have hnodup := (List.nodup_append.1 hnodup).2.1
    exact (List.nodup_cons.1 hnodup).1 (hkz ▸ hk)
  · intro hz
    refine ⟨order.map (line m), ?_, printedOnce_of_perm hprod horder⟩
    exact print_counts_absent (fun k hk => horder.subset hk) hnodup fun h => hz (horder.subset h)

theorem print_counts_of_two_names :
    let sh : Event := ⟨some ⟨[47, 115, 104], by decide⟩, zeroKey, ⟨[97], by decide⟩⟩
    let ls : Event := ⟨some ⟨[47, 108, 115], by decide⟩, zeroKey, ⟨[115, 104], by decide⟩⟩
    let m := after [sh, ls, sh]
    ∃ out, print_counts m m.keys.reverse out ∧ PrintedOnce m out :=
  (print_counts_iff (produced_after _) (List.reverse_perm _)).2 (by decide)

/-- One event with an empty file name: the loop prints nothing. -/
theorem empty_name_skipped : ¬ ∀ es order, order.Perm (after es).keys →
    ∃ out, print_counts (after es) order out ∧ PrintedOnce (after es) out := by
  intro h
  let e : Event := ⟨some ⟨[], by decide⟩, zeroKey, ⟨[97], by decide⟩⟩
  have hkeys : (after [e]).keys = [zeroKey] := by decide
  obtain ⟨out, hout, honce⟩ := h [e] [zeroKey] (hkeys ▸ List.Perm.refl _)
  have hnil : out = [] :=
    print_counts_unique hout (print_counts_behind [] (fun _ hk => by cases hk) (by simp))
  have hone := honce.once (zeroKey, 1) (by decide)
  rw [hnil] at hone
  cases hone

end LinuxKernelProg.EBpf
