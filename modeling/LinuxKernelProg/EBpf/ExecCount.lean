import Mathlib.Data.Fintype.Basic
import Mathlib.Data.List.Induction
import LinuxKernelProg.Lib.BoundedMap
import LinuxKernelProg.Lib.CString

/-!
# The execve counter

`handle_exec` of `map_counter_exec.bpf.c` and of `pin_map_exec.bpf.c` (the same code) on one event
at a time. The map is a `BPF_MAP_TYPE_HASH` of 1024 entries. After any events it holds the first
1024 keys in the order in which they came up, with the numbers of their events (`entries_after`).
-/

namespace LinuxKernelProg.EBpf

open LinuxKernelProg.Lib

/-! ## The program -/

/-- `char key[16]` -/
abbrev Key := Fin 16 → UInt8

/-- `max_entries` of `exec_cnt`. -/
def max_entries : Nat := 1024

/-- The map `exec_cnt`. -/
abbrev ExecCnt := BoundedMap Key (BitVec 64) max_entries

structure Event where
  /-- The string at `ctx->args[0]`; `none` when it cannot be read. -/
  filename : Option CString
  /-- What a read that fails leaves in the buffer. -/
  scratch : Key
  /-- The command name of the process. -/
  comm : CString

/-- `bpf_probe_read_user_str(dst, 16, src)`: at most 15 bytes and a NUL are written; the length with
the NUL is returned. -/
def bpf_probe_read_user_str (dst : Key) (e : Event) : Key × Int :=
  match e.filename with
  | some src =>
    let n := min src.bytes.length 15
    (fun i => if i.val < n then src.bytes.getD i 0 else if i.val = n then 0 else dst i, n + 1)
  | none => (e.scratch, -14)

/-- `bpf_get_current_comm(&key, 16)`: the command name, cut to 15 bytes, and NULs. -/
def bpf_get_current_comm (e : Event) : Key := e.comm.padded 15 16

section Count

variable {κ : Type} [DecidableEq κ] {capacity : Nat}

/-- Steps 2 and 3 of `handle_exec`: the lookup and the two ways to count. What
`bpf_map_update_elem` returns is not looked at. -/
def count_key (key : κ) (m : BoundedMap κ (BitVec 64) capacity) :
    BoundedMap κ (BitVec 64) capacity :=
  match m.lookup key with
  | some _ => m.modify key (· + 1)
  | none => (m.update key 1).getD m

end Count

def handle_exec (e : Event) (m : ExecCnt) : ExecCnt :=
  let key : Key := fun _ => 0
  let (key, ret) := bpf_probe_read_user_str key e
  let key := if ret < 0 then bpf_get_current_comm e else key
  count_key key m

/-! ## Keys -/

/-- The first 15 bytes of the file name, or the command name, zero-padded to 16. -/
def Event.key (e : Event) : Key :=
  match e.filename with
  | some s => s.padded 15 16
  | none => e.comm.padded 15 16

theorem handle_exec_eq (e : Event) (m : ExecCnt) : handle_exec e m = count_key e.key m := by
  have hkey : (if (bpf_probe_read_user_str (fun _ => 0) e).2 < 0 then bpf_get_current_comm e
      else (bpf_probe_read_user_str (fun _ => 0) e).1) = e.key := by
    unfold bpf_probe_read_user_str Event.key
    cases e.filename with
    | none => rfl
    | some s =>
      rw [if_neg (by simp only; omega)]
      funext i
      simp only [CString.padded, List.getD_eq_getElem?_getD, List.getElem?_take]
      by_cases hi : i.val < min s.bytes.length 15
      · have hi' : i.val < 15 := by omega
        rw [if_pos hi, if_pos hi']
      · rw [if_neg hi, ite_self]
        split
        · rw [List.getElem?_eq_none (by omega)]
          rfl
        · rfl
  simp only [handle_exec, hkey]

/-! ## Counting -/

section Count

variable {κ : Type} [DecidableEq κ] {capacity : Nat}

/-- The first `capacity` keys in the order in which they came up, with their numbers. -/
def counts (capacity : Nat) (ks : List κ) : List (κ × BitVec 64) :=
  (ks.eraseDups.take capacity).map fun k => (k, BitVec.ofNat 64 (ks.count k))

theorem eraseDups_snoc (ks : List κ) (k : κ) :
    (ks ++ [k]).eraseDups = if k ∈ ks then ks.eraseDups else ks.eraseDups ++ [k] := by
  rw [List.eraseDups_append]
  by_cases hk : k ∈ ks <;> simp [List.removeAll, hk, List.eraseDups_cons]

theorem keys_of_counts {m : BoundedMap κ (BitVec 64) capacity} {ks : List κ}
    (h : m.entries = counts capacity ks) : m.keys = ks.eraseDups.take capacity := by
  simp [BoundedMap.keys, h, counts, Function.comp_def]

/-- One event. -/
theorem entries_count_key {m : BoundedMap κ (BitVec 64) capacity} {ks : List κ}
    (h : m.entries = counts capacity ks) (k : κ) :
    (count_key k m).entries = counts capacity (ks ++ [k]) := by
  have hkeys := keys_of_counts h
  have hlen : m.entries.length = min capacity ks.eraseDups.length := by simp [h, counts]
  unfold count_key
  cases hl : m.lookup k with
  | some v =>
    have hk : k ∈ m.keys := by
      by_contra hk
      rw [BoundedMap.lookup_eq_none_iff.2 hk] at hl
      cases hl
    have hks : k ∈ ks := List.mem_eraseDups.1 (List.mem_of_mem_take (hkeys ▸ hk))
    simp only [BoundedMap.modify, h, counts, eraseDups_snoc, if_pos hks, List.map_map]
    refine List.map_congr_left fun x _ => ?_
    simp only [Function.comp_apply, List.count_append, List.count_singleton]
    by_cases hx : x = k
    · subst hx
      simp [BitVec.ofNat_add]
    · have : (k == x) = false := by simpa using fun e => hx e.symm
      simp [hx, this]
  | none =>
    have hk := BoundedMap.lookup_eq_none_iff.1 hl
    by_cases hroom : m.entries.length < capacity
    · -- a new key, for which there is room
      have hlt : ks.eraseDups.length < capacity := by omega
      have hks : k ∉ ks := fun hks =>
        hk (hkeys ▸ by rwa [List.take_of_length_le (Nat.le_of_lt hlt), List.mem_eraseDups])
      obtain ⟨m', hm', he⟩ := BoundedMap.update_new (v := 1) hk hroom
      rw [hm', Option.getD_some, he, h]
      simp only [counts, eraseDups_snoc, if_neg hks]
      rw [List.take_of_length_le (Nat.le_of_lt hlt), List.take_of_length_le (by
        rw [List.length_append]
        exact hlt), List.map_append]
      congr 1
      · refine List.map_congr_left fun x hx => ?_
        have hne : (k == x) = false := by
          simpa using fun e : k = x => hks (e ▸ List.mem_eraseDups.1 hx)
        simp [List.count_append, List.count_singleton, hne]
      · simp [List.count_append, List.count_eq_zero.2 hks]
    · -- a new key, and the map is full
      rw [BoundedMap.update_full hk (by omega), Option.getD_none, h]
      have htake : (ks ++ [k]).eraseDups.take capacity = ks.eraseDups.take capacity := by
        rw [eraseDups_snoc]
        split
        · rfl
        · rw [List.take_append_of_le_length (by omega)]
      simp only [counts, htake]
      refine List.map_congr_left fun x hx => ?_
      have hne : (k == x) = false := by
        simpa using fun e : k = x => hk (hkeys ▸ e ▸ hx)
      simp [List.count_append, List.count_singleton, hne]

theorem lookup_counts (ks : List κ) (k : κ) :
    (counts capacity ks).lookup k =
      if k ∈ ks.eraseDups.take capacity then some (BitVec.ofNat 64 (ks.count k)) else none := by
  unfold counts
  induction ks.eraseDups.take capacity with
  | nil => rfl
  | cons x l ih =>
    by_cases hx : k = x
    · subst hx
      simp
    · have hb : (k == x) = false := by simpa using hx
      simp [List.lookup_cons, hb, ih, hx]

end Count

/-! ## Runs -/

/-- The events one after the other, from an empty map. -/
def after (es : List Event) : ExecCnt := es.foldl (fun m e => handle_exec e m) .empty

theorem entries_after (es : List Event) :
    (after es).entries = counts max_entries (es.map Event.key) := by
  induction es using List.reverseRecOn with
  | nil => rfl
  | append_singleton es e ih =>
    rw [List.map_append, List.map_singleton, ← entries_count_key ih, ← handle_exec_eq]
    simp [after]

/-- **The counters.** -/
theorem exec_cnt_after (es : List Event) :
    (∀ k, (after es).lookup k =
      if k ∈ (es.map Event.key).eraseDups.take 1024 then
        some (BitVec.ofNat 64 ((es.map Event.key).count k))
      else none) ∧
    ∀ e, (after es).entries.length = 1024 → e.key ∉ (after es).keys →
      handle_exec e (after es) = after es := by
  constructor
  · intro k
    rw [BoundedMap.lookup, entries_after, lookup_counts]
    rfl
  · intro e hfull hk
    rw [handle_exec_eq, count_key, BoundedMap.lookup_eq_none_iff.2 hk]
    simp only
    rw [BoundedMap.update_full hk (Nat.le_of_eq hfull.symm), Option.getD_none]

end LinuxKernelProg.EBpf
