import Mathlib.Data.BitVec
import LinuxKernelProg.Lib.CString

/-!
# Formatted output into a buffer

`vsnprintf` on a memory of bytes. An address is the distance from the start of the buffer, in 64
bits, so a write in front of the buffer or behind it has an address as well. Where a buffer holds a
string that fits, formatting at its end appends to the string, as far as the buffer goes.
-/

namespace LinuxKernelProg.Lib

/-- A memory, by the distance from the start of the buffer. -/
def Memory : Type := BitVec 64 → UInt8

/-- What `vsnprintf(dst, size, ..)` leaves in memory: the bytes of the formatted string that fit and
a NUL, or nothing if the size is 0. -/
def vsnprintf (mem : Memory) (dst size : BitVec 64) (s : CString) : Memory := fun a =>
  let n := min s.bytes.length (size.toNat - 1)
  if size ≠ 0 ∧ (a - dst).toNat ≤ n then (s.bytes.take n).getD (a - dst).toNat 0 else mem a

/-- The buffer of this size holds the string, cut so that a NUL fits, and the rest of it is NUL. -/
def Memory.Holds (mem : Memory) (size : Nat) (s : CString) : Prop :=
  ∀ i : Fin size, mem (BitVec.ofNat 64 i) = s.padded (size - 1) size i

/-- The buffer as a list. -/
def Memory.buffer (mem : Memory) (size : Nat) : List UInt8 :=
  List.ofFn fun i : Fin size => mem (BitVec.ofNat 64 i)

/-- The string in the buffer: the bytes up to the first NUL. -/
def Memory.string (mem : Memory) (size : Nat) : List UInt8 := (mem.buffer size).takeWhile (· ≠ 0)

variable {mem : Memory} {size : Nat} {s t : CString}

theorem Memory.Holds.string_eq (h : mem.Holds size s) :
    mem.string size = s.bytes.take (size - 1) := by
  have hbuf : mem.buffer size = List.ofFn (s.padded (size - 1) size) := by
    rw [Memory.buffer]
    congr 1
    exact funext h
  rw [Memory.string, hbuf, CString.takeWhile_padded s (Nat.sub_le size 1)]

theorem Memory.Holds.last_nul (h : mem.Holds (size + 1) s) : mem (BitVec.ofNat 64 size) = 0 := by
  rw [h ⟨size, Nat.lt_succ_self size⟩, CString.padded]
  apply List.getD_eq_default
  exact List.length_take_le size s.bytes

/-- The distance of an address from the place in the buffer where the output starts. -/
theorem toNat_sub_ofNat (a : BitVec 64) {n : Nat} (hn : n < 2 ^ 64) :
    (a - BitVec.ofNat 64 n).toNat = if n ≤ a.toNat then a.toNat - n
      else 2 ^ 64 - (n - a.toNat) := by
  have ha := a.isLt
  rw [BitVec.toNat_sub, BitVec.toNat_ofNat, Nat.mod_eq_of_lt hn]
  split <;> omega

/-- The size of the rest of a buffer. -/
theorem ofNat_sub_ofNat {m n : Nat} (hnm : n ≤ m) (hm : m < 2 ^ 64) :
    BitVec.ofNat 64 m - BitVec.ofNat 64 n = BitVec.ofNat 64 (m - n) := by
  apply BitVec.eq_of_toNat_eq
  rw [BitVec.toNat_sub, BitVec.toNat_ofNat, BitVec.toNat_ofNat, BitVec.toNat_ofNat]
  omega

/-- Formatting at a place in the buffer, byte by byte. -/
theorem vsnprintf_apply {off : Nat} (hoff : off < size) (hsize : size ≤ 2 ^ 63) (a : BitVec 64) :
    vsnprintf mem (BitVec.ofNat 64 off) (BitVec.ofNat 64 (size - off)) t a =
      if off ≤ a.toNat ∧ a.toNat ≤ off + min t.bytes.length (size - 1 - off) then
        (t.bytes.take (size - 1 - off)).getD (a.toNat - off) 0
      else mem a := by
  have ha := a.isLt
  have hn : (BitVec.ofNat 64 (size - off)).toNat = size - off := by
    rw [BitVec.toNat_ofNat]
    omega
  have hne : BitVec.ofNat 64 (size - off) ≠ 0 := fun h0 => by
    rw [h0] at hn
    simp at hn
    omega
  have hdist := toNat_sub_ofNat a (n := off) (by omega)
  have htake : t.bytes.take (min t.bytes.length (size - off - 1)) =
      t.bytes.take (size - 1 - off) := by
    rw [List.take_eq_take_iff]
    omega
  simp only [vsnprintf, hn, hdist, ne_eq, hne, not_false_eq_true, true_and, htake]
  by_cases hlt : off ≤ a.toNat
  · simp only [hlt, true_and, if_true]
    have hiff : a.toNat - off ≤ min t.bytes.length (size - off - 1) ↔
        a.toNat ≤ off + min t.bytes.length (size - 1 - off) := by omega
    exact if_congr hiff rfl rfl
  · rw [if_neg hlt, if_neg (by omega), if_neg fun h => hlt h.1]

/-- Nothing behind the buffer is written. -/
theorem vsnprintf_outside {off : Nat} (hoff : off < size) (hsize : size ≤ 2 ^ 63) {a : BitVec 64}
    (ha : size ≤ a.toNat) :
    vsnprintf mem (BitVec.ofNat 64 off) (BitVec.ofNat 64 (size - off)) t a = mem a := by
  rw [vsnprintf_apply hoff hsize, if_neg]
  omega

/-- Formatting at the end of a string that fits appends to it. -/
theorem Memory.Holds.vsnprintf (h : mem.Holds size s) (hs : s.bytes.length < size)
    (hsize : size ≤ 2 ^ 63) :
    Memory.Holds (vsnprintf mem (BitVec.ofNat 64 s.bytes.length)
      (BitVec.ofNat 64 (size - s.bytes.length)) t) size (s.append t) := by
  intro i
  have hi := i.isLt
  have hidx : (BitVec.ofNat 64 (i : Nat)).toNat = i := by
    rw [BitVec.toNat_ofNat]
    omega
  have hbytes : (s.append t).bytes.take (size - 1) =
      s.bytes ++ t.bytes.take (size - 1 - s.bytes.length) := by
    rw [CString.append, List.take_append, List.take_of_length_le (by omega)]
  have hold := h i
  rw [CString.padded, List.take_of_length_le (by omega)] at hold
  rw [CString.padded, hbytes, vsnprintf_apply hs hsize, hidx]
  by_cases hlt : s.bytes.length ≤ i
  · rw [List.getD_append_right _ _ _ _ hlt]
    split
    · rfl
    · -- behind the NUL of an output that was not cut
      rw [hold, List.getD_eq_default _ _ hlt, List.getD_eq_default]
      rw [List.length_take]
      omega
  · rw [if_neg fun h => hlt h.1, List.getD_append _ _ _ _ (by omega), hold]

/-- The string in the buffer, from its bytes and its NUL. -/
theorem Memory.string_eq (hs : s.bytes.length < size)
    (h : ∀ i ≤ s.bytes.length, mem (BitVec.ofNat 64 i) = s.bytes.getD i 0) :
    mem.string size = s.bytes := by
  have htake : (mem.buffer size).take (s.bytes.length + 1) = s.bytes ++ [0] := by
    apply List.ext_getElem
    · rw [List.length_take, Memory.buffer, List.length_ofFn, List.length_append,
        List.length_singleton]
      omega
    · intro i hi hi'
      rw [List.length_append, List.length_singleton] at hi'
      simp only [Memory.buffer, List.getElem_take, List.getElem_ofFn]
      rw [h i (by omega), List.getElem_append]
      split
      · rename_i hlt
        exact List.getD_eq_getElem _ _ hlt
      · rename_i hlt
        rw [List.getElem_singleton]
        exact List.getD_eq_default _ _ (Nat.not_lt.1 hlt)
  have hpos : ∀ b ∈ s.bytes, decide (b ≠ 0) = true := fun b hb =>
    decide_eq_true fun h0 => s.nul_free (h0 ▸ hb)
  rw [Memory.string, ← List.take_append_drop (s.bytes.length + 1) (mem.buffer size), htake,
    List.append_assoc, List.takeWhile_append_of_pos hpos]
  simp

end LinuxKernelProg.Lib
