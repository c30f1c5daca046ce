import Mathlib.Data.List.GetD

/-!
# NUL-terminated strings

A string is the bytes in front of its NUL. Copying it into a buffer of a fixed size cuts it or fills
the rest with NUL; two copies are the same exactly when the strings agree as far as the buffer goes.
-/

namespace LinuxKernelProg.Lib

/-- A NUL-terminated string, given by the bytes in front of the NUL. -/
structure CString where
  bytes : List UInt8
  nul_free : 0 ∉ bytes

namespace CString

theorem nul_not_mem_nil : (0 : UInt8) ∉ [] := List.not_mem_nil

def empty : CString := ⟨[], nul_not_mem_nil⟩

def append (s t : CString) : CString where
  bytes := s.bytes ++ t.bytes
  nul_free h := (List.mem_append.1 h).elim s.nul_free t.nul_free

/-- The first `n` bytes in a buffer of size `size`, the rest filled with NUL. -/
def padded (s : CString) (n size : Nat) : Fin size → UInt8 := fun i => (s.bytes.take n).getD i 0

theorem getD_inj {l l' : List UInt8} (h : 0 ∉ l) (h' : 0 ∉ l') (size : Nat) (hl : l.length ≤ size)
    (hl' : l'.length ≤ size) (he : ∀ i < size, l.getD i 0 = l'.getD i 0) : l = l' := by
  -- the end of a string is where the first NUL is
  have key : ∀ {l l' : List UInt8}, 0 ∉ l → l.length ≤ size →
      (∀ i < size, l.getD i 0 = l'.getD i 0) → l.length ≤ l'.length := by
    intro l l' h hl he
    refine Nat.le_of_not_lt fun hi => ?_
    have hz := he l'.length (by omega)
    rw [List.getD_eq_getElem _ _ hi, List.getD_eq_default _ _ (Nat.le_refl _)] at hz
    exact h (hz ▸ List.getElem_mem hi)
  have hlen : l.length = l'.length :=
    Nat.le_antisymm (key h hl he) (key h' hl' fun i hi => (he i hi).symm)
  refine List.ext_getElem hlen fun i hi hi' => ?_
  have := he i (by omega)
  rwa [List.getD_eq_getElem _ _ hi, List.getD_eq_getElem _ _ hi'] at this

/-- Two copies are the same exactly when the strings agree on the bytes that were copied. -/
theorem padded_eq_iff {s s' : CString} {n size : Nat} (hn : n ≤ size) :
    s.padded n size = s'.padded n size ↔ s.bytes.take n = s'.bytes.take n := by
  constructor
  · intro h
    refine getD_inj (fun hm => s.nul_free (List.mem_of_mem_take hm))
      (fun hm => s'.nul_free (List.mem_of_mem_take hm)) size ?_ ?_ fun i hi => ?_
    · simp only [List.length_take]
      omega
    · simp only [List.length_take]
      omega
    · exact congrFun h ⟨i, hi⟩
  · intro h
    funext i
    simp only [padded, h]

/-- What is appended behind the bytes that are copied does not show. -/
theorem padded_append {s : CString} {n size : Nat} (hn : n ≤ s.bytes.length) (t : CString) :
    (s.append t).padded n size = s.padded n size := by
  funext i
  rw [padded, padded, append, List.take_append_of_le_length hn]

theorem ofFn_padded (s : CString) {n size : Nat} (hn : n ≤ size) :
    List.ofFn (s.padded n size) =
      s.bytes.take n ++ List.replicate (size - (s.bytes.take n).length) 0 := by
  have hlen : (s.bytes.take n).length ≤ size := Nat.le_trans (List.length_take_le n s.bytes) hn
  apply List.ext_getElem
  · simp only [List.length_ofFn, List.length_append, List.length_replicate]
    omega
  · intro i hi hi'
    rw [List.getElem_ofFn, padded, List.getElem_append]
    split
    · rename_i h
      exact List.getD_eq_getElem _ _ h
    · rename_i h
      rw [List.getElem_replicate]
      exact List.getD_eq_default _ _ (Nat.not_lt.1 h)

/-- Up to its first NUL a copy is the string, as far as it was copied. -/
theorem takeWhile_padded (s : CString) {n size : Nat} (hn : n ≤ size) :
    (List.ofFn (s.padded n size)).takeWhile (· ≠ 0) = s.bytes.take n := by
  have hpos : ∀ b ∈ s.bytes.take n, decide (b ≠ 0) = true := fun b hb =>
    decide_eq_true fun h0 => s.nul_free (h0 ▸ List.mem_of_mem_take hb)
  rw [ofFn_padded s hn, List.takeWhile_append_of_pos hpos, List.takeWhile_replicate]
  simp

/-- At most `n` bytes of the string over the bytes of a buffer, NUL behind its end; the rest of the
buffer stays. -/
def strncpy {size : Nat} (dst : Fin size → UInt8) (src : CString) (n : Nat) : Fin size → UInt8 :=
  fun i => if i.val < n then src.bytes.getD i 0 else dst i

theorem strncpy_of_le {size : Nat} (dst : Fin size → UInt8) (src : CString) {n : Nat} {i : Fin size}
    (h : n ≤ i.val) :
    strncpy dst src n i = dst i :=
  if_neg (Nat.not_lt.2 h)

end CString

end LinuxKernelProg.Lib
