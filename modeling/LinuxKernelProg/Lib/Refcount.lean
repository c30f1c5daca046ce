/-!
# Reference counts

An object counts the references to it; whoever puts the last one frees it. `Owned` ties the count to
the owners of the references. Every operation keeps it, as long as a reference is taken through one
that is there.
-/

namespace LinuxKernelProg.Lib

/-- The references to an object, and how often the object was freed. -/
structure Ref where
  count : Nat
  frees : Nat
  deriving DecidableEq

namespace Ref

/-- A new object has one reference. -/
def init : Ref := ⟨1, 0⟩

def get (r : Ref) : Ref := { r with count := r.count + 1 }

/-- Take a reference unless there is none any more. -/
def inc_not_zero (r : Ref) : Ref × Bool := if r.count = 0 then (r, false) else (r.get, true)

/-- Put a reference; says whether it was the last one. -/
def dec_and_test (r : Ref) : Ref × Bool := ({ r with count := r.count - 1 }, r.count == 1)

def free (r : Ref) : Ref := { r with frees := r.frees + 1 }

/-- There is one reference for each owner, and when there is none left the object is freed once or
one party is about to do it. -/
structure Owned (r : Ref) (owners freeing : Nat) : Prop where
  count : r.count = owners
  frees : r.frees + freeing = if owners = 0 then 1 else 0

namespace Owned

variable {r : Ref} {owners freeing : Nat}

theorem init : Owned .init 1 0 := ⟨rfl, rfl⟩

/-- While there is an owner the object is not freed, and nobody is about to do it. -/
theorem live (h : Owned r owners freeing) (ho : 0 < owners) : r.frees = 0 ∧ freeing = 0 := by
  have := h.frees
  rw [if_neg (by omega)] at this
  omega

/-- Whoever is about to free the object is the only one, and it was not freed before. -/
theorem frees_eq_zero (h : Owned r owners freeing) (hf : 0 < freeing) :
    r.frees = 0 ∧ freeing = 1 ∧ owners = 0 := by
  have := h.frees
  split at this <;> omega

theorem frees_le (h : Owned r owners freeing) : r.frees ≤ 1 := by
  have := h.frees
  split at this <;> omega

theorem get (h : Owned r owners freeing) (ho : 0 < owners) : Owned r.get (owners + 1) freeing where
  count := by rw [Ref.get, h.count]
  frees := by
    have := h.frees
    rw [if_neg (by omega)] at this ⊢
    exact this

theorem inc_not_zero (h : Owned r owners freeing) (ho : 0 < owners) :
    r.inc_not_zero = (r.get, true) := by
  rw [Ref.inc_not_zero, h.count, if_neg (by omega)]

theorem dec_and_test (h : Owned r (owners + 1) freeing) :
    Owned r.dec_and_test.1 owners (freeing + r.dec_and_test.2.toNat) ∧
      (r.dec_and_test.2 = true ↔ owners = 0) := by
  obtain ⟨hfrees, rfl⟩ := h.live (Nat.succ_pos owners)
  have hlast : r.dec_and_test.2 = true ↔ owners = 0 := by
    simp [Ref.dec_and_test, h.count]
  refine ⟨⟨?_, ?_⟩, hlast⟩
  · simp [Ref.dec_and_test, h.count]
  · have hsame : r.dec_and_test.1.frees = 0 := hfrees
    rw [hsame]
    split
    · rw [hlast.2 ‹_›]
      rfl
    · rw [Bool.eq_false_iff.2 (mt hlast.1 ‹_›)]
      rfl

theorem free (h : Owned r owners (freeing + 1)) : Owned r.free owners freeing where
  count := h.count
  frees := by
    rw [← h.frees]
    exact Nat.add_right_comm r.frees 1 freeing

end Owned

end Ref

end LinuxKernelProg.Lib
