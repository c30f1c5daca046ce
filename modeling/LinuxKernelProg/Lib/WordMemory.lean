import Mathlib.Logic.Function.Basic

/-!
# A memory of words, and the variables in it

A `WordMemory` has the words of 64 bits that can be accessed. `Stores` says that a memory holds the
values of some variables, each at an address of its own: `Stores.store` and `Stores.modify` are all
that a proof about a program with variables needs of the memory.
-/

namespace LinuxKernelProg.Lib

structure WordMemory where
  word : BitVec 64 → Option (BitVec 64)
  /-- There is none at an address that is not aligned, so no two of them overlap. -/
  aligned : ∀ a, (word a).isSome → 8 ∣ a.toNat

namespace WordMemory

/-- The memory with these words. -/
def ofWords (ws : List (BitVec 64 × BitVec 64)) (h : (ws.all fun w => w.1.toNat % 8 == 0) = true) :
    WordMemory where
  word a := ws.lookup a
  aligned a ha := by
    obtain ⟨v, hv⟩ := Option.isSome_iff_exists.1 ha
    obtain ⟨l₁, l₂, rfl, -⟩ := List.lookup_eq_some_iff.1 hv
    exact Nat.dvd_of_mod_eq_zero
      (beq_iff_eq.1 (List.all_eq_true.1 h (a, v) List.mem_append_cons_self))

def load (m : WordMemory) (a : BitVec 64) : Option (BitVec 64) := m.word a

def store (m : WordMemory) (a v : BitVec 64) : Option WordMemory :=
  if h : (m.word a).isSome then
    some {
      word := Function.update m.word a (some v)
      aligned := fun b hb => by
        by_cases hba : b = a
        · exact hba ▸ m.aligned a h
        · exact m.aligned b (by rwa [Function.update_of_ne hba] at hb) }
  else none

/-- A word is loaded, and what `f` makes of it is stored. -/
def modify (m : WordMemory) (a : BitVec 64) (f : BitVec 64 → BitVec 64) : Option WordMemory :=
  (m.load a).bind fun v => m.store a (f v)

theorem store_of_load {m : WordMemory} {a w : BitVec 64} (h : m.load a = some w) (v : BitVec 64) :
    ∃ m', m.store a v = some m' ∧ m'.load = Function.update m.load a (some v) := by
  unfold load at h
  unfold store
  rw [dif_pos (by rw [h]; rfl)]
  exact ⟨_, rfl, rfl⟩

/-! ## Variables -/

section

variable {ν : Type} [DecidableEq ν]

/-- The memory holds the values of the variables that there are. -/
def Stores (addr : ν → BitVec 64) (valid : ν → Prop) (vals : ν → BitVec 64) (m : WordMemory) :
    Prop :=
  ∀ x, valid x → m.load (addr x) = some (vals x)

/-- No two variables have one address. -/
def Apart (addr : ν → BitVec 64) (valid : ν → Prop) : Prop :=
  ∀ x y, valid x → valid y → addr x = addr y → x = y

namespace Stores

variable {addr : ν → BitVec 64} {valid : ν → Prop} {vals : ν → BitVec 64} {m : WordMemory}

theorem store (hapart : Apart addr valid) (h : Stores addr valid vals m) (x : ν) (hx : valid x)
    (v : BitVec 64) :
    ∃ m', m.store (addr x) v = some m' ∧ Stores addr valid (Function.update vals x v) m' := by
  obtain ⟨m', hstore, hload⟩ := store_of_load (h x hx) v
  refine ⟨m', hstore, fun y hy => ?_⟩
  rw [hload]
  by_cases hyx : y = x
  · rw [hyx, Function.update_self, Function.update_self]
  · rw [Function.update_of_ne hyx, Function.update_of_ne fun h => hyx (hapart y x hy hx h), h y hy]

theorem modify (hapart : Apart addr valid) (h : Stores addr valid vals m) (x : ν) (hx : valid x)
    (f : BitVec 64 → BitVec 64) :
    ∃ m', m.modify (addr x) f = some m' ∧
      Stores addr valid (Function.update vals x (f (vals x))) m' := by
  unfold WordMemory.modify
  rw [h x hx]
  exact h.store hapart x hx _

end Stores

end

end WordMemory

end LinuxKernelProg.Lib
