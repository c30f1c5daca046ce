import Mathlib.Data.Fin.Basic

/-!
# Writing over memory

Pieces of memory are written one after the other, at fixed places. What is there afterwards does not
depend on what was there before exactly when every byte is written (`fill_congr_iff`).
-/

namespace LinuxKernelProg.Lib

structure Write where
  offset : Nat
  bytes : List UInt8

def Write.Covers (w : Write) (i : Nat) : Prop := w.offset ≤ i ∧ i < w.offset + w.bytes.length

instance (w : Write) (i : Nat) : Decidable (w.Covers i) := inferInstanceAs (Decidable (_ ∧ _))

variable {n : Nat}

def Write.apply (w : Write) (mem : Fin n → UInt8) : Fin n → UInt8 :=
  fun i => if w.Covers i then w.bytes.getD (i - w.offset) 0 else mem i

/-- The first write of the list is the first one. -/
def fill (ws : List Write) (mem : Fin n → UInt8) : Fin n → UInt8 :=
  ws.foldl (fun mem w => w.apply mem) mem

def Covered (ws : List Write) (i : Nat) : Prop := ∃ w ∈ ws, w.Covers i

variable {w : Write} {ws : List Write} {mem mem' : Fin n → UInt8} {i : Fin n}

theorem Write.apply_congr (h : ¬ w.Covers i → mem i = mem' i) : w.apply mem i = w.apply mem' i := by
  unfold Write.apply
  split
  · rfl
  · exact h ‹_›

theorem fill_congr (h : ¬ Covered ws i → mem i = mem' i) : fill ws mem i = fill ws mem' i := by
  induction ws generalizing mem mem' with
  | nil => exact h fun ⟨_, hw, _⟩ => (List.not_mem_nil hw)
  | cons w ws ih =>
    refine ih fun hws => Write.apply_congr fun hw => h ?_
    rintro ⟨x, hx, hc⟩
    rcases List.mem_cons.1 hx with rfl | hx
    · exact hw hc
    · exact hws ⟨x, hx, hc⟩

/-- What no write covers stays. -/
theorem fill_of_not_covered (h : ¬ Covered ws i) : fill ws mem i = mem i := by
  induction ws generalizing mem with
  | nil => rfl
  | cons w ws ih =>
    have hw : ¬ w.Covers i := fun hc => h ⟨w, List.mem_cons_self, hc⟩
    have hws : ¬ Covered ws i := fun ⟨x, hx, hc⟩ => h ⟨x, List.mem_cons_of_mem w hx, hc⟩
    exact (ih hws).trans (if_neg hw)

/-- **Nothing of the memory shows through** exactly when all of it is written. -/
theorem fill_congr_iff : (∀ mem mem' : Fin n → UInt8, fill ws mem = fill ws mem') ↔
    ∀ i : Fin n, Covered ws i := by
  constructor
  · intro h i
    by_contra hc
    have heq := congrFun (h (fun _ => 0) fun _ => 1) i
    rw [fill_of_not_covered hc, fill_of_not_covered hc] at heq
    exact absurd heq (by decide)
  · intro h mem mem'
    funext i
    exact fill_congr fun hc => absurd (h i) hc

end LinuxKernelProg.Lib
