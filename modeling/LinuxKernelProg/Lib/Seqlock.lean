import Mathlib.Algebra.Order.Group.Nat
import LinuxKernelProg.Lib.Run

/-!
# Sequence locks

Writers exclude each other with a lock and advance a 32-bit sequence number when they begin and when
they end, so it is odd while one writes. A reader takes the number before it reads and compares it
afterwards.

`Guards` says of any system that its data changes only under such a lock. What a reader has read
between a beginning and a comparison that does not send it back is then one version of the data
(`Guards.unchanged_of_no_retry`), unless the number has come round to the same value.
-/

namespace LinuxKernelProg.Lib

structure Seqlock where
  sequence : BitVec 32
  locked : Bool
  deriving DecidableEq

namespace Seqlock

def init : Seqlock := ⟨0#32, false⟩

/-- Spins while the number is odd. -/
def read_seqbegin (l : Seqlock) : Option (BitVec 32) :=
  if l.sequence % 2#32 = 0#32 then some l.sequence else none

def read_seqretry (l : Seqlock) (start : BitVec 32) : Bool := l.sequence ≠ start

def write_seqlock (l : Seqlock) : Option Seqlock :=
  if l.locked then none else some ⟨l.sequence + 1#32, true⟩

def write_sequnlock (l : Seqlock) : Seqlock := ⟨l.sequence + 1#32, false⟩

/-- The number is odd while a writer has the lock. -/
def Ok (l : Seqlock) : Prop := l.sequence % 2#32 = if l.locked then 1#32 else 0#32

variable {l l' : Seqlock} {start : BitVec 32}

theorem add_one_mod_two (x : BitVec 32) : (x + 1#32) % 2#32 = 1#32 - x % 2#32 := by
  apply BitVec.eq_of_toNat_eq
  have hx := x.isLt
  simp only [BitVec.toNat_umod, BitVec.toNat_add, BitVec.toNat_sub, BitVec.toNat_ofNat,
    Nat.reducePow, Nat.reduceMod]
  omega

theorem Ok.write_seqlock (hl : l.Ok) (h : l.write_seqlock = some l') :
    l'.Ok ∧ l'.sequence = l.sequence + 1#32 ∧ l.locked = false := by
  unfold Seqlock.write_seqlock at h
  split at h
  · nomatch h
  · next hfree =>
    cases h
    have heven : l.sequence % 2#32 = 0#32 := hl.trans (if_neg hfree)
    refine ⟨?_, rfl, Bool.not_eq_true _ ▸ hfree⟩
    rw [Ok, add_one_mod_two, heven]
    rfl

theorem Ok.write_sequnlock (hl : l.Ok) (hlocked : l.locked = true) : l.write_sequnlock.Ok := by
  have hodd : l.sequence % 2#32 = 1#32 := hl.trans (if_pos hlocked)
  rw [Ok, Seqlock.write_sequnlock, add_one_mod_two, hodd]
  rfl

/-- A reader begins only while nobody writes. -/
theorem Ok.read_seqbegin (hl : l.Ok) (h : l.read_seqbegin = some start) :
    l.locked = false ∧ start = l.sequence := by
  unfold Seqlock.read_seqbegin at h
  split at h
  · next heven =>
    refine ⟨?_, (Option.some.inj h).symm⟩
    cases hlocked : l.locked with
    | false => rfl
    | true =>
      have hodd : l.sequence % 2#32 = 1#32 := hl.trans (if_pos hlocked)
      nomatch heven.symm.trans hodd
  · nomatch h

end Seqlock

/-! ## Systems with a sequence lock -/

variable {σ α D : Type} {step : σ → α → Option σ}

/-- In the states of `J`, the lock changes only by its operations and the data only while it is
taken. -/
structure Guards (step : σ → α → Option σ) (J : σ → Prop) (lock : σ → Seqlock)
    (data : σ → D) : Prop where
  inv_step : ∀ {s a s'}, J s → step s a = some s' → J s'
  ok : ∀ {s}, J s → (lock s).Ok
  lock_step : ∀ {s a s'}, J s → step s a = some s' → lock s' = lock s ∨
    (lock s).write_seqlock = some (lock s') ∨
    (lock s).locked = true ∧ lock s' = (lock s).write_sequnlock
  data_step : ∀ {s a s'}, J s → step s a = some s' → data s' = data s ∨ (lock s).locked = true

/-- How often the lock is taken or released in a run. -/
def turns (step : σ → α → Option σ) (lock : σ → Seqlock) : σ → List α → Nat
  | _, [] => 0
  | s, a :: as =>
    match step s a with
    | none => 0
    | some s' => (if lock s' = lock s then 0 else 1) + turns step lock s' as

namespace Guards

variable {J : σ → Prop} {lock : σ → Seqlock} {data : σ → D} {s t : σ} {as : List α}

/-- The number counts the turns. -/
theorem sequence_run (hg : Guards step J lock data) (hs : J s) (h : run step s as = some t) :
    (lock t).sequence = (lock s).sequence + BitVec.ofNat 32 (turns step lock s as) := by
  induction as generalizing s with
  | nil =>
    cases h
    exact (BitVec.add_zero _).symm
  | cons a as ih =>
    obtain ⟨u, hstep, hrest⟩ := run_cons.1 h
    simp only [turns, hstep]
    rw [ih (hg.inv_step hs hstep) hrest]
    split
    · next hsame => rw [hsame, Nat.zero_add]
    · next hne =>
      have hsucc : (lock u).sequence = (lock s).sequence + 1#32 := by
        rcases hg.lock_step hs hstep with heq | hlock | ⟨-, heq⟩
        · exact absurd heq hne
        · unfold Seqlock.write_seqlock at hlock
          split at hlock
          · nomatch hlock
          · exact congrArg Seqlock.sequence (Option.some.inj hlock).symm
        · rw [heq, Seqlock.write_sequnlock]
      rw [hsucc, BitVec.add_assoc, BitVec.ofNat_add]

/-- Without a turn a run from a state where nobody writes leaves the data as it is. -/
theorem unchanged_of_turns (hg : Guards step J lock data) (hs : J s)
    (hfree : (lock s).locked = false) (h : run step s as = some t) (hno : turns step lock s as = 0)
    {i : Nat} {u : σ} (hu : run step s (as.take i) = some u) : data u = data s := by
  induction as generalizing s i with
  | nil =>
    rw [List.take_nil] at hu
    cases hu
    rfl
  | cons a as ih =>
    obtain ⟨v, hstep, hrest⟩ := run_cons.1 h
    simp only [turns, hstep] at hno
    split at hno
    · next hsame =>
      rw [Nat.zero_add] at hno
      have hdata : data v = data s :=
        (hg.data_step hs hstep).resolve_right (by rw [hfree]; exact Bool.false_ne_true)
      cases i with
      | zero =>
        cases hu
        rfl
      | succ i =>
        obtain ⟨w, hw, hu⟩ := run_cons.1 hu
        obtain rfl := Option.some.inj (hstep.symm.trans hw)
        exact (ih (hg.inv_step hs hstep) (hsame ▸ hfree) hrest hno hu).trans hdata
    · omega

/-- A reader is sent back exactly where there was a turn, as long as there were not too many. -/
theorem retry_iff (hg : Guards step J lock data) {start : BitVec 32} (hs : J s)
    (hbegin : (lock s).read_seqbegin = some start) (h : run step s as = some t)
    (hlt : turns step lock s as < 2 ^ 32) :
    (lock t).read_seqretry start = true ↔ 0 < turns step lock s as := by
  obtain ⟨-, rfl⟩ := (hg.ok hs).read_seqbegin hbegin
  rw [Seqlock.read_seqretry, hg.sequence_run hs h, decide_eq_true_eq, ne_eq,
    Nat.pos_iff_ne_zero, not_iff_not]
  rw [BitVec.add_right_eq_self]
  constructor
  · intro hzero
    have := congrArg BitVec.toNat hzero
    rwa [BitVec.toNat_ofNat, Nat.mod_eq_of_lt hlt] at this
  · intro hzero
    rw [hzero]

/-- **One version.** Between a beginning and a comparison that does not send the reader back, the
data is what it was. -/
theorem unchanged_of_no_retry (hg : Guards step J lock data) {start : BitVec 32} (hs : J s)
    (hbegin : (lock s).read_seqbegin = some start) (h : run step s as = some t)
    (hlt : turns step lock s as < 2 ^ 32) (hno : (lock t).read_seqretry start = false) {i : Nat}
    {u : σ} (hu : run step s (as.take i) = some u) : data u = data s := by
  refine hg.unchanged_of_turns hs ((hg.ok hs).read_seqbegin hbegin).1 h ?_ hu
  have hiff := hg.retry_iff hs hbegin h hlt
  rw [hno] at hiff
  exact Nat.eq_zero_of_not_pos fun hpos => Bool.false_ne_true (hiff.2 hpos)

end Guards

end LinuxKernelProg.Lib
