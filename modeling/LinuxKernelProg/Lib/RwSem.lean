import LinuxKernelProg.Lib.Run

/-!
# Reader-writer semaphores

One writer or any number of readers, and a writer that becomes a reader without letting another
writer in between. `Holds` says that the semaphore counts what its users have of it, so a writer is
alone (`Holds.alone`).
-/

namespace LinuxKernelProg.Lib

/-- What a user has of a semaphore. -/
inductive Mode where
  | none
  | read
  | write
  deriving DecidableEq

structure RwSem where
  writer : Bool
  readers : Nat
  deriving DecidableEq

namespace RwSem

def init : RwSem := ⟨false, 0⟩

def down_write (s : RwSem) : Option RwSem :=
  if s.writer = false ∧ s.readers = 0 then some { s with writer := true } else none

def up_write (s : RwSem) : RwSem := { s with writer := false }

def downgrade_write (s : RwSem) : RwSem := ⟨false, s.readers + 1⟩

def down_read (s : RwSem) : Option RwSem :=
  if s.writer = false then some { s with readers := s.readers + 1 } else none

def up_read (s : RwSem) : RwSem := { s with readers := s.readers - 1 }

/-- The semaphore counts what its users have. -/
structure Holds (s : RwSem) (modes : List Mode) : Prop where
  write : modes.count .write = s.writer.toNat
  read : modes.count .read = s.readers
  apart : s.writer → s.readers = 0

variable {s s' : RwSem} {modes : List Mode} {i j : Nat} {m : Mode}

theorem down_write_some (h : s.down_write = some s') :
    s.writer = false ∧ s.readers = 0 ∧ s' = { s with writer := true } := by
  unfold down_write at h
  split at h
  · next hfree => exact ⟨hfree.1, hfree.2, (Option.some.inj h).symm⟩
  · nomatch h

theorem down_read_some (h : s.down_read = some s') :
    s.writer = false ∧ s' = { s with readers := s.readers + 1 } := by
  unfold down_read at h
  split at h
  · next hfree => exact ⟨hfree, (Option.some.inj h).symm⟩
  · nomatch h

namespace Holds

theorem init (n : Nat) : Holds .init (List.replicate n .none) := by
  refine ⟨?_, ?_, nofun⟩
  · exact List.count_eq_zero.2 fun h => nomatch List.eq_of_mem_replicate h
  · exact List.count_eq_zero.2 fun h => nomatch List.eq_of_mem_replicate h

/-- What the users have does not depend on their order. -/
theorem perm {ms : List Mode} (h : Holds s modes) (hp : ms.Perm modes) : Holds s ms :=
  ⟨(hp.count_eq _).trans h.write, (hp.count_eq _).trans h.read, h.apart⟩

/-- A user and the others, before and after a step of the user. -/
theorem split {m m' : Mode} (h : Holds s modes) (hi : modes[i]? = some m)
    (hstep : ∀ {os}, Holds s (m :: os) → Holds s' (m' :: os)) : Holds s' (modes.set i m') := by
  obtain ⟨os, hp, hset⟩ := perm_of_getElem? hi
  exact (hstep (h.perm hp.symm)).perm (hset m')

theorem down_write (h : Holds s modes) (hi : modes[i]? = some .none) (hs : s.down_write = some s') :
    Holds s' (modes.set i .write) := by
  obtain ⟨hwriter, hreaders, rfl⟩ := down_write_some hs
  refine h.split hi fun h => ⟨?_, ?_, fun _ => hreaders⟩
  · have hcount := h.write
    rw [hwriter] at hcount
    simpa using hcount
  · simpa using h.read

theorem up_write (h : Holds s modes) (hi : modes[i]? = some .write) :
    Holds s.up_write (modes.set i .none) := by
  refine h.split hi fun h => ⟨?_, ?_, nofun⟩
  · have hwrite := h.write
    rw [List.count_cons_self] at hwrite
    have hle := Bool.toNat_le s.writer
    rw [← hwrite] at hle
    simpa [RwSem.up_write] using Nat.eq_zero_of_le_zero (Nat.le_of_succ_le_succ hle)
  · simpa [RwSem.up_write] using h.read

theorem downgrade_write (h : Holds s modes) (hi : modes[i]? = some .write) :
    Holds s.downgrade_write (modes.set i .read) := by
  refine h.split hi fun h => ?_
  have hwrite := h.write
  have hread := h.read
  rw [List.count_cons_self] at hwrite
  cases hw : s.writer with
  | false =>
    rw [hw] at hwrite
    nomatch hwrite
  | true =>
    rw [hw] at hwrite
    refine ⟨?_, ?_, nofun⟩
    · simpa [RwSem.downgrade_write] using hwrite
    · simpa [RwSem.downgrade_write] using hread

theorem down_read (h : Holds s modes) (hi : modes[i]? = some .none) (hs : s.down_read = some s') :
    Holds s' (modes.set i .read) := by
  obtain ⟨hwriter, rfl⟩ := down_read_some hs
  refine h.split hi fun h => ⟨?_, ?_, fun hw => ?_⟩
  · simpa using h.write
  · simpa using h.read
  · exact absurd (hwriter.symm.trans hw) nofun

theorem up_read (h : Holds s modes) (hi : modes[i]? = some .read) :
    Holds s.up_read (modes.set i .none) := by
  refine h.split hi fun h => ⟨?_, ?_, fun hw => ?_⟩
  · simpa [RwSem.up_read] using h.write
  · have hread := h.read
    rw [List.count_cons_self] at hread
    rw [RwSem.up_read, ← hread]
    simp
  · rw [RwSem.up_read, h.apart hw]

theorem writer_iff (h : Holds s modes) : s.writer = true ↔ .write ∈ modes := by
  rw [← List.count_pos_iff, h.write]
  cases s.writer <;> decide

/-- While one user writes, nobody else has anything. -/
theorem alone (h : Holds s modes) (hi : modes[i]? = some .write) (hj : modes[j]? = some m)
    (hij : j ≠ i) : m = .none := by
  obtain ⟨hlt, hget⟩ := List.getElem?_eq_some_iff.1 hi
  have hp : modes.Perm (.write :: modes.eraseIdx i) := by
    have := List.getElem_cons_eraseIdx_perm hlt
    rwa [hget, List.perm_comm] at this
  have hothers := h.perm hp.symm
  have hm : m ∈ modes.eraseIdx i := List.mem_eraseIdx_iff_getElem?.2 ⟨j, hij, hj⟩
  have hwrite := hothers.write
  have hread := hothers.read
  rw [List.count_cons_self] at hwrite
  have hwriter : s.writer = true := hothers.writer_iff.2 List.mem_cons_self
  rw [hwriter, Bool.toNat_true, Nat.add_eq_right, List.count_eq_zero] at hwrite
  have hne : Mode.write ≠ .read := nofun
  rw [List.count_cons_of_ne hne, hothers.apart hwriter, List.count_eq_zero] at hread
  cases m with
  | none => rfl
  | read => exact absurd hm hread
  | write => exact absurd hm hwrite

/-- While somebody reads, nobody writes. -/
theorem no_writer (h : Holds s modes) (hi : modes[i]? = some .read) : modes[j]? ≠ some .write := by
  intro hj
  have hij : i ≠ j := by
    rintro rfl
    nomatch hi.symm.trans hj
  nomatch h.alone hj hi hij

end Holds

end RwSem

end LinuxKernelProg.Lib
