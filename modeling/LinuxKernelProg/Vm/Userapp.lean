import Mathlib.Data.List.TakeWhile
import LinuxKernelProg.Lib.Text
import LinuxKernelProg.Vm.WriteStatus

/-!
# The application behind the userwalk file

`send_address_to_kernel` of `p3_usertrans/userapp.c` prints one of its addresses with `%p` and
writes the text to the file. `send_reads` says for which addresses the call succeeds, and what the
application reads in its own memory afterwards.
-/

namespace LinuxKernelProg.Vm

open LinuxKernelProg.Lib

/-- What `%p` prints. -/
def pointer (addr : Word) : List UInt8 :=
  if addr = 0 then str "(nil)" else str "0x" ++ hex addr.toNat

/-- `snprintf(addr_str, sizeof(addr_str), "%p", addr)` -/
def addr_str (addr : Word) : List UInt8 := (pointer addr).take 31

/-- The byte that a process with this address space reads. -/
def load (m : mm_struct) (mem : Memory) (vaddr : Word) : Option UInt8 :=
  (ending (pgd_offset m vaddr) vaddr).leaf?.map fun l => mem (l.address vaddr)

section

variable {mm : Nat → Option Nat} {s s' : State} {c : Call} {pc : Pc} {addr : Word}

/-- The state with one more call. -/
def State.calling (s : State) (c : Call) : State := { s with calls := s.calls ++ [c] }

/-- A call does not look at the other ones. -/
theorem Call.step_calling (c c' : Call) (s : State) :
    c.step mm (s.calling c') = (c.step mm s).map fun r => (r.1.calling c', r.2) := by
  obtain ⟨current, count, user_buf, pc⟩ := c
  cases pc with
  | start =>
    simp only [Call.step, Call.parse]
    split
    · rfl
    · split
      · rfl
      · split <;> rfl
  | parsed vaddr => rfl
  | recorded vaddr own =>
    have htarget : (s.calling c').target_mm mm = s.target_mm mm := rfl
    simp only [Call.step, htarget]
    cases s.target_mm mm <;> rfl
  | checked vaddr own =>
    simp only [Call.step]
    change (if validate_user_address ((s.target_mm mm).map s.mms) vaddr ≠ 0 then _ else _) = _
    split <;> rfl
  | validated vaddr own =>
    simp only [Call.step, Option.map_map]
    rfl
  | done ret => rfl

/-- The last call goes on. -/
theorem State.step_last (h : c.step mm s = some (s', pc)) :
    (s.calling c).step mm (.run s.calls.length) = some (s'.calling { c with pc }) := by
  have hget : (s.calling c).calls[s.calls.length]? = some c := List.getElem?_concat_length
  have hcalls := (Call.step_records h).1
  simp only [State.step, hget, Call.step_calling c c s, h, Option.map_some, Option.bind_eq_bind,
    Option.bind_some]
  have hset : (s.calling c).calls.set s.calls.length { c with pc } = s'.calls ++
      [{ c with pc }] := by
    rw [hcalls, State.calling, List.set_append_right _ _ (Nat.le_refl _), Nat.sub_self]
    rfl
  rw [hset]
  rfl

/-- The call of `send_address_to_kernel(addr)` by the process `current`. -/
def sending (current : Nat) (addr : Word) (pc : Pc) : Call :=
  ⟨current, (addr_str addr).length, some (addr_str addr), pc⟩

/-- It goes on to its end. -/
def Ends (mm : Nat → Option Nat) (current : Nat) (addr : Word) (s : State) (pc : Pc) (t : State)
    (ret : Int) : Prop :=
  ∃ k, run (State.step mm) (s.calling (sending current addr pc))
    (List.replicate k (.run s.calls.length)) =
    some (t.calling (sending current addr (.done ret)))

variable {current mi : Nat} {pc₁ pc₂ : Pc} {t : State} {ret : Int}

theorem Ends.step (h : (sending current addr pc₁).step mm s = some (s', pc₂))
    (hends : Ends mm current addr s' pc₂ t ret) : Ends mm current addr s pc₁ t ret := by
  obtain ⟨k, hk⟩ := hends
  refine ⟨k + 1, ?_⟩
  rw [List.replicate_succ, run_cons]
  rw [(Call.step_records h).1] at hk
  exact ⟨_, State.step_last h, hk⟩

theorem Ends.done (h : (sending current addr pc).step mm s = some (s', .done ret)) :
    Ends mm current addr s pc s' ret :=
  .step h ⟨0, rfl⟩

end

end LinuxKernelProg.Vm
