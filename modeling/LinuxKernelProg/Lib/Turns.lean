import LinuxKernelProg.Lib.Run
import Mathlib.Logic.Function.Iterate

/-!
# Taking turns

One token goes from party to party. A party that is offered the token may enter its section, and
leaves it by offering the token to the next party. The sections that were entered are then the
parties in their order (`Turns.ordered_of_run`).
-/

namespace LinuxKernelProg.Lib

structure Turns (P : Type) where
  /-- Who has the token, or is offered it. -/
  party : P
  inside : Bool
  /-- The sections that were entered, the latest one first. -/
  log : List P

namespace Turns

variable {P : Type} (next : P → P) (first : P)

inductive Move where
  | enter
  | leave

def step (u : Turns P) : Move → Option (Turns P)
  | .enter => if u.inside then none else some { u with inside := true, log := u.party :: u.log }
  | .leave => if u.inside then some { u with party := next u.party, inside := false } else none

def init : Turns P := ⟨first, false, []⟩

/-- The party whose turn comes after `n` others. -/
def nth (n : Nat) : P := next^[n] first

/-- The log has the parties in their order. -/
def Ordered (log : List P) : Prop := log.reverse = (List.range log.length).map (nth next first)

variable {next first}

theorem Ordered.nil : Ordered next first [] := rfl

theorem Ordered.cons {log : List P} {p : P} (h : Ordered next first log)
    (hp : p = nth next first log.length) : Ordered next first (p :: log) := by
  subst hp
  unfold Ordered at h ⊢
  rw [List.reverse_cons, List.length_cons, List.range_succ, List.map_append, h]
  rfl

variable (next first) in
structure Inv (u : Turns P) : Prop where
  ordered : Ordered next first u.log
  party : u.inside = false → u.party = nth next first u.log.length
  next_party : u.inside = true → next u.party = nth next first u.log.length

theorem inv_init : Inv next first (init first) where
  ordered := Ordered.nil
  party := fun _ => rfl
  next_party := nofun

theorem step_inv {u u' : Turns P} {m : Move} (hu : Inv next first u) (h : step next u m = some u') :
    Inv next first u' := by
  cases m with
  | enter =>
    simp only [step] at h
    split at h
    · nomatch h
    · next hin =>
      cases h
      have hparty := hu.party (Bool.eq_false_iff.2 hin)
      refine ⟨hu.ordered.cons hparty, nofun, fun _ => ?_⟩
      change next u.party = next^[u.log.length + 1] first
      rw [Function.iterate_succ_apply', hparty, nth]
  | leave =>
    simp only [step] at h
    split at h
    · next hin =>
      cases h
      exact ⟨hu.ordered, fun _ => hu.next_party hin, nofun⟩
    · nomatch h

/-- In every run the parties have entered their sections in their order. -/
theorem ordered_of_run {u : Turns P} {ms : List Move}
    (h : run (step next) (init first) ms = some u) :
    Ordered next first u.log :=
  (run_inv_of_step step_inv inv_init h).ordered

end Turns

end LinuxKernelProg.Lib
