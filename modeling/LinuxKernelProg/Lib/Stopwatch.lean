import LinuxKernelProg.Lib.BoundedMap
import LinuxKernelProg.Lib.History

/-!
# Start times, one for each key

Some events start the watch of their key, the others stop it. A map of bounded size that puts in the
start times and takes out the keys of the watches that stop holds, as long as it has room, the
watches whose latest event is a start (`lookup_eq_slot`).
-/

namespace LinuxKernelProg.Lib

/-- The key of an event, and the time it starts the watch with; `none` if it stops it. -/
structure Stopwatch (α κ τ : Type) where
  key : α → κ
  start? : α → Option τ

namespace Stopwatch

variable {α κ τ : Type} [DecidableEq κ] {capacity : Nat} (w : Stopwatch α κ τ)

/-- What the latest event of the key has started. -/
def slot : List α → κ → Option τ
  | [], _ => none
  | e :: past, k => if w.key e = k then w.start? e else slot past k

def press (e : α) (m : BoundedMap κ τ capacity) : BoundedMap κ τ capacity :=
  match w.start? e with
  | some v => m.put (w.key e) v
  | none => m.delete (w.key e)

theorem lookup_press {m : BoundedMap κ τ capacity} {e : α}
    (h : w.start? e ≠ none → m.HasRoom (w.key e)) (k : κ) :
    (w.press e m).lookup k = if w.key e = k then w.start? e else m.lookup k := by
  unfold press
  cases hs : w.start? e with
  | some v =>
    simp only [BoundedMap.lookup_put (h (by simp [hs])), eq_comm (a := k)]
  | none =>
    simp only [BoundedMap.lookup_delete, eq_comm (a := k)]

/-- A map that starts empty and that every event presses, as long as it has room. -/
theorem lookup_eq_slot {m : List α → BoundedMap κ τ capacity} (hnil : m [] = .empty)
    (hpress : ∀ e past, m (e :: past) = w.press e (m past)) {h : List α}
    (hroom : Each (fun past e => w.start? e ≠ none → (m past).HasRoom (w.key e)) h) (k : κ) :
    (m h).lookup k = w.slot h k := by
  induction h with
  | nil =>
    rw [hnil]
    rfl
  | cons e past ih => rw [hpress, w.lookup_press hroom.1, ih hroom.2, slot]

end Stopwatch

end LinuxKernelProg.Lib
