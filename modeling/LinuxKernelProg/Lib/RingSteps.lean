import LinuxKernelProg.Lib.Ring

/-!
# List operations, one access at a time

`Insert` and `Remove` are where an insertion or a removal stands, for a system in which other
accesses come in between: each step is one load or one store of a pointer. The accesses and their
order are those of `LinkMem.insertAfter` and `LinkMem.removeCell`.
-/

namespace LinuxKernelProg.Lib

open LinkMem

/-- An insertion behind the head. -/
inductive Insert (α : Type) where
  /-- Loads the `next` pointer of the head. -/
  | load
  /-- Stores the `next` pointer of the new cell, -/
  | next (n : α)
  /-- its `prev` pointer, -/
  | prev (n : α)
  /-- the `next` pointer of the head, -/
  | publish (n : α)
  /-- and the `prev` pointer of the cell behind. -/
  | back (n : α)
  deriving DecidableEq

/-- The removal of a cell. -/
inductive Remove (α : Type) where
  /-- Loads the `prev` pointer of the cell, -/
  | loadPrev
  /-- and its `next` pointer. -/
  | loadNext (p : α)
  /-- Stores the `prev` pointer of the cell behind, -/
  | back (p n : α)
  /-- the `next` pointer of the cell in front, -/
  | forth (p n : α)
  /-- and the `prev` pointer of the cell itself. -/
  | poison
  deriving DecidableEq

variable {M α : Type} [DecidableEq α] [LinkMem M α]

/-- The next access, with where the insertion stands then; the memory has to have the cell. -/
def Insert.step (m : M) (new head : α) : Insert α → Option (M × Option (Insert α))
  | .load => (nextOf m head).map fun n => (m, some (.next n))
  | .next n => (setNext m new n).map fun m => (m, some (.prev n))
  | .prev n => (setPrev m new head).map fun m => (m, some (.publish n))
  | .publish n => (setNext m head new).map fun m => (m, some (.back n))
  | .back n => (setPrev m n new).map fun m => (m, none)

def Remove.step (m : M) (a poison : α) : Remove α → Option (M × Option (Remove α))
  | .loadPrev => (prevOf m a).map fun p => (m, some (.loadNext p))
  | .loadNext p => (nextOf m a).map fun n => (m, some (.back p n))
  | .back p n => (setPrev m n p).map fun m => (m, some (.forth p n))
  | .forth p n => (setNext m p n).map fun m => (m, some .poison)
  | .poison => (setPrev m a poison).map fun m => (m, none)

end LinuxKernelProg.Lib
