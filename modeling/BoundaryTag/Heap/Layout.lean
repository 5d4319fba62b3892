import BoundaryTag.Arena.Bytes
import BoundaryTag.Heap.Allocation

/-!
# Requests with an alignment

Programs ask for blocks by size and alignment and are told of a failure by the
absence of a block. Every block is aligned to a unit and to nothing more, so
larger alignments are refused. Resizing always moves: a new block, a copy of
the bytes both blocks have, and a release of the old block.
-/

namespace BoundaryTag

/-- What a program asks for. -/
structure Layout where
  size : Nat
  align : Nat
deriving DecidableEq, Repr

namespace Heap

variable {G : Type} [Grower G]

/-- The address of a new block, if there is one. -/
def allocateLayout (l : Layout) : Action (Heap G) (Option Nat) := do
  if unitBytes < l.align then return none
  match ← allocate l.size with
  | .ok address => return some address
  | .error _ => return none

/-- The address of a new block whose bytes are zero. -/
def allocateZeroed (l : Layout) : Action (Heap G) (Option Nat) := do
  match ← allocateLayout l with
  | none => return none
  | some address =>
    onArena (Arena.storeBytes address (List.replicate l.size 0))
    return some address

/-- Moves the block at `address` into a new one of `size` bytes. Without a new block the old one
stays. -/
def reallocate (address : Nat) (l : Layout) (size : Nat) : Action (Heap G) (Option Nat) := do
  match ← allocateLayout ⟨size, l.align⟩ with
  | none => return none
  | some fresh =>
    let bytes ← Action.read (·.arena.loadBytes address (min l.size size))
    onArena (Arena.storeBytes fresh bytes)
    release address
    return some fresh

end Heap

end BoundaryTag
