import BoundaryTag.Arena.Extend
import BoundaryTag.Heap.Check
import BoundaryTag.Heap.Surgery
import BoundaryTag.Rounding

/-!
# Allocation and release

A block of bytes is the data region of a chunk in use. An allocation looks
through the free lists from the class of the request upwards and takes the
first chunk that is large enough; only when there is none does the arena grow.
A release finds the chunk of its address again and makes it free. Both end
with an inspection of the heap.
-/

namespace BoundaryTag

/-- Why an allocation fails. -/
inductive AllocError where
  | zeroSize
  /-- No chunk can be that large. -/
  | tooLarge (size : Nat)
  /-- No free chunk fits and the arena does not grow. -/
  | outOfMemory (source : GrowError)
deriving DecidableEq, Repr

/-- The text of an allocation error. -/
def AllocError.message : AllocError → String
  | zeroSize => "zero-sized allocation requested"
  | tooLarge size => "allocation of " ++ toString size ++ " bytes exceeds the largest chunk"
  | outOfMemory _ => "out of memory"

/-- The same failure with the addresses of its cause counted from `origin`. -/
def AllocError.relativeTo (origin : Nat) : AllocError → AllocError
  | outOfMemory source => outOfMemory (source.relativeTo origin)
  | e => e

/-- The address that stands for no block. -/
def nullAddress : Nat := 0

namespace Heap

variable {G : Type}

/-! ## Placement -/

/-- The classes whose chunks may hold `units` units, in the order in which they are searched. -/
def searchOrder (h : Heap G) (units : Nat) : List SizeClass :=
  (List.finRange classCount).drop (h.config.classOf units).val

/-- The first chunk of at least `units` units in the order of the search. -/
def firstFit (h : Heap G) (units : Nat) : Except Fault (Option Nat) :=
  (h.searchOrder units).findSomeM? fun k => h.arena.firstListed (units ≤ ·) (h.head k)

/-- Extends the arena by a free chunk of at least `units` units, merged with the last chunk when
that one is free. -/
def grow [Grower G] (units : Nat) : Action (Heap G) (Except GrowError Nat) := do
  let least ← Action.read fun h => .ok h.config.minGrowth
  match ← onArena (Arena.extend (max units least)) with
  | .error e => return .error e
  | .ok c => return .ok (← reclaim c)

/-- A free chunk of at least `units` units. -/
def obtain [Grower G] (units : Nat) : Action (Heap G) (Except GrowError Nat) := do
  match ← Action.read (·.firstFit units) with
  | some c => return .ok c
  | none => grow units

/-! ## Blocks -/

/-- The units a block of `size` bytes takes; none when no chunk has that many. -/
def blockUnits? (size : Nat) : Except Fault (Option Nat) :=
  return (← sizeToUnits size unitBytes).filter (· ≤ maxUnits - 2)

/-- The address of a new block of `size` bytes. -/
def allocate [Grower G] (size : Nat) : Action (Heap G) (Except AllocError Nat) := do
  if size = 0 then return .error .zeroSize
  match ← Action.ofExcept (blockUnits? size) with
  | none => return .error (.tooLarge size)
  | some units =>
    match ← obtain units with
    | .error e =>
      Action.record [.failed size e]
      return .error (.outOfMemory e)
    | .ok c =>
      let c ← take c units
      let address ← Action.read (·.arena.dataAddress c)
      Action.record [.allocated size address c]
      closingCheck
      return .ok address

/-- Takes back the block at `address`; nothing happens for the null address. -/
def release (address : Nat) : Action (Heap G) Unit := do
  if address = nullAddress then return ()
  let c ← Action.read (·.arena.chunkAt address)
  let found ← Action.read (·.arena.status c)
  Action.require (found = some .inUse) (.notInUse address found)
  let free ← reclaim c
  Action.record [.released address free]
  closingCheck

end Heap

end BoundaryTag
