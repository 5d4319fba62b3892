import BoundaryTag.Slot
import BoundaryTag.Violation

/-!
# Faults

A fault ends an operation at the point where it arises: arithmetic leaves 64
bits, memory outside the arena is asked for, an assertion about the chunk at
hand fails, or the closing inspection finds the heap inconsistent. On the legal
use of a heap none arises; they are how misuse is caught.
-/

namespace BoundaryTag

/-- The facts that list surgery and chunk surgery insist on before they write. -/
inductive Assertion where
  /-- A chunk goes behind a predecessor below it. -/
  | predecessorBelow
  /-- Only a free chunk leaves a list. -/
  | unlinkedIsFree
  /-- A chunk without a predecessor is the head of its list. -/
  | unlinkedIsHead
  /-- Merged chunks are neighbours. -/
  | mergedAdjacent
  /-- Merged chunks are free. -/
  | mergedFree
  /-- A chunk that is split is free. -/
  | splitIsFree
  /-- A chunk that is split has room for the part and two tags. -/
  | splitHasRoom
deriving DecidableEq, Repr

/-- Why an operation was given up. -/
inductive Fault where
  | addOverflow
  | subOverflow
  | mulOverflow
  /-- A region of this capacity cannot be laid out. -/
  | regionTooLarge (capacity : Nat)
  /-- A slot index at or past the end of the arena. -/
  | slotOutside (slot length : Nat)
  /-- A footer whose chunk would begin below the arena. -/
  | footerUnderflow (footer units : Nat)
  /-- A unit count that does not fit a tag. -/
  | tooManyUnits (chunk units : Nat)
  /-- An address that no data region of the arena can start at. -/
  | foreignPointer (address : Nat)
  /-- A released address whose header does not say "in use". -/
  | notInUse (address : Nat) (found : Option Status)
  /-- The closing inspection failed. -/
  | corrupted (violation : Violation)
  | assertionFailed (assertion : Assertion)
  /-- A split that left no chunk above the remainder. -/
  | noRoomAbove (chunk : Nat)
  /-- A walk along a free list that visits some chunk twice and so never ends. -/
  | endlessList
deriving DecidableEq, Repr

/-- How a report writes the status found in a header. -/
def foundMark : Option Status → String
  | none => "None"
  | some .free => "Some(Free)"
  | some .inUse => "Some(InUse)"

/-- The text of a fault; addresses are given from `origin`. -/
def Fault.message (origin : Nat) : Fault → String
  | addOverflow => "attempt to add with overflow"
  | subOverflow => "attempt to subtract with overflow"
  | mulOverflow => "attempt to multiply with overflow"
  | regionTooLarge capacity => "region capacity " ++ toString capacity ++ " is too large"
  | slotOutside slot length =>
    "slot " ++ toString slot ++ " outside arena of " ++ toString length ++ " units"
  | footerUnderflow footer units =>
    "footer " ++ toString footer ++ " claims " ++ toString units ++ " units below the arena start"
  | tooManyUnits chunk units =>
    "chunk " ++ chunkMark chunk ++ " cannot hold " ++ toString units ++ " units"
  | foreignPointer address =>
    "pointer " ++ addressMark origin address ++ " was not handed out by this arena"
  | notInUse address found =>
    "release of " ++ addressMark origin address ++ " which is not in use: " ++ foundMark found
  | corrupted violation => "heap corrupted: " ++ violation.message
  | assertionFailed _ => "assertion failed"
  | noRoomAbove chunk =>
    "internal error: entered unreachable code: split of " ++ chunkMark chunk ++
      " left no room above it"
  | endlessList => "free list does not terminate"

end BoundaryTag
