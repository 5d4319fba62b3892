import BoundaryTag.Address

/-!
# Violations

The ways in which the inspection of a heap can find it inconsistent. A chunk
is named by the slot index of its header and printed as `#7`.
-/

namespace BoundaryTag

/-- A chunk in a report: `#` and its index. -/
def chunkMark (chunk : Nat) : String := "#" ++ toString chunk

/-- One structural inconsistency of a heap. -/
inductive Violation where
  /-- The header or the footer would lie outside the arena. -/
  | outOfBounds (chunk : Nat)
  /-- The header claims an empty data region. -/
  | zeroUnits (chunk : Nat)
  /-- Header and footer disagree on the size. -/
  | footerMismatch (chunk header footer : Nat)
  /-- The status word stands for no status. -/
  | badStatus (chunk word : Nat)
  /-- Two neighbours are both free. -/
  | uncoalesced (chunk : Nat)
  /-- A chunk in use is in a free list. -/
  | notFree (chunk : Nat)
  /-- A chunk is in the list of another size class. -/
  | misfiled (chunk units : Nat)
  /-- The footer does not name the predecessor in the list. -/
  | brokenBackLink (chunk : Nat)
  /-- The overflow list does not ascend at this chunk. -/
  | unordered (chunk : Nat)
  /-- The list has more entries than the arena has free chunks. -/
  | cycle (head : Nat)
  /-- Some free chunk is in no list. -/
  | unlisted (free listed : Nat)
  /-- The chunks do not fill the arena. -/
  | tiling (covered length : Nat)
deriving DecidableEq, Repr

namespace Violation

/-- The chunk a violation is about, if it is about one. -/
def chunk? : Violation → Option Nat
  | outOfBounds c | zeroUnits c | footerMismatch c _ _ | badStatus c _ | uncoalesced c
  | notFree c | misfiled c _ | brokenBackLink c | unordered c | cycle c => some c
  | unlisted _ _ | tiling _ _ => none

/-- The text of a violation. -/
def message : Violation → String
  | outOfBounds c => "chunk " ++ chunkMark c ++ " lies outside the arena"
  | zeroUnits c => "chunk " ++ chunkMark c ++ " has zero units"
  | footerMismatch c header footer =>
    "chunk " ++ chunkMark c ++ " header says " ++ toString header ++ " units, footer says " ++
      toString footer
  | badStatus c word => "chunk " ++ chunkMark c ++ " has unknown status word " ++ hexadecimal word
  | uncoalesced c => "chunk " ++ chunkMark c ++ " and its successor are both free"
  | notFree c => "chunk " ++ chunkMark c ++ " is in a free list but not free"
  | misfiled c units =>
    "chunk " ++ chunkMark c ++ " with " ++ toString units ++ " units is filed in the wrong list"
  | brokenBackLink c => "chunk " ++ chunkMark c ++ " has a broken back link"
  | unordered c => "overflow list is out of address order at chunk " ++ chunkMark c
  | cycle head => "free list starting at " ++ chunkMark head ++ " does not terminate"
  | unlisted free listed =>
    toString free ++ " free chunks in the arena but " ++ toString listed ++ " in the free lists"
  | tiling covered length =>
    "chunks cover " ++ toString covered ++ " units of a " ++ toString length ++ " unit arena"

end Violation

end BoundaryTag
