import BoundaryTag.Arena.Basic

/-!
# Walks along a free list

A free list is entered at its head and followed by the next links. Nothing in
the memory itself rules out a list that runs in a circle. A walk that has
visited more chunks than the arena has slots has been somewhere twice, and
from there on would never end; it stops with a fault instead.
-/

namespace BoundaryTag.Arena

variable {G : Type}

/-- The first chunk on the list from `cursor` on whose unit count passes `fits`, within `visits`
visits. -/
def firstListedWithin (a : Arena G) (fits : Nat → Bool) :
    (visits : Nat) → (cursor : Option Nat) → Except Fault (Option Nat)
  | _, none => return none
  | 0, some _ => throw .endlessList
  | visits + 1, some c => do
    if fits (← a.units c) then return some c
    else a.firstListedWithin fits visits (← a.nextFree c)

/-- The first chunk on the list from `head` on whose unit count passes `fits`. -/
def firstListed (a : Arena G) (fits : Nat → Bool) (head : Option Nat) : Except Fault (Option Nat) :=
  a.firstListedWithin fits (a.length + 1) head

/-- The number of chunks on the list from `cursor` on, within `visits` visits. -/
def listLengthWithin (a : Arena G) : (visits : Nat) → (cursor : Option Nat) → Except Fault Nat
  | _, none => return 0
  | 0, some _ => throw .endlessList
  | visits + 1, some c => return (← a.listLengthWithin visits (← a.nextFree c)) + 1

/-- The number of chunks on the list from `head` on. -/
def listLength (a : Arena G) (head : Option Nat) : Except Fault Nat :=
  a.listLengthWithin (a.length + 1) head

end BoundaryTag.Arena
