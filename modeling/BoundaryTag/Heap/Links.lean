import BoundaryTag.Heap.Basic

/-!
# Entries of the free lists

The lists are doubly linked through the tags: a chunk enters its list at the
front or behind a given chunk, and leaves it from any place. These actions
write links and heads only; sizes and statuses stay as they are.
-/

namespace BoundaryTag

/-- Makes `prev` the predecessor of `c`, where `c` is a chunk. -/
def Arena.linkBack {G : Type} (c prev : Option Nat) : Action (Arena G) Unit :=
  match c with
  | some c => setPrevFree c prev
  | none => pure ()

namespace Heap

variable {G : Type}

/-- Puts `c` at the front of the list of its class. -/
def pushFront (c : Nat) : Action (Heap G) Unit := do
  let k ← Action.read (·.classAt c)
  let old ← Action.read fun h => .ok (h.head k)
  onArena do
    Arena.setNextFree c old
    Arena.setPrevFree c none
    Arena.linkBack old (some c)
  setHead k (some c)

/-- Puts `c` behind `pred`, which is below it. -/
def insertAfter (pred c : Nat) : Action (Heap G) Unit := do
  Action.require (pred < c) (.assertionFailed .predecessorBelow)
  onArena do
    let next ← Action.read (·.nextFree pred)
    Arena.setNextFree c next
    Arena.setPrevFree c (some pred)
    Arena.linkBack next (some c)
    Arena.setNextFree pred (some c)

/-- Makes `next` follow what comes before `c`: the chunk `prev`, or the head of the list. -/
def bypass (c : Nat) (prev next : Option Nat) : Action (Heap G) Unit := do
  match prev with
  | some prev => onArena (Arena.setNextFree prev next)
  | none =>
    let k ← Action.read (·.classAt c)
    let first ← Action.read fun h => .ok (h.head k)
    Action.require (first = some c) (.assertionFailed .unlinkedIsHead)
    setHead k next

/-- Takes the free chunk `c` out of its list. -/
def unlink (c : Nat) : Action (Heap G) Unit := do
  let free ← Action.read (·.arena.isFree c)
  Action.require free (.assertionFailed .unlinkedIsFree)
  let prev ← Action.read (·.arena.prevFree c)
  let next ← Action.read (·.arena.nextFree c)
  bypass c prev next
  onArena do
    Arena.linkBack next prev
    Arena.setNextFree c none
    Arena.setPrevFree c none

end Heap

end BoundaryTag
