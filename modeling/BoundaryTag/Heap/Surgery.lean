import BoundaryTag.Heap.Filing

/-!
# Merging and splitting

No two neighbours are both free for longer than an operation takes: a chunk
that becomes free is merged with the free chunk above it, then with the one
below. A chunk that is handed out gives back what is left over when that makes
a chunk of at least one unit; the block is the upper part, so the remainder
keeps its header.
-/

namespace BoundaryTag

namespace Arena

variable {G : Type}

/-- The chunk right above, if it is free. -/
def freeAbove (a : Arena G) (c : Nat) : Except Fault (Option Nat) := do
  match ← a.nextAdjacent c with
  | some next => return if ← a.isFree next then some next else none
  | none => return none

/-- The chunk right below, if it is free. -/
def freeBelow (a : Arena G) (c : Nat) : Except Fault (Option Nat) := do
  match ← a.prevAdjacent c with
  | some prev => return if ← a.isFree prev then some prev else none
  | none => return none

/-- Gives the free chunk `c` the size `rest` where it stands in its list; the back link moves to the
new footer. -/
def resizeInPlace (c rest : Nat) : Action (Arena G) Unit := do
  let prev ← Action.read (·.prevFree c)
  setUnits c rest
  setPrevFree c prev

/-- Makes the slots above the free chunk `c` a chunk of `n` units that is in use. -/
def carve (c n : Nat) : Action (Arena G) Nat := do
  match ← Action.read (·.nextAdjacent c) with
  | none => throw (.noRoomAbove c)
  | some carved =>
    layOut carved n
    return carved

end Arena

namespace Heap

variable {G : Type}

/-- Whether both chunks are free. -/
def areFree (h : Heap G) (lower upper : Nat) : Except Fault Bool := do
  if ← h.arena.isFree lower then h.arena.isFree upper else return false

/-- The size of the chunk made of two neighbours: their tags between become data. -/
def mergedUnits (h : Heap G) (lower upper : Nat) : Except Fault Nat := do
  Word.add (← Word.add (← h.arena.units lower) (← h.arena.units upper)) 2

/-- Makes one free chunk of the free neighbours `lower` and `upper`. -/
def merge (lower upper : Nat) : Action (Heap G) Unit := do
  let above ← Action.read (·.arena.nextAdjacent lower)
  Action.require (above = some upper) (.assertionFailed .mergedAdjacent)
  let free ← Action.read (·.areFree lower upper)
  Action.require free (.assertionFailed .mergedFree)
  let units ← Action.read (·.mergedUnits lower upper)
  unlink lower
  unlink upper
  onArena (Arena.setUnits lower units)
  file lower
  Action.record [.merged lower upper units]

/-- Merges the free chunk `c` with its free neighbours; the resulting chunk. -/
def coalesce (c : Nat) : Action (Heap G) Nat := do
  match ← Action.read (·.arena.freeAbove c) with
  | some next => merge c next
  | none => pure ()
  match ← Action.read (·.arena.freeBelow c) with
  | some prev =>
    merge prev c
    return prev
  | none => return c

/-- Makes the chunk `c` free; the free chunk it is then part of. -/
def reclaim (c : Nat) : Action (Heap G) Nat := do
  file c
  coalesce c

/-- Gives the free chunk `c` the size `rest` by taking it out of its list and filing it anew. -/
def refile (c rest : Nat) : Action (Heap G) Unit := do
  unlink c
  onArena (Arena.setUnits c rest)
  file c

/-- Shrinks the free chunk `c` from `total` to `rest` units. It changes its list only together with
its size class. -/
def shrink (c total rest : Nat) : Action (Heap G) Unit := do
  let same ← Action.read fun h => .ok (h.config.classOf rest == h.config.classOf total)
  if same then onArena (Arena.resizeInPlace c rest) else refile c rest

/-- Carves an in-use chunk of `n` units off the top of the free chunk `c`. -/
def split (c n : Nat) : Action (Heap G) Nat := do
  let total ← Action.read (·.arena.units c)
  let free ← Action.read (·.arena.isFree c)
  Action.require free (.assertionFailed .splitIsFree)
  let needed ← Action.ofExcept (Word.add n 2)
  Action.require (needed < total) (.assertionFailed .splitHasRoom)
  let rest := total - needed
  shrink c total rest
  let carved ← onArena (Arena.carve c n)
  Action.record [.split c rest n carved]
  return carved

/-- Hands out the free chunk `c` for a block of `n` units, split when more than two units are left
over. -/
def take (c n : Nat) : Action (Heap G) Nat := do
  let total ← Action.read (·.arena.units c)
  let needed ← Action.ofExcept (Word.add n 2)
  if needed < total then split c n
  else
    unlink c
    onArena (Arena.setStatus c .inUse)
    return c

end Heap

end BoundaryTag
