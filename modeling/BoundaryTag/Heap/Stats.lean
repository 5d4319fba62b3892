import BoundaryTag.Heap.Basic

/-!
# Totals

How many chunks a heap has, how many units they hold, and how long its free
lists are.
-/

namespace BoundaryTag

/-- Totals gathered by a walk along the arena. -/
structure Stats where
  arenaBytes : Nat
  chunks : Nat
  freeChunks : Nat
  freeUnits : Nat
  usedChunks : Nat
  usedUnits : Nat
deriving DecidableEq, Repr

namespace Stats

/-- Bytes covered by all chunks, tags included. -/
def coveredBytes (s : Stats) : Except Fault Nat := do
  let data ← Word.add s.freeUnits s.usedUnits
  let tags ← Word.mul 2 s.chunks
  Word.mul (← Word.add data tags) unitBytes

/-- The totals after one more chunk. -/
def count (s : Stats) (units : Nat) (free : Bool) : Except Fault Stats := do
  let chunks ← Word.add s.chunks 1
  if free then
    return { s with
      chunks, freeChunks := ← Word.add s.freeChunks 1, freeUnits := ← Word.add s.freeUnits units }
  else
    return { s with
      chunks, usedChunks := ← Word.add s.usedChunks 1, usedUnits := ← Word.add s.usedUnits units }

end Stats

namespace Heap

variable {G : Type}

/-- Bytes obtained from the grower so far. -/
def arenaBytes (h : Heap G) : Except Fault Nat := Word.mul h.arena.length unitBytes

/-- Adds up the chunks from `c` on. -/
def statsFrom (a : Arena G) (c : Nat) (s : Stats) : Except Fault Stats := do
  let s ← s.count (← a.units c) (← a.isFree c)
  match _hn : a.nextAdjacent c with
  | .error e => throw e
  | .ok none => return s
  | .ok (some next) => statsFrom a next s
termination_by a.length - c
decreasing_by
  have := Arena.lt_of_nextAdjacent _hn
  omega

/-- The totals of the heap. -/
def stats (h : Heap G) : Except Fault Stats := do
  let zero : Stats := ⟨← h.arenaBytes, 0, 0, 0, 0, 0⟩
  match h.arena.first with
  | none => return zero
  | some c => statsFrom h.arena c zero

/-- The lengths of the free lists, bins first. -/
def freeListLengths (h : Heap G) : Except Fault (List Nat) :=
  (List.finRange classCount).mapM fun k => h.arena.listLength (h.head k)

end Heap

end BoundaryTag
