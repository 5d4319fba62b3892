import BoundaryTag.Heap.Basic

/-!
# Inspection

The inspection of a heap looks for the first inconsistency. It walks the
arena: every chunk is well formed, no two neighbours are free, and the chunks
fill the arena. Then it walks the eleven lists: every entry is a well-formed
free chunk in the list of its class, its footer names its predecessor, the
overflow list ascends, and in the end as many entries were seen as there are
free chunks. Nothing is taken on trust: any memory and any heads can be
inspected.
-/

namespace BoundaryTag

namespace Arena

variable {G : Type}

/-- What is wrong with the chunk at `c` by itself. -/
def chunkViolation? (a : Arena G) (c : Nat) : Except Fault (Option Violation) := do
  if a.length ≤ c then return some (.outOfBounds c)
  let header ← a.slot c
  if header.units = 0 then return some (.zeroUnits c)
  if header.status? = none then return some (.badStatus c header.status.toNat)
  let footerIndex ← a.footerOf c
  if a.length ≤ footerIndex then return some (.outOfBounds c)
  let footer ← a.slot footerIndex
  if footer.units ≠ header.units then
    return some (.footerMismatch c header.units.toNat footer.units.toNat)
  return none

end Arena

namespace Heap

variable {G : Type}

/-! ## The arena -/

/-- What the walk along the arena has gathered. -/
structure Tally where
  /-- Units of the chunks seen, tags included. -/
  covered : Nat
  /-- Free chunks seen. -/
  free : Nat
  /-- The last chunk seen, if it is free. -/
  lowerFree : Option Nat
deriving DecidableEq, Repr

/-- Nothing seen yet. -/
def Tally.zero : Tally := ⟨0, 0, none⟩

/-- The tally after one more chunk of `units` units. -/
def Tally.count (t : Tally) (c units : Nat) (free : Bool) : Except Fault Tally := do
  let seen ← if free then Word.add t.free 1 else pure t.free
  let covered ← Word.add t.covered (← Word.add units 2)
  return ⟨covered, seen, if free then some c else none⟩

/-- The free chunk below and next to the chunk at hand, if that one is free too. -/
def Tally.clash? (t : Tally) (free : Bool) : Option Nat := if free then t.lowerFree else none

/-- Walks the arena from the chunk `c` on. -/
def tallyFrom (a : Arena G) (c : Nat) (t : Tally) : Except Fault (Except Violation Tally) := do
  match ← a.chunkViolation? c with
  | some v => return .error v
  | none =>
    let free ← a.isFree c
    match t.clash? free with
    | some lower => return .error (.uncoalesced lower)
    | none =>
      let t ← t.count c (← a.units c) free
      match _hn : a.nextAdjacent c with
      | .error e => throw e
      | .ok none => return .ok t
      | .ok (some next) => tallyFrom a next t
termination_by a.length - c
decreasing_by
  have := Arena.lt_of_nextAdjacent _hn
  omega

/-- Walks the whole arena. -/
def tally (a : Arena G) : Except Fault (Except Violation Tally) :=
  match a.first with
  | none => return .ok Tally.zero
  | some c => tallyFrom a c Tally.zero

/-! ## The lists -/

/-- What is wrong with `c` as a free chunk. -/
def entryViolation? (h : Heap G) (c : Nat) : Except Fault (Option Violation) := do
  match ← h.arena.chunkViolation? c with
  | some v => return some v
  | none => if ← h.arena.isFree c then return none else return some (.notFree c)

/-- Whether the chunk right above `c` is free. -/
def hasFreeAbove (h : Heap G) (c : Nat) : Except Fault Bool := do
  match ← h.arena.nextAdjacent c with
  | some next => h.arena.isFree next
  | none => return false

/-- What is wrong with the place of `c` behind `prev` in the list of class `k`. -/
def filingViolation? (h : Heap G) (k : SizeClass) (prev : Option Nat) (c : Nat) :
    Except Fault (Option Violation) := do
  let units ← h.arena.units c
  if h.config.classOf units ≠ k then return some (.misfiled c units)
  if (← h.arena.prevFree c) ≠ prev then return some (.brokenBackLink c)
  if ← h.hasFreeAbove c then return some (.uncoalesced c)
  if k = SizeClass.overflow ∧ ¬ prev.all (· < c) then return some (.unordered c)
  return none

/-- Walks the list of class `k` from `cursor` on, behind `prev`. There are `free` free chunks in the
arena, of which `listed` have been met in the lists. -/
def walkList (h : Heap G) (free : Nat) (k : SizeClass) (prev cursor : Option Nat) (listed : Nat) :
    Except Fault (Except Violation Nat) :=
  match cursor with
  | none => return .ok listed
  | some c => do
    match ← h.entryViolation? c with
    | some v => return .error v
    | none =>
      if listed < free then
        match ← h.filingViolation? k prev c with
        | some v => return .error v
        | none => h.walkList free k (some c) (← h.arena.nextFree c) (listed + 1)
      else return .error (.cycle ((h.head k).getD c))
termination_by free - listed

/-- Walks the lists of the given classes. -/
def walkLists (h : Heap G) (free : Nat) :
    List SizeClass → (listed : Nat) → Except Fault (Except Violation Nat)
  | [], listed => return .ok listed
  | k :: rest, listed => do
    match ← h.walkList free k none (h.head k) listed with
    | .error v => return .error v
    | .ok listed => h.walkLists free rest listed

/-! ## The heap -/

/-- The first inconsistency of the heap; none when there is none. -/
def check (h : Heap G) : Except Fault (Option Violation) := do
  match ← tally h.arena with
  | .error v => return some v
  | .ok t =>
    if t.covered ≠ h.arena.length then return some (.tiling t.covered h.arena.length)
    match ← h.walkLists t.free (List.finRange classCount) 0 with
    | .error v => return some v
    | .ok listed => return if listed = t.free then none else some (.unlisted t.free listed)

/-- Whether the heap is consistent. -/
def isValid (h : Heap G) : Except Fault Bool := return (← h.check).isNone

/-- Ends an operation: an inconsistent heap is a fault. -/
def closingCheck : Action (Heap G) Unit := do
  match ← Action.read check with
  | none => pure ()
  | some v => throw (.corrupted v)

end Heap

end BoundaryTag
