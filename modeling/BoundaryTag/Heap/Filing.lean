import BoundaryTag.Heap.Links

/-!
# Filing free chunks

A chunk that becomes free goes to the front of its bin, or to its place in
the ascending overflow list. That place is found in the arena and not in the
list: the search steps down from neighbour to neighbour, as far as the lowest
chunk of the overflow list, until it meets a free chunk of the overflow class.
-/

namespace BoundaryTag.Heap

variable {G : Type}

/-- Whether a chunk is free and of the overflow class. -/
def isOverflowFree (h : Heap G) (c : Nat) : Except Fault Bool := do
  if ← h.arena.isFree c then return (← h.classAt c) = SizeClass.overflow else return false

/-- The nearest free chunk of the overflow class from `p` downwards, but not below `lowest`. -/
def overflowFrom (h : Heap G) (lowest p : Nat) : Except Fault (Option Nat) :=
  match _hp : h.arena.prevAdjacent p with
  | .error e => .error e
  | .ok below =>
    if p < lowest then .ok none
    else do
      if ← h.isOverflowFree p then return some p
      else
        match _hb : below with
        | none => return none
        | some q => h.overflowFrom lowest q
termination_by p
decreasing_by exact Arena.lt_of_prevAdjacent (_hb ▸ _hp)

/-- The nearest free chunk of the overflow class below `c`. -/
def overflowBelow (h : Heap G) (c : Nat) : Except Fault (Option Nat) :=
  match h.head SizeClass.overflow with
  | none => return none
  | some lowest => do
    match ← h.arena.prevAdjacent c with
    | none => return none
    | some p => h.overflowFrom lowest p

/-- Marks `c` free and puts it into the list of its class. -/
def file (c : Nat) : Action (Heap G) Unit := do
  onArena (Arena.setStatus c .free)
  let k ← Action.read (·.classAt c)
  if k = SizeClass.overflow then
    match ← Action.read (·.overflowBelow c) with
    | some pred => insertAfter pred c
    | none => pushFront c
  else pushFront c

end BoundaryTag.Heap
