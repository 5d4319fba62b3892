import BoundaryTag.Arena.Basic
import BoundaryTag.Growth.Grower

/-!
# Extending the arena

The arena grows at its end only. A request covers a chunk with its two tags;
it is made while the arena stays within `maxUnits`. The first grant has to
start at a unit boundary and becomes the start of the arena; every later one
has to start exactly where the arena ends. A grant that does not is given up:
the memory is lost, and the arena stays as it was.

Results: `Arena.placementError?_first` and `Arena.placementError?_later` say
which grants are accepted.
-/

namespace BoundaryTag.Arena

variable {G : Type}

/-- Asks the grower for memory. -/
def request [Grower G] (bytes : Nat) : Action (Arena G) (Except GrowError (Grant bytes)) :=
  fun ⟨⟨start, slots, g, unmapped⟩, log⟩ =>
    let reply := Grower.grow g bytes
    .ok reply.answer ⟨⟨start, slots, reply.grower, unmapped⟩, log ++ reply.notes⟩

/-- The address just past the arena that starts at `base`. -/
def stopFrom (a : Arena G) (base : Nat) : Except Fault Nat := do
  Word.add base (← Word.mul a.length unitBytes)

/-- What is wrong with a grant that starts at `start`. -/
def placementError? (a : Arena G) (start : Nat) : Except Fault (Option GrowError) :=
  match a.start with
  | none => return if start % unitBytes = 0 then none else some (.misaligned start)
  | some base => do
    let expected ← a.stopFrom base
    return if start = expected then none else some (.discontiguous expected start)

theorem placementError?_first {a : Arena G} (h : a.start = none) (start : Nat) :
    a.placementError? start =
      .ok (if start % unitBytes = 0 then none else some (.misaligned start)) := by
  simp [placementError?, h, pure, Except.pure]

theorem placementError?_later {a : Arena G} {base : Nat} (h : a.start = some base)
    (hb : base + a.length * unitBytes < Word.limit) (start : Nat) :
    a.placementError? start =
      .ok (if start = base + a.length * unitBytes then none
        else some (.discontiguous (base + a.length * unitBytes) start)) := by
  have hm : a.length * unitBytes < Word.limit := Nat.lt_of_le_of_lt (Nat.le_add_left _ _) hb
  simp [placementError?, h, stopFrom, Word.mul_eq_ok hm, Word.add_eq_ok hb, bind, Except.bind, pure,
    Except.pure]

/-- The event that goes with a misplaced grant. -/
def placementNotes : Option GrowError → List Event
  | some (.discontiguous expected actual) => [.landedAt actual expected]
  | _ => []

/-- Adds `span` slots that lie at `start` to the arena. -/
def append (start span : Nat) (contents : Nat → Slot) : Action (Arena G) Unit :=
  fun ⟨⟨old, slots, g, _⟩, log⟩ =>
    .ok () ⟨⟨some (old.getD start), slots ++ Array.ofFn fun i : Fin span => contents i, g, nofun⟩,
      log⟩

/-- Appends an in-use chunk of `n` units, or tells why there is none. -/
def extend [Grower G] (n : Nat) : Action (Arena G) (Except GrowError Nat) := do
  let span := Word.addSaturating n 2
  let c ← Action.read (fun a => .ok a.length)
  if c + span ≤ maxUnits then
    match ← request (span * unitBytes) with
    | .error e => return .error e
    | .ok grant =>
      let misplaced ← Action.read (·.placementError? grant.start)
      Action.record (placementNotes misplaced)
      match misplaced with
      | some e => return .error e
      | none =>
        append grant.start span grant.contents
        layOut c n
        Action.record [.grew (span * unitBytes) (c + span) c]
        return .ok c
  else
    return .error (.exhausted (Word.mulSaturating span unitBytes))

end BoundaryTag.Arena
