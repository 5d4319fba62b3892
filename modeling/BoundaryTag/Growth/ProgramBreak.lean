import BoundaryTag.Growth.Grower
import BoundaryTag.Rounding

/-!
# The program break

A process has one data segment. It ends at the program break, and a request
to the system moves the break up and gives its previous address, or fails and
leaves it. Any number of growers may move the same break: each keeps only
whether it has padded the break to a unit boundary, and the segment is held
beside them.

The memory above the break may hold anything; it is handed out as it is.
-/

namespace BoundaryTag

/-- The data segment of a process. -/
structure DataSegment where
  /-- The program break. -/
  current : Nat
  /-- Requests made so far. -/
  calls : Nat
  /-- Which requests the system turns down, by their number and increment. -/
  refuses : Nat → Nat → Bool
  /-- What is found in the unit at an address when it is granted; zeros by default. -/
  memory : Nat → Slot := fun _ => Slot.zero
  current_pos : 0 < current
  current_lt : current < Word.signedLimit

namespace DataSegment

/-- Asks the system to move the break up by `increment`; the previous break on success. -/
def advance (s : DataSegment) (increment : Nat) : Option Nat × DataSegment :=
  if h : s.refuses s.calls increment = false ∧ s.current + increment < Word.signedLimit then
    (some s.current,
      { s with
        current := s.current + increment, calls := s.calls + 1
        current_pos := Nat.add_pos_left s.current_pos _, current_lt := h.2 })
  else
    (none, { s with calls := s.calls + 1 })

/-- As `advance`, but an increment that is no signed 64-bit number is turned down before the system
is asked. -/
def bump (s : DataSegment) (increment : Nat) : Option Nat × DataSegment :=
  if increment < Word.signedLimit then s.advance increment else (none, s)

theorem advance_eq_some {s t : DataSegment} {d p : Nat} (h : s.advance d = (some p, t)) :
    p = s.current ∧ t.current = s.current + d ∧ t.refuses = s.refuses := by
  unfold advance at h
  split at h <;> simp_all [Prod.ext_iff]
  obtain ⟨rfl, rfl⟩ := h
  simp

theorem advance_eq_none {s t : DataSegment} {d : Nat} (h : s.advance d = (none, t)) :
    t.current = s.current ∧ t.refuses = s.refuses := by
  unfold advance at h
  split at h <;> simp_all [Prod.ext_iff]
  obtain rfl := h
  simp

theorem bump_eq_some {s t : DataSegment} {d p : Nat} (h : s.bump d = (some p, t)) :
    p = s.current ∧ t.current = s.current + d ∧ t.refuses = s.refuses := by
  unfold bump at h
  split at h
  · exact advance_eq_some h
  · simp at h

theorem bump_eq_none {s t : DataSegment} {d : Nat} (h : s.bump d = (none, t)) :
    t.current = s.current ∧ t.refuses = s.refuses := by
  unfold bump at h
  split at h
  · exact advance_eq_none h
  · simp only [Prod.mk.injEq, true_and] at h; subst h; exact ⟨rfl, rfl⟩

end DataSegment

/-- A grower that moves the program break. -/
structure ProgramBreak where
  /-- Whether this grower has seen the break at a unit boundary. -/
  aligned : Bool
deriving DecidableEq, Repr

namespace ProgramBreak

/-- A grower that has not asked for anything yet. -/
def fresh : ProgramBreak := ⟨false⟩

/-- Bytes from `address` up to the next unit boundary. -/
def padding (address : Nat) : Nat := (unitBytes - address % unitBytes) % unitBytes

/-- Moves the break to a unit boundary once in the life of the grower. Says whether the break is now
known to be aligned, and what was padded. -/
def align (b : ProgramBreak) (s : DataSegment) : Bool × DataSegment × List Event :=
  if b.aligned then (true, s, [])
  else
    match s.bump 0 with
    | (none, s) => (false, s, [])
    | (some current, s) =>
      if padding current = 0 then (true, s, [])
      else
        match s.bump (padding current) with
        | (none, s) => (false, s, [])
        | (some _, s) => (true, s, [.padded (padding current)])

/-- Moves the break up by `bytes`, after the padding where that is due. -/
def grow (b : ProgramBreak) (s : DataSegment) (bytes : Nat) :
    Reply (ProgramBreak × DataSegment) bytes :=
  match b.align s with
  | (false, s, notes) => ⟨.error (.exhausted bytes), (b, s), notes⟩
  | (true, s, notes) =>
    match h : s.bump bytes with
    | (none, t) => ⟨.error (.exhausted bytes), (⟨true⟩, t), notes⟩
    | (some previous, t) =>
      { answer := .ok {
          start := previous
          start_pos := (DataSegment.bump_eq_some h).1 ▸ s.current_pos
          end_lt := by
            obtain ⟨h1, h2, _⟩ := DataSegment.bump_eq_some h
            have := t.current_lt
            unfold Word.signedLimit at this
            unfold Word.limit
            omega
          contents := fun i => s.memory (previous + unitBytes * i) }
        grower := (⟨true⟩, t)
        notes }

instance : Grower (ProgramBreak × DataSegment) := ⟨fun g bytes => grow g.1 g.2 bytes⟩

end ProgramBreak

end BoundaryTag
