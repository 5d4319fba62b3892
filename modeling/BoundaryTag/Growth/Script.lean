import BoundaryTag.Growth.Grower

/-!
# Scripted growth

A script is a grower whose every answer is laid down beforehand: it refuses
with a given reason, or grants the next bytes of a buffer after moving its
cursor. Scripts produce the grants that an arena has to reject, misaligned and
discontiguous ones.
-/

namespace BoundaryTag

/-- One scripted answer. -/
inductive ScriptEntry where
  /-- Refuse for this reason. -/
  | refuse (reason : GrowError)
  /-- Move the cursor by this much, then grant. -/
  | advance (distance : Int)
deriving DecidableEq, Repr

/-- A grower that follows a script over a buffer. -/
structure Script where
  base : Nat
  capacity : Nat
  /-- End of the last grant, from the base. -/
  cursor : Nat
  /-- Answers still to give; once they are used up the cursor is not moved before a grant. -/
  entries : List ScriptEntry
  /-- The requests received. -/
  calls : Array Nat
  base_pos : 0 < base
  stop_lt : base + capacity < Word.limit

namespace Script

/-- Grants `bytes` bytes `distance` past the cursor, if they lie in the buffer. -/
def grantAfter (s : Script) (distance : Int) (bytes : Nat) : Reply Script bytes :=
  let start := (s.cursor : Int) + distance
  if h : 0 ≤ start ∧ start.toNat + bytes ≤ s.capacity then
    { answer := .ok {
        start := s.base + start.toNat
        start_pos := Nat.add_pos_left s.base_pos _
        end_lt := by have := s.stop_lt; omega
        contents := fun _ => Slot.zero }
      grower := { s with cursor := start.toNat + bytes }
      notes := [] }
  else
    { answer := .error (.exhausted bytes), grower := s, notes := [] }

/-- The next answer of the script. -/
def grow (s : Script) (bytes : Nat) : Reply Script bytes :=
  let called := { s with calls := s.calls.push bytes }
  match s.entries with
  | [] => called.grantAfter 0 bytes
  | .advance distance :: rest => { called with entries := rest }.grantAfter distance bytes
  | .refuse reason :: rest =>
    { answer := .error reason, grower := { called with entries := rest }, notes := [] }

instance : Grower Script := ⟨grow⟩

end Script

end BoundaryTag
