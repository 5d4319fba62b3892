import BoundaryTag.Growth.Grower
import BoundaryTag.Rounding

/-!
# Regions

A region is a buffer of fixed capacity handed out from front to back. Its
grants follow each other without a gap, so an arena that grows from a region
of its own meets no refusal but exhaustion.
-/

namespace BoundaryTag

/-- A buffer of which the first `used` bytes are handed out. -/
structure Region where
  base : Nat
  capacity : Nat
  used : Nat
  base_pos : 0 < base
  base_aligned : base % unitBytes = 0
  stop_lt : base + capacity < Word.limit
  used_le : used ≤ capacity

namespace Region

/-- The largest buffer that can be laid out: half the address space less one unit. -/
def maxCapacity : Nat := Word.signedLimit - 16

/-- An unused buffer at `site`, of at least `capacity` bytes and at least one unit. -/
def withCapacity (site : Site) (capacity : Nat) : Except Fault Region := do
  let size ← alignUp (max capacity unitBytes) unitBytes
  if h : size ≤ maxCapacity then
    return {
      base := site.address, capacity := size, used := 0,
      base_pos := site.address_pos, base_aligned := site.aligned,
      stop_lt := by
        have := site.address_le
        unfold maxCapacity at h
        unfold Word.signedLimit at *
        unfold Word.limit
        omega
      used_le := Nat.zero_le _ }
  else
    throw (.regionTooLarge capacity)

/-- Hands out the next `bytes` bytes while they last. -/
def grow (r : Region) (bytes : Nat) : Reply Region bytes :=
  if h : r.used + bytes ≤ r.capacity then
    { answer := .ok {
        start := r.base + r.used
        start_pos := Nat.add_pos_left r.base_pos _
        end_lt := by have := r.stop_lt; omega
        contents := fun _ => Slot.zero }
      grower := { r with used := r.used + bytes, used_le := h }
      notes := [] }
  else
    { answer := .error (.exhausted bytes), grower := r, notes := [] }

instance : Grower Region := ⟨grow⟩

end Region

end BoundaryTag
