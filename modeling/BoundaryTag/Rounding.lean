import BoundaryTag.Word

/-!
# Rounding to whole units

Two ways to round a size upwards: to a multiple of an alignment, by clearing
low bits, and to a number of units, by dividing. Both work in 64-bit
arithmetic and refuse sizes whose rounding leaves it: the first by a fault,
the second by giving no count.
-/

namespace BoundaryTag

/-- The bits of `a` outside `m`, in 64 bits. -/
def maskOut (a m : Nat) : Nat := a &&& (Word.top ^^^ m)

/-- The sum `value + step - 1` with the bits of `step - 1` cleared: for `step` a power of two, the
least multiple of `step` from `value` on. -/
def alignUp (value step : Nat) : Except Fault Nat := do
  let raised ← Word.sub (← Word.add value step) 1
  let low ← Word.sub step 1
  return maskOut raised low

/-- How many units of `unit` bytes hold `size` bytes; none when the rounding leaves 64 bits. -/
def sizeToUnits (size unit : Nat) : Except Fault (Option Nat) := do
  let padding ← Word.sub unit 1
  return if size + padding < Word.limit then some ((size + padding) / unit) else none

end BoundaryTag
