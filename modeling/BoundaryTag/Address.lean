import BoundaryTag.Limits

/-!
# Addresses in text

Addresses are 64-bit numbers whose absolute value means nothing to a reader.
Reports give them by their signed distance from an origin, as in `@-16`;
error messages about memory sources give them in hexadecimal.
-/

namespace BoundaryTag

/-- The signed 64-bit distance from `origin` to `a`. -/
def addressOffset (origin a : Nat) : Int :=
  Int.bmod ((a : Int) - (origin : Int)) Word.limit

/-- The distance from `origin` to `a` in unsigned 64-bit arithmetic, which wraps. -/
def addressFrom (origin a : Nat) : Nat :=
  (((a : Int) - (origin : Int)) % (Word.limit : Int)).toNat

/-- An address in a report: `@` and the distance from the origin. -/
def addressMark (origin a : Nat) : String :=
  "@" ++ toString (addressOffset origin a)

/-- Lower-case hexadecimal with its `0x`. -/
def hexadecimal (n : Nat) : String :=
  "0x" ++ String.ofList (Nat.toDigits 16 n)

theorem addressFrom_of_le {origin a : Nat} (h : origin ≤ a) (ha : a < Word.limit) :
    addressFrom origin a = a - origin := by
  unfold addressFrom Word.limit at *; omega

end BoundaryTag
