import BoundaryTag.Address

/-!
# Refused growth

Why an arena could not be extended. The addresses in a refusal are absolute;
a report gives them from an origin, in 64-bit arithmetic that wraps.
-/

namespace BoundaryTag

/-- Why memory was not granted, or a grant not accepted. -/
inductive GrowError where
  /-- There is no memory for this many bytes. -/
  | exhausted (requested : Nat)
  /-- The grant does not begin where the arena ends. -/
  | discontiguous (expected actual : Nat)
  /-- The first grant does not begin at a unit boundary. -/
  | misaligned (address : Nat)
deriving DecidableEq, Repr

namespace GrowError

/-- The same refusal with its addresses counted from `origin`. -/
def relativeTo (origin : Nat) : GrowError → GrowError
  | exhausted n => exhausted n
  | discontiguous expected actual =>
    discontiguous (addressFrom origin expected) (addressFrom origin actual)
  | misaligned address => misaligned (addressFrom origin address)

/-- The text of a refusal, each address written by `mark`. -/
def messageWith (mark : Nat → String) : GrowError → String
  | exhausted n => "cannot extend the arena by " ++ toString n ++ " bytes"
  | discontiguous expected actual =>
    "arena growth is not contiguous: expected " ++ mark expected ++ ", got " ++ mark actual
  | misaligned address => "arena start " ++ mark address ++ " is not unit aligned"

/-- The text of a refusal, with hexadecimal addresses. -/
def message (e : GrowError) : String := e.messageWith hexadecimal

end GrowError

end BoundaryTag
