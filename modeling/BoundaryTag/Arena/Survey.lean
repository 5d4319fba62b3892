import BoundaryTag.Arena.Basic

/-!
# Surveys

A survey lists the chunks of an arena from the lowest slot upwards, trusting
each header for the place of the next. It reads whatever is there and never
fails, so it can show an arena whose tags are damaged.
-/

namespace BoundaryTag

/-- What a survey finds at one header. -/
structure SurveyRow where
  index : Nat
  header : Slot
  /-- The footer, where it is inside the arena. -/
  footer : Option Slot
deriving DecidableEq, Repr

namespace Arena

variable {G : Type}

/-- The rows from slot `i` on. -/
def surveyFrom (a : Arena G) (i : Nat) : List SurveyRow :=
  if h : i < a.slots.size then
    let header := a.slots[i]
    ⟨i, header, a.slots[i + header.units.toNat + 1]?⟩ ::
      a.surveyFrom (i + header.units.toNat + 2)
  else []
termination_by a.slots.size - i

/-- All rows. -/
def survey (a : Arena G) : List SurveyRow := a.surveyFrom 0

end Arena

end BoundaryTag
