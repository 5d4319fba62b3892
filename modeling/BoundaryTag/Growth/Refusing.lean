import BoundaryTag.Growth.Grower

/-!
# The grower that never grants
-/

namespace BoundaryTag

/-- A grower without memory. -/
structure Refusing where
deriving DecidableEq, Repr

instance : Grower Refusing where
  grow r bytes := ⟨.error (.exhausted bytes), r, []⟩

end BoundaryTag
