import BoundaryTag.Growth.ProgramBreak
import BoundaryTag.Growth.Refusing
import BoundaryTag.Growth.Region
import BoundaryTag.Growth.Script

/-!
# Sources chosen at run time

A program that keeps heaps of several kinds side by side picks the grower of
each when it runs. All of them live in one process, so each request comes with
the data segment, which only the program-break growers touch.
-/

namespace BoundaryTag

/-- Any of the growers. -/
inductive Source where
  | region (region : Region)
  | refusing
  | programBreak (mover : ProgramBreak)
  | script (script : Script)

/-- The answer of whichever grower it is. -/
def Source.grow (source : Source) (segment : DataSegment) (bytes : Nat) :
    Reply (Source × DataSegment) bytes :=
  match source with
  | region r => (r.grow bytes).map fun r => (region r, segment)
  | refusing => (Grower.grow Refusing.mk bytes).map fun _ => (refusing, segment)
  | programBreak b => (b.grow segment bytes).map fun g => (programBreak g.1, g.2)
  | script s => (s.grow bytes).map fun s => (script s, segment)

instance : Grower (Source × DataSegment) := ⟨fun g bytes => g.1.grow g.2 bytes⟩

end BoundaryTag
