import BoundaryTag.Event
import BoundaryTag.Slot
import BoundaryTag.Word

/-!
# Sources of memory

An arena obtains its memory from a grower: asked for a number of bytes, it
either grants a range of addresses or refuses. A grant is a promise about
memory that nobody else uses, and its type says what every heap relies on:
the range lies within the address space and does not start at address zero.
What the memory holds at first is up to the grower.
-/

namespace BoundaryTag

/-- A granted range of `bytes` bytes. -/
structure Grant (bytes : Nat) where
  /-- Address of the first byte. -/
  start : Nat
  start_pos : 0 < start
  end_lt : start + bytes < Word.limit
  /-- The slots of the range as they are found, counted from its start. -/
  contents : Nat → Slot

/-- The address just past a granted range. -/
def Grant.stop {bytes : Nat} (g : Grant bytes) : Nat := g.start + bytes

/-- What a grower answers to a request for `bytes` bytes: the answer proper, its own next state, and
what it has to report. -/
structure Reply (G : Type) (bytes : Nat) where
  answer : Except GrowError (Grant bytes)
  grower : G
  notes : List Event

/-- A reply of one grower as the reply of another that contains it. -/
def Reply.map {G H : Type} {bytes : Nat} (f : G → H) (r : Reply G bytes) : Reply H bytes :=
  ⟨r.answer, f r.grower, r.notes⟩

/-- A source of memory. -/
class Grower (G : Type) where
  /-- Answers a request for `bytes` more bytes. -/
  grow : (grower : G) → (bytes : Nat) → Reply G bytes

/-- A place where memory can be laid out: a positive multiple of the unit in the lower half of the
address space. -/
structure Site where
  address : Nat
  address_pos : 0 < address
  aligned : address % unitBytes = 0
  address_le : address ≤ Word.signedLimit

end BoundaryTag
