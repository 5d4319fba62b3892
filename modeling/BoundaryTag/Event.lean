import BoundaryTag.Growth.Error
import BoundaryTag.Violation

/-!
# Events

The heap leaves a record of what it does: chunks that are merged and split,
blocks handed out and taken back, growth of the arena. An event is kept as
data and becomes a line of text only in a report.
-/

namespace BoundaryTag

/-- Something worth a line in the log. -/
inductive Event where
  /-- The program break was moved up to a unit boundary. -/
  | padded (bytes : Nat)
  /-- A grant does not begin where the arena ends. -/
  | landedAt (actual expected : Nat)
  /-- The arena was extended. -/
  | grew (bytes units chunk : Nat)
  /-- No memory for an allocation. -/
  | failed (size : Nat) (reason : GrowError)
  /-- Two free neighbours became one chunk of `units` units. -/
  | merged (lower upper units : Nat)
  /-- A free chunk gave up its top. -/
  | split (chunk rest units carved : Nat)
  /-- A block was handed out. -/
  | allocated (size address chunk : Nat)
  /-- A block came back and is now in a free chunk. -/
  | released (address chunk : Nat)
deriving DecidableEq, Repr

/-- The line an event leaves in the log, with addresses from `origin`. -/
def Event.line (origin : Nat) : Event → String
  | padded bytes => "DEBUG padded program break by " ++ toString bytes ++ " bytes"
  | landedAt actual expected =>
    "WARN arena growth landed at " ++ addressMark origin actual ++ ", expected " ++
      addressMark origin expected
  | grew bytes units chunk =>
    "DEBUG arena grew by " ++ toString bytes ++ " bytes to " ++ toString units ++
      " units, new chunk " ++ chunkMark chunk
  | failed size reason =>
    "DEBUG allocation of " ++ toString size ++ " bytes failed: " ++
      reason.messageWith (addressMark origin)
  | merged lower upper units =>
    "TRACE merged " ++ chunkMark lower ++ " and " ++ chunkMark upper ++ " into " ++
      toString units ++ " units"
  | split chunk rest units carved =>
    "TRACE split " ++ chunkMark chunk ++ " into " ++ toString rest ++ " free and " ++
      toString units ++ " used units at " ++ chunkMark carved
  | allocated size address chunk =>
    "TRACE allocated " ++ toString size ++ " bytes at " ++ addressMark origin address ++
      " from " ++ chunkMark chunk
  | released address chunk =>
    "TRACE released " ++ addressMark origin address ++ ", now part of free chunk " ++
      chunkMark chunk

end BoundaryTag
