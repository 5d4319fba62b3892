import BoundaryTag.Arena.Basic

/-!
# The bytes of the arena

Whoever holds a block reads and writes its bytes by address. The arena does
not know which bytes belong to whom: any byte inside it can be reached, also
those of the tags.
-/

namespace BoundaryTag.Arena

variable {G : Type}

/-- The byte at an address inside the arena. -/
def loadByte (a : Arena G) (address : Nat) : Except Fault UInt8 :=
  let offset := a.offsetOf address
  return (← a.slot (offset / unitBytes)).byte (offset % unitBytes)

/-- The `count` bytes from an address on. -/
def loadBytes (a : Arena G) (address count : Nat) : Except Fault (List UInt8) :=
  (List.range count).mapM fun i => a.loadByte (address + i)

/-- Replaces the byte at an address inside the arena. -/
def storeByte (address : Nat) (b : UInt8) : Action (Arena G) Unit := do
  let offset ← Action.read (fun a => .ok (a.offsetOf address))
  update (offset / unitBytes) (·.setByte (offset % unitBytes) b)

/-- Replaces the bytes from an address on. -/
def storeBytes (address : Nat) : List UInt8 → Action (Arena G) Unit
  | [] => pure ()
  | b :: rest => do
    storeByte address b
    storeBytes (address + 1) rest

end BoundaryTag.Arena
