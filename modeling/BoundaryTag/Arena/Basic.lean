import BoundaryTag.Action
import BoundaryTag.Slot
import BoundaryTag.Word

/-!
# The arena

An arena is a contiguous run of slots, tiled by chunks. A chunk of `n` units
whose header is slot `c` has its data in the slots `c + 1` to `c + n` and its
footer in slot `c + n + 1`:

```
  c          c + 1                 c + n + 1
  header     data, n units         footer
  next       ...                   previous
  n, status  ...                   n
```

Chunks are named by the index of their header. The two copies of the unit
count let a walk go up from a header and down from a footer. The links of the
free lists are indices too: the header holds the next chunk, the footer the
previous one. Nothing is written to a footer's status word.

Every access is checked against the length of the arena, and for an arena to be
there at all.

Results:

* `Arena.slot_eq_ok` and `Arena.slot_eq_error` — a slot can be read exactly
  when it is inside.
* `Arena.run_update` — a write changes one slot.
* `Arena.lt_of_nextAdjacent` and `Arena.lt_of_prevAdjacent` — steps between
  neighbours make progress, so walks along the arena end.
-/

namespace BoundaryTag

/-- A run of slots obtained from a grower. -/
@[ext] structure Arena (G : Type) where
  /-- Address of the first byte, once there is one. -/
  start : Option Nat
  slots : Array Slot
  grower : G
  /-- An arena that starts nowhere has no slots. -/
  unmapped : start = none → slots.size = 0

namespace Arena

variable {G : Type}

/-- An arena without memory. -/
def empty (grower : G) : Arena G := ⟨none, #[], grower, fun _ => rfl⟩

/-- An arena with slots starts somewhere. -/
theorem isSome_start {a : Arena G} {i : Nat} (h : i < a.slots.size) : a.start.isSome := by
  cases hstart : a.start with
  | none =>
    rw [a.unmapped hstart] at h
    exact absurd h (Nat.not_lt_zero i)
  | some base => rfl

/-- Length in units. -/
def length (a : Arena G) : Nat := a.slots.size

/-- The lowest chunk. -/
def first (a : Arena G) : Option Nat := if 0 < a.length then some 0 else none

/-! ## Reading and writing slots -/

/-- The slot at an index inside the arena. -/
def slot (a : Arena G) (i : Nat) : Except Fault Slot :=
  if h : a.start.isSome ∧ i < a.slots.size then .ok a.slots[i]
  else .error (.slotOutside i a.slots.size)

/-- The arena after a write to slot `i`. -/
def modified (a : Arena G) (i : Nat) (f : Slot → Slot) : Arena G :=
  { a with slots := a.slots.modify i f, unmapped := by simpa using a.unmapped }

/-- Changes the slot at an index inside the arena. -/
def update (i : Nat) (f : Slot → Slot) : Action (Arena G) Unit := fun ⟨a, log⟩ =>
  if a.start.isSome ∧ i < a.slots.size then .ok () ⟨a.modified i f, log⟩
  else .error (.slotOutside i a.slots.size) ⟨a, log⟩

theorem slot_eq_ok {a : Arena G} {i : Nat} (h : i < a.slots.size) : a.slot i = .ok a.slots[i] :=
  dif_pos ⟨isSome_start h, h⟩

theorem slot_eq_error {a : Arena G} {i : Nat} (h : a.slots.size ≤ i) :
    a.slot i = .error (.slotOutside i a.slots.size) :=
  dif_neg fun hin => Nat.not_lt.mpr h hin.2

theorem slot_eq_ok_iff {a : Arena G} {i : Nat} {s : Slot} :
    a.slot i = .ok s ↔ a.slots[i]? = some s := by
  by_cases h : i < a.slots.size
  · simp [slot_eq_ok h, h]
  · simp [slot_eq_error (Nat.le_of_not_lt h), h]

theorem run_update {a : Arena G} {i : Nat} (h : i < a.slots.size) (f : Slot → Slot)
    (log : Array Event) : update i f ⟨a, log⟩ = .ok () ⟨a.modified i f, log⟩ :=
  if_pos ⟨isSome_start h, h⟩

theorem run_update_outside {a : Arena G} {i : Nat} (h : a.slots.size ≤ i) (f : Slot → Slot)
    (log : Array Event) :
    update i f ⟨a, log⟩ = .error (.slotOutside i a.slots.size) ⟨a, log⟩ :=
  if_neg fun hin => Nat.not_lt.mpr h hin.2

@[simp] theorem size_modified (a : Arena G) (i : Nat) (f : Slot → Slot) :
    (a.modified i f).slots.size = a.slots.size := by simp [modified]

theorem getElem?_modified (a : Arena G) (i j : Nat) (f : Slot → Slot) :
    (a.modified i f).slots[j]? = if i = j then a.slots[j]?.map f else a.slots[j]? := by
  simp [modified, Array.getElem?_modify]

/-! ## Tags -/

/-- The status of a chunk; none for an unknown status word. -/
def status (a : Arena G) (c : Nat) : Except Fault (Option Status) :=
  return (← a.slot c).status?

/-- Whether a chunk is free. -/
def isFree (a : Arena G) (c : Nat) : Except Fault Bool :=
  return (← a.status c) = some .free

/-- The unit count in a tag. -/
def units (a : Arena G) (c : Nat) : Except Fault Nat :=
  return (← a.slot c).units.toNat

/-- The footer of a chunk. -/
def footerOf (a : Arena G) (c : Nat) : Except Fault Nat := do
  Word.add (← Word.add c (← a.units c)) 1

/-- The header above which a footer stands. -/
def headerOf (a : Arena G) (footer : Nat) : Except Fault Nat := do
  let units ← a.units footer
  if units + 1 ≤ footer then return footer - (units + 1)
  else throw (.footerUnderflow footer units)

/-- The next chunk in the free list. -/
def nextFree (a : Arena G) (c : Nat) : Except Fault (Option Nat) :=
  return (← a.slot c).target

/-- The previous chunk in the free list; the link is kept in the footer. -/
def prevFree (a : Arena G) (c : Nat) : Except Fault (Option Nat) := do
  return (← a.slot (← a.footerOf c)).target

/-- Marks a chunk. -/
def setStatus (c : Nat) (s : Status) : Action (Arena G) Unit :=
  update c fun tag => { tag with status := s.word }

/-- Resizes a chunk: its header first, then the footer where the new size puts it. -/
def setUnits (c n : Nat) : Action (Arena G) Unit := do
  if n ≤ maxUnits then
    update c fun tag => { tag with units := UInt32.ofNat n }
    let footer ← Action.read (·.footerOf c)
    update footer fun tag => { tag with units := UInt32.ofNat n }
  else
    throw (.tooManyUnits c n)

/-- Links a chunk to the next one of its list. -/
def setNextFree (c : Nat) (next : Option Nat) : Action (Arena G) Unit :=
  update c (·.withTarget next)

/-- Links a chunk to the previous one of its list. -/
def setPrevFree (c : Nat) (prev : Option Nat) : Action (Arena G) Unit := do
  let footer ← Action.read (·.footerOf c)
  update footer (·.withTarget prev)

/-- Makes the slots from `c` on a chunk of `n` units that is in use and in no list. -/
def layOut (c n : Nat) : Action (Arena G) Unit := do
  setUnits c n
  setStatus c .inUse
  setNextFree c none
  setPrevFree c none

/-! ## Neighbours -/

/-- The chunk right above, unless this is the last one. -/
def nextAdjacent (a : Arena G) (c : Nat) : Except Fault (Option Nat) := do
  let next ← Word.add (← Word.add c (← a.units c)) 2
  return if next < a.length then some next else none

/-- The chunk right below, unless this is the first one. -/
def prevAdjacent (a : Arena G) (c : Nat) : Except Fault (Option Nat) :=
  if c = 0 then return none else return some (← a.headerOf (c - 1))

theorem units_eq_ok {a : Arena G} {c : Nat} (h : c < a.slots.size) :
    a.units c = .ok a.slots[c].units.toNat := by simp [units, slot_eq_ok h, bind, Except.bind, pure,
      Except.pure]

theorem units_eq_error {a : Arena G} {c : Nat} (h : a.slots.size ≤ c) :
    a.units c = .error (.slotOutside c a.slots.size) := by
  simp [units, slot_eq_error h, bind, Except.bind]

theorem lt_of_nextAdjacent {a : Arena G} {c next : Nat} (h : a.nextAdjacent c = .ok (some next)) :
    c < next ∧ next < a.length := by
  unfold nextAdjacent at h
  cases hu : a.units c with
  | error e => simp [hu, bind, Except.bind] at h
  | ok u =>
    cases h1 : Word.add c u with
    | error e => simp [hu, h1, bind, Except.bind] at h
    | ok s =>
      cases h2 : Word.add s 2 with
      | error e => simp [hu, h1, h2, bind, Except.bind] at h
      | ok n =>
        simp only [hu, h1, h2, bind, Except.bind, pure, Except.pure, Except.ok.injEq,
          Option.ite_none_right_eq_some, Option.some.injEq] at h
        obtain ⟨hlt, rfl⟩ := h
        have := (Word.add_eq_ok_iff.1 h1).1
        have := (Word.add_eq_ok_iff.1 h2).1
        omega

theorem lt_of_prevAdjacent {a : Arena G} {c prev : Nat} (h : a.prevAdjacent c = .ok (some prev)) :
    prev < c := by
  unfold prevAdjacent at h
  split at h
  · cases h
  · unfold headerOf at h
    cases hu : a.units (c - 1) with
    | error e => simp [hu, bind, Except.bind] at h
    | ok u =>
      simp only [hu, bind, Except.bind] at h
      split at h
      · simp at h
      · rename_i hq
        split at hq
        · simp only [pure, Except.pure, Except.ok.injEq, Option.some.injEq] at h hq
          omega
        · cases hq

/-! ## Addresses -/

/-- Address of the first data byte of a chunk. -/
def dataAddress (a : Arena G) (c : Nat) : Except Fault Nat := do
  let _ ← a.slot c
  return a.start.getD 0 + unitBytes * (c + 1)

/-- The distance of an address from the start, in 64-bit arithmetic; from address zero while the
arena is empty. -/
def offsetOf (a : Arena G) (address : Nat) : Nat := addressFrom (a.start.getD 0) address

/-- The chunk whose data would start at an address. -/
def chunkAt (a : Arena G) (address : Nat) : Except Fault Nat :=
  let offset := a.offsetOf address
  if offset % unitBytes = 0 ∧ 1 ≤ offset / unitBytes ∧ offset / unitBytes < a.length then
    .ok (offset / unitBytes - 1)
  else .error (.foreignPointer address)

end Arena

end BoundaryTag
