import BoundaryTag.Proofs.Runs
import Mathlib.Tactic

/-!
# The fields of the slots

The memory of an arena is seen as three functions of the slot index: the chunk
a slot links to, its unit count and its status word. A write of one field
changes one of the functions at one place and leaves the other two. Three equal
fields make equal slots, so nothing is lost by this view.

Results:

* `linkAt_withLink`, `unitsAt_withUnits`, `wordAt_withStatus`: what a write changes.
* `getElem?_eq_of_fields`: slots whose fields agree are equal.
* `Alters`: the frame of a change, with one set of slots for each field, and
  `Alters.eq_of_links`, when the frame has shrunk to nothing.
* `runs_setNextFree`, `runs_setStatus`, `runs_setUnits`, `runs_setPrevFree`: the
  writes of the arena are such writes.
-/

namespace BoundaryTag.Arena

variable {G : Type}

/-! ## Fields -/

/-- The chunk that slot `i` links to. -/
def linkAt (a : Arena G) (i : Nat) : Option Nat := a.slots[i]?.bind Slot.target

/-- The unit count in slot `i`. -/
def unitsAt (a : Arena G) (i : Nat) : Option Nat := a.slots[i]?.map (·.units.toNat)

/-- The status word in slot `i`. -/
def wordAt (a : Arena G) (i : Nat) : Option UInt32 := a.slots[i]?.map (·.status)

theorem Link.decode_injective {v w : UInt64} (h : Link.decode v = Link.decode w) : v = w := by
  unfold Link.decode at h
  split_ifs at h with hv hw
  · rw [hv, hw]
  · exact UInt64.toNat_inj.mp (Option.some.inj h)

/-- Slots with the same link, unit count and status word are equal. -/
theorem getElem?_eq_of_fields {a b : Arena G} {i : Nat} (hsize : a.slots.size = b.slots.size)
    (hl : a.linkAt i = b.linkAt i) (hu : a.unitsAt i = b.unitsAt i)
    (hw : a.wordAt i = b.wordAt i) : a.slots[i]? = b.slots[i]? := by
  unfold linkAt at hl
  unfold unitsAt at hu
  unfold wordAt at hw
  by_cases hi : i < a.slots.size
  · have hi' : i < b.slots.size := hsize ▸ hi
    rw [Array.getElem?_eq_getElem hi, Array.getElem?_eq_getElem hi'] at *
    simp only [Option.bind_some, Option.map_some, Option.some.injEq] at hl hu hw
    rw [Option.some.injEq, Slot.mk.injEq]
    exact ⟨Link.decode_injective hl, UInt32.toNat_inj.mp hu, hw⟩
  · rw [Array.getElem?_eq_none (by omega), Array.getElem?_eq_none (by omega)]

/-! ## Writes -/

/-- The arena with a link written to slot `i`. -/
def withLink (a : Arena G) (i : Nat) (v : Option Nat) : Arena G := a.modified i (·.withTarget v)

/-- The arena with a unit count written to slot `i`. -/
def withUnits (a : Arena G) (i n : Nat) : Arena G :=
  a.modified i fun tag => { tag with units := UInt32.ofNat n }

/-- The arena with a status written to slot `i`. -/
def withStatus (a : Arena G) (i : Nat) (s : Status) : Arena G :=
  a.modified i fun tag => { tag with status := s.word }

section Writes

variable (a : Arena G) (i n : Nat) (v : Option Nat) (s : Status)

@[simp] theorem size_withLink : (a.withLink i v).slots.size = a.slots.size := by simp [withLink]

@[simp] theorem size_withUnits : (a.withUnits i n).slots.size = a.slots.size := by
  simp [withUnits]

@[simp] theorem size_withStatus : (a.withStatus i s).slots.size = a.slots.size := by
  simp [withStatus]

@[simp] theorem start_withLink : (a.withLink i v).start = a.start := rfl

@[simp] theorem start_withUnits : (a.withUnits i n).start = a.start := rfl

@[simp] theorem start_withStatus : (a.withStatus i s).start = a.start := rfl

@[simp] theorem grower_withLink : (a.withLink i v).grower = a.grower := rfl

@[simp] theorem grower_withUnits : (a.withUnits i n).grower = a.grower := rfl

@[simp] theorem grower_withStatus : (a.withStatus i s).grower = a.grower := rfl

/-- A write whose slots keep what `f` reads is not seen through `f`. -/
theorem map_modified {β : Type} (g : Slot → Slot) (f : Slot → β) (h : ∀ t, f (g t) = f t)
    (j : Nat) : (a.modified i g).slots[j]?.map f = a.slots[j]?.map f := by
  rw [getElem?_modified]
  split_ifs with hij
  · rw [Option.map_map]; congr 1; funext t; exact h t
  · rfl

@[simp] theorem unitsAt_withLink : (a.withLink i v).unitsAt = a.unitsAt :=
  funext fun j => map_modified a i _ _ (by intro t; rfl) j

@[simp] theorem wordAt_withLink : (a.withLink i v).wordAt = a.wordAt :=
  funext fun j => map_modified a i _ _ (by intro t; rfl) j

@[simp] theorem unitsAt_withStatus : (a.withStatus i s).unitsAt = a.unitsAt :=
  funext fun j => map_modified a i _ _ (by intro t; rfl) j

@[simp] theorem wordAt_withUnits : (a.withUnits i n).wordAt = a.wordAt :=
  funext fun j => map_modified a i _ _ (by intro t; rfl) j

theorem linkAt_eq_join (j : Nat) : a.linkAt j = (a.slots[j]?.map Slot.target).join := by
  unfold linkAt; cases a.slots[j]? <;> rfl

/-- A write whose slots keep their links is not seen through the links. -/
theorem linkAt_modified (g : Slot → Slot) (h : ∀ t, (g t).link = t.link) :
    (a.modified i g).linkAt = a.linkAt := by
  funext j
  rw [linkAt_eq_join, linkAt_eq_join, map_modified]
  intro t
  rw [Slot.target, h, Slot.target]

@[simp] theorem linkAt_withUnits : (a.withUnits i n).linkAt = a.linkAt :=
  linkAt_modified a i _ (by intro t; rfl)

@[simp] theorem linkAt_withStatus : (a.withStatus i s).linkAt = a.linkAt :=
  linkAt_modified a i _ (by intro t; rfl)

variable {a i n v}

theorem linkAt_withLink (hi : i < a.slots.size) (hv : ∀ c ∈ v, c < Word.top) :
    (a.withLink i v).linkAt = Function.update a.linkAt i v := by
  funext j
  unfold linkAt withLink
  rw [getElem?_modified]
  by_cases hij : j = i
  · subst hij
    simp [Array.getElem?_eq_getElem hi, Slot.target, Slot.withTarget, Link.decode_encode v hv]
  · rw [if_neg (Ne.symm hij), Function.update_of_ne hij]

theorem unitsAt_withUnits (hi : i < a.slots.size) (hn : n ≤ maxUnits) :
    (a.withUnits i n).unitsAt = Function.update a.unitsAt i (some n) := by
  have hword : (UInt32.ofNat n).toNat = n := by
    rw [UInt32.toNat_ofNat']
    unfold maxUnits at hn
    exact Nat.mod_eq_of_lt (by omega)
  funext j
  unfold unitsAt withUnits
  rw [getElem?_modified]
  by_cases hij : j = i
  · subst hij; simp [Array.getElem?_eq_getElem hi, hword]
  · rw [if_neg (Ne.symm hij), Function.update_of_ne hij]

theorem wordAt_withStatus (hi : i < a.slots.size) :
    (a.withStatus i s).wordAt = Function.update a.wordAt i (some s.word) := by
  funext j
  unfold wordAt withStatus
  rw [getElem?_modified]
  by_cases hij : j = i
  · subst hij; simp [Array.getElem?_eq_getElem hi]
  · rw [if_neg (Ne.symm hij), Function.update_of_ne hij]

end Writes

/-! ## Frames -/

/-- The arena `b` differs from `a` only by links in the slots of `L`, unit counts in those of `U`
and status words in those of `W`. -/
structure Alters (a : Arena G) (L U W : Set Nat) (b : Arena G) : Prop where
  start : b.start = a.start
  size : b.slots.size = a.slots.size
  grower : b.grower = a.grower
  links : ∀ i ∉ L, b.linkAt i = a.linkAt i
  units : ∀ i ∉ U, b.unitsAt i = a.unitsAt i
  words : ∀ i ∉ W, b.wordAt i = a.wordAt i

namespace Alters

variable {a b c : Arena G} {L U W L' U' W' : Set Nat}

theorem refl (a : Arena G) (L U W : Set Nat) : a.Alters L U W a :=
  ⟨rfl, rfl, rfl, fun _ _ => rfl, fun _ _ => rfl, fun _ _ => rfl⟩

theorem mono (H : a.Alters L U W b) (hL : L ⊆ L') (hU : U ⊆ U') (hW : W ⊆ W') :
    a.Alters L' U' W' b :=
  { H with
    links := fun i hi => H.links i fun h => hi (hL h)
    units := fun i hi => H.units i fun h => hi (hU h)
    words := fun i hi => H.words i fun h => hi (hW h) }

theorem trans (H : a.Alters L U W b) (H' : b.Alters L U W c) : a.Alters L U W c where
  start := H'.start.trans H.start
  size := H'.size.trans H.size
  grower := H'.grower.trans H.grower
  links i hi := (H'.links i hi).trans (H.links i hi)
  units i hi := (H'.units i hi).trans (H.units i hi)
  words i hi := (H'.words i hi).trans (H.words i hi)

theorem length_eq (H : a.Alters L U W b) : b.length = a.length := H.size

theorem unitsAt_eq (H : a.Alters L ∅ W b) : b.unitsAt = a.unitsAt :=
  funext fun i => H.units i id

/-- A slot outside the frame is the same slot. -/
theorem getElem?_eq (H : a.Alters L U W b) {i : Nat} (hL : i ∉ L) (hU : i ∉ U) (hW : i ∉ W) :
    b.slots[i]? = a.slots[i]? :=
  getElem?_eq_of_fields H.size (H.links i hL) (H.units i hU) (H.words i hW)

theorem slot_eq (H : a.Alters L U W b) {i : Nat} (hL : i ∉ L) (hU : i ∉ U) (hW : i ∉ W) :
    b.slot i = a.slot i := by
  have hget := H.getElem?_eq hL hU hW
  by_cases hi : i < a.slots.size
  · have hi' : i < b.slots.size := by
      rw [H.size]
      exact hi
    rw [Array.getElem?_eq_getElem hi, Array.getElem?_eq_getElem hi', Option.some.injEq] at hget
    rw [slot_eq_ok hi, slot_eq_ok hi', hget]
  · have hi' : b.slots.size ≤ i := by
      rw [H.size]
      omega
    rw [slot_eq_error hi', slot_eq_error (Nat.le_of_not_lt hi), H.size]

/-- A change of links that leaves every link as it was is none. -/
theorem eq_of_links (H : a.Alters L ∅ ∅ b) (hl : ∀ i ∈ L, b.linkAt i = a.linkAt i) : b = a := by
  have hlinks : ∀ i, b.linkAt i = a.linkAt i := by
    intro i
    by_cases hi : i ∈ L
    · exact hl i hi
    · exact H.links i hi
  have hslots : b.slots = a.slots := Array.ext_getElem? fun i =>
    getElem?_eq_of_fields H.size (hlinks i) (H.units i id) (H.words i id)
  exact Arena.ext H.start hslots H.grower

end Alters

section Frames

variable (a : Arena G) {i n : Nat}

theorem alters_withUnits (hi : i < a.slots.size) (hn : n ≤ maxUnits) :
    a.Alters ∅ {i} ∅ (a.withUnits i n) := by
  refine ⟨by simp, by simp, by simp, by simp, ?_, by simp⟩
  intro j hj
  rw [unitsAt_withUnits hi hn, Function.update_of_ne hj]

theorem alters_withStatus (hi : i < a.slots.size) (s : Status) :
    a.Alters ∅ ∅ {i} (a.withStatus i s) := by
  refine ⟨by simp, by simp, by simp, by simp, by simp, ?_⟩
  intro j hj
  rw [wordAt_withStatus s hi, Function.update_of_ne hj]

end Frames

/-! ## Reading fields -/

section Reads

variable {a : Arena G} {c n : Nat} {w : UInt32}

theorem lt_of_unitsAt (h : a.unitsAt c = some n) : c < a.slots.size := by
  by_contra hc
  rw [unitsAt, Array.getElem?_eq_none (by omega)] at h
  cases h

theorem units_eq_of_unitsAt (h : a.unitsAt c = some n) : a.units c = .ok n := by
  have hc := lt_of_unitsAt h
  rw [unitsAt, Array.getElem?_eq_getElem hc, Option.map_some, Option.some.injEq] at h
  rw [units_eq_ok hc, h]

theorem status_eq_of_wordAt (h : a.wordAt c = some w) : a.status c = .ok (Status.ofWord? w) := by
  unfold wordAt at h
  obtain ⟨t, ht, rfl⟩ := Option.map_eq_some_iff.mp h
  simp [status, slot_eq_ok_iff.mpr ht, Slot.status?, bind, Except.bind, pure, Except.pure]

theorem nextFree_eq_linkAt (h : c < a.slots.size) : a.nextFree c = .ok (a.linkAt c) := by
  simp [nextFree, slot_eq_ok h, linkAt, Array.getElem?_eq_getElem h, bind, Except.bind, pure,
    Except.pure]

theorem footerOf_eq_ok (h : a.unitsAt c = some n) (hlt : c + n + 1 < Word.limit) :
    a.footerOf c = .ok (c + n + 1) := by
  simp [footerOf, units_eq_of_unitsAt h, Word.add_eq_ok (show c + n < Word.limit by omega),
    Word.add_eq_ok hlt, bind, Except.bind]

theorem prevFree_eq_linkAt (h : a.unitsAt c = some n) (hf : c + n + 1 < a.slots.size)
    (hlt : c + n + 1 < Word.limit) : a.prevFree c = .ok (a.linkAt (c + n + 1)) := by
  simp [prevFree, footerOf_eq_ok h hlt, slot_eq_ok hf, linkAt, Array.getElem?_eq_getElem hf, bind,
    Except.bind, pure, Except.pure]

theorem headerOf_eq_ok {f : Nat} (h : a.unitsAt f = some n) (hle : n + 1 ≤ f) :
    a.headerOf f = .ok (f - (n + 1)) := by
  simp [headerOf, units_eq_of_unitsAt h, hle, bind, Except.bind, pure, Except.pure]

theorem nextAdjacent_eq_ok (h : a.unitsAt c = some n) (hlt : c + n + 2 < Word.limit) :
    a.nextAdjacent c = .ok (if c + n + 2 < a.slots.size then some (c + n + 2) else none) := by
  simp only [nextAdjacent, units_eq_of_unitsAt h, bind, Except.bind,
    Word.add_eq_ok (show c + n < Word.limit by omega), Word.add_eq_ok hlt, length, pure,
    Except.pure]
  rfl

end Reads

/-! ## Runs of the writes -/

section Runs

variable {a : Arena G} {c n f : Nat}

theorem runs_update (h : c < a.slots.size) (g : Slot → Slot) :
    (update c g).Runs a () (a.modified c g) := fun log => ⟨log, run_update h g log⟩

theorem runs_setNextFree (h : c < a.slots.size) (v : Option Nat) :
    (setNextFree c v).Runs a () (a.withLink c v) := runs_update h _

theorem runs_setStatus (h : c < a.slots.size) (s : Status) :
    (setStatus c s).Runs a () (a.withStatus c s) := runs_update h _

theorem runs_setPrevFree (h : a.footerOf c = .ok f) (hf : f < a.slots.size) (v : Option Nat) :
    (setPrevFree c v).Runs a () (a.withLink f v) := by
  unfold setPrevFree
  exact Action.Runs.bind (Action.runs_read (by exact h)) (runs_update hf _)

theorem runs_setUnits (hn : n ≤ maxUnits) (hf : c + n + 1 < a.slots.size)
    (hlt : c + n + 1 < Word.limit) :
    (setUnits c n).Runs a () ((a.withUnits c n).withUnits (c + n + 1) n) := by
  have hc : c < a.slots.size := by omega
  have hfooter : (a.withUnits c n).footerOf c = .ok (c + n + 1) := by
    apply footerOf_eq_ok _ hlt
    rw [unitsAt_withUnits hc hn, Function.update_self]
  unfold setUnits
  rw [if_pos hn]
  apply Action.Runs.bind (runs_update hc _)
  apply Action.Runs.bind (Action.runs_read (by exact hfooter))
  exact runs_update (by simpa using hf) _

end Runs

end BoundaryTag.Arena
