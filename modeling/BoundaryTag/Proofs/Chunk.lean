import BoundaryTag.Proofs.View

/-!
# Chunks and tilings

A chunk is known by its header slot, its size and its status. That its tags
stand in memory (`Chunk.TaggedIn`) and that chunks fill a run of slots without a
gap (`Tiles`) are separate facts: the first is about single slots, the second is
arithmetic only. In the middle of an operation the first holds of chunks that do
not tile the arena.

Results:

* `tiles_append`: a tiling may be cut between any two chunks.
* `Tiles.ascending`, `nodup_tagSlots`: the chunks of a tiling lie behind each
  other, and no two of their tags share a slot.
* `SizedIn.footerOf_eq`, `TaggedIn.nextAdjacent_eq`: the header leads to the footer and to the end
  of the chunk.
-/

namespace BoundaryTag

/-- A chunk as its tags describe it. -/
structure Chunk where
  /-- The slot of the header. -/
  index : Nat
  units : Nat
  status : Status
deriving DecidableEq, Repr

namespace Chunk

/-- The slot of the footer. -/
def footer (c : Chunk) : Nat := c.index + c.units + 1

/-- The slot behind the chunk. -/
def stop (c : Chunk) : Nat := c.index + c.units + 2

/-- Whether the chunk is free. -/
def isFree (c : Chunk) : Bool := c.status = .free

@[simp] theorem isFree_iff {c : Chunk} : c.isFree = true ↔ c.status = .free := by simp [isFree]

theorem isFree_eq_false_iff {c : Chunk} : c.isFree = false ↔ c.status = .inUse := by
  cases h : c.status <;> simp [isFree, h]

theorem stop_eq_footer_add (c : Chunk) : c.stop = c.footer + 1 := rfl

theorem index_lt_footer (c : Chunk) : c.index < c.footer := by unfold footer; omega

theorem index_lt_stop (c : Chunk) : c.index < c.stop := by unfold stop; omega

theorem footer_lt_stop (c : Chunk) : c.footer < c.stop := by unfold footer stop; omega

/-- The chunk with another status. -/
def withStatus (c : Chunk) (s : Status) : Chunk := { c with status := s }

/-- The chunk with another size, its header where it was. -/
def withUnits (c : Chunk) (n : Nat) : Chunk := { c with units := n }

section Simp

variable (c : Chunk) (s : Status) (n : Nat)

@[simp] theorem index_withStatus : (c.withStatus s).index = c.index := rfl

@[simp] theorem units_withStatus : (c.withStatus s).units = c.units := rfl

@[simp] theorem status_withStatus : (c.withStatus s).status = s := rfl

@[simp] theorem footer_withStatus : (c.withStatus s).footer = c.footer := rfl

@[simp] theorem stop_withStatus : (c.withStatus s).stop = c.stop := rfl

@[simp] theorem index_withUnits : (c.withUnits n).index = c.index := rfl

@[simp] theorem units_withUnits : (c.withUnits n).units = n := rfl

@[simp] theorem status_withUnits : (c.withUnits n).status = c.status := rfl

@[simp] theorem isFree_withUnits : (c.withUnits n).isFree = c.isFree := rfl

end Simp

/-- The header gives the size of the chunk, and there is room for the footer. -/
structure SizedIn {G : Type} (c : Chunk) (a : Arena G) : Prop where
  units : a.unitsAt c.index = some c.units
  footer_lt : c.footer < a.slots.size

/-- Header and footer of the chunk stand in the arena. -/
structure TaggedIn {G : Type} (c : Chunk) (a : Arena G) : Prop where
  units : a.unitsAt c.index = some c.units
  word : a.wordAt c.index = some c.status.word
  footer : a.unitsAt c.footer = some c.units

end Chunk

/-! ## Tilings -/

/-- The chunks lie behind each other, each at least one unit long, from slot `i` to slot `j`. -/
def Tiles : Nat → List Chunk → Nat → Prop
  | i, [], j => i = j
  | i, c :: rest, j => c.index = i ∧ 1 ≤ c.units ∧ Tiles c.stop rest j

/-- Every chunk ends before the next begins. -/
def Ascending (chunks : List Chunk) : Prop := chunks.Pairwise fun c d => c.stop ≤ d.index

theorem tiles_append {i j : Nat} {l m : List Chunk} :
    Tiles i (l ++ m) j ↔ ∃ k, Tiles i l k ∧ Tiles k m j := by
  induction l generalizing i with
  | nil => simp [Tiles]
  | cons c l ih =>
    simp only [List.cons_append, Tiles, ih]
    constructor
    · rintro ⟨h, hu, k, hl, hm⟩; exact ⟨k, ⟨h, hu, hl⟩, hm⟩
    · rintro ⟨k, ⟨h, hu, hl⟩, hm⟩; exact ⟨h, hu, k, hl, hm⟩

/-- Cutting a tiling around one of its chunks. -/
theorem tiles_split {i j : Nat} {pre post : List Chunk} {c : Chunk} :
    Tiles i (pre ++ c :: post) j ↔ Tiles i pre c.index ∧ 1 ≤ c.units ∧ Tiles c.stop post j := by
  rw [tiles_append]
  constructor
  · rintro ⟨k, hpre, rfl, hu, hpost⟩; exact ⟨hpre, hu, hpost⟩
  · rintro ⟨hpre, hu, hpost⟩; exact ⟨c.index, hpre, rfl, hu, hpost⟩

namespace Tiles

theorem le {i j : Nat} {l : List Chunk} (h : Tiles i l j) : i ≤ j := by
  induction l generalizing i with
  | nil => exact Nat.le_of_eq h
  | cons c l ih =>
    obtain ⟨rfl, -, h⟩ := h
    have := ih h
    have := c.index_lt_stop
    omega

/-- The chunks say where a tiling ends. -/
theorem stop_unique {i j j' : Nat} {l : List Chunk} (h : Tiles i l j) (h' : Tiles i l j') :
    j = j' := by
  induction l generalizing i with
  | nil => exact h.symm.trans h'
  | cons c l ih => exact ih h.2.2 h'.2.2

/-- The chunks of a tiling lie inside the run of slots it covers. -/
theorem bounds {i j : Nat} {l : List Chunk} (h : Tiles i l j) {c : Chunk} (hc : c ∈ l) :
    i ≤ c.index ∧ c.stop ≤ j ∧ 1 ≤ c.units := by
  obtain ⟨pre, post, rfl⟩ := List.append_of_mem hc
  obtain ⟨hpre, hu, hpost⟩ := tiles_split.mp h
  exact ⟨hpre.le, hpost.le, hu⟩

theorem ascending {i j : Nat} {l : List Chunk} (h : Tiles i l j) : Ascending l := by
  induction l generalizing i with
  | nil => exact List.Pairwise.nil
  | cons c l ih =>
    obtain ⟨-, -, h⟩ := h
    exact List.pairwise_cons.mpr ⟨fun d hd => (h.bounds hd).1, ih h⟩

/-- The chunks behind the end of a tiling extend it. -/
theorem concat {i : Nat} {l : List Chunk} {c : Chunk} (h : Tiles i l c.index) (hu : 1 ≤ c.units) :
    Tiles i (l ++ [c]) c.stop := tiles_split.mpr ⟨h, hu, rfl⟩

end Tiles

/-- Of two chunks one lies behind the other. -/
theorem Ascending.apart {chunks : List Chunk} {c d : Chunk} (h : Ascending chunks)
    (hc : c ∈ chunks) (hd : d ∈ chunks) (hne : c ≠ d) :
    c.stop ≤ d.index ∨ d.stop ≤ c.index := by
  have hsymm : Std.Symm fun c d : Chunk => c.stop ≤ d.index ∨ d.stop ≤ c.index :=
    ⟨fun _ _ h => h.symm⟩
  have hpairs : chunks.Pairwise fun c d => c.stop ≤ d.index ∨ d.stop ≤ c.index :=
    h.imp fun hcd => .inl hcd
  exact hpairs.forall hc hd hne

/-- Chunks that share a slot are the same. -/
theorem Ascending.eq_of_overlap {chunks : List Chunk} {c d : Chunk} {i : Nat}
    (h : Ascending chunks) (hc : c ∈ chunks) (hd : d ∈ chunks) (hic : c.index ≤ i ∧ i < c.stop)
    (hid : d.index ≤ i ∧ i < d.stop) : c = d := by
  by_contra hne
  have := h.apart hc hd hne
  omega

/-- A chunk may give way to one that begins with it and ends no higher. -/
theorem Ascending.shorten {pre post : List Chunk} {c d : Chunk} (h : Ascending (pre ++ c :: post))
    (hindex : d.index = c.index) (hstop : d.stop ≤ c.stop) : Ascending (pre ++ d :: post) := by
  unfold Ascending at h ⊢
  rw [List.pairwise_append, List.pairwise_cons] at h ⊢
  obtain ⟨hpre, ⟨hc, hpost⟩, hacross⟩ := h
  refine ⟨hpre, ⟨fun e he => Nat.le_trans hstop (hc e he), hpost⟩, ?_⟩
  intro e he f hf
  rcases List.mem_cons.mp hf with rfl | hf
  · rw [hindex]
    exact hacross e he c (by simp)
  · exact hacross e he f (List.mem_cons_of_mem _ hf)

/-! ## Slots of tags -/

/-- The slots in which the tags of the chunks stand. -/
def tagSlots (chunks : List Chunk) : List Nat := chunks.flatMap fun c => [c.index, c.footer]

@[simp] theorem tagSlots_nil : tagSlots [] = [] := rfl

@[simp] theorem tagSlots_cons (c : Chunk) (l : List Chunk) :
    tagSlots (c :: l) = c.index :: c.footer :: tagSlots l := rfl

@[simp] theorem tagSlots_append (l m : List Chunk) :
    tagSlots (l ++ m) = tagSlots l ++ tagSlots m := List.flatMap_append

theorem mem_tagSlots {l : List Chunk} {i : Nat} :
    i ∈ tagSlots l ↔ ∃ c ∈ l, i = c.index ∨ i = c.footer := by simp [tagSlots]

theorem tagSlots_subset {l m : List Chunk} (h : ∀ c ∈ l, c ∈ m) {i : Nat} (hi : i ∈ tagSlots l) :
    i ∈ tagSlots m := by
  obtain ⟨c, hc, hi⟩ := mem_tagSlots.mp hi
  exact mem_tagSlots.mpr ⟨c, h c hc, hi⟩

theorem nodup_tagSlots {l : List Chunk} (h : Ascending l) : (tagSlots l).Nodup := by
  refine List.nodup_flatMap.mpr ⟨?_, h.imp ?_⟩
  · intro c _
    have := c.index_lt_footer
    simp; omega
  · intro c d hcd i hi hj
    have := c.index_lt_footer
    have := c.footer_lt_stop
    have := d.index_lt_footer
    simp only [List.mem_cons, List.not_mem_nil, or_false] at hi hj
    omega

/-- Different chunks of a family whose tags are apart share no slot. -/
theorem tagSlots_apart {l : List Chunk} (h : (tagSlots l).Nodup) {c d : Chunk} (hc : c ∈ l)
    (hd : d ∈ l) (hne : c ≠ d) :
    c.index ≠ d.index ∧ c.index ≠ d.footer ∧ c.footer ≠ d.index ∧ c.footer ≠ d.footer := by
  have hdisj := (List.nodup_flatMap.mp h).2
  have hsymm : Std.Symm (Function.onFun List.Disjoint fun c : Chunk => [c.index, c.footer]) :=
    ⟨fun _ _ h => h.symm⟩
  have := hdisj.forall hc hd hne
  simp [Function.onFun, List.Disjoint] at this
  tauto

/-- A part of a family whose tags are apart, without repetitions. -/
theorem nodup_tagSlots_of_subset {l m : List Chunk} (hm : (tagSlots m).Nodup) (hl : l.Nodup)
    (h : ∀ c ∈ l, c ∈ m) : (tagSlots l).Nodup := by
  refine List.nodup_flatMap.mpr ⟨fun c hc => (List.nodup_flatMap.mp hm).1 c (h c hc), ?_⟩
  refine hl.imp_of_mem fun {c d} hc hd hne => ?_
  obtain ⟨h₁, h₂, h₃, h₄⟩ := tagSlots_apart hm (h c hc) (h d hd) hne
  simp [Function.onFun, List.Disjoint]
  tauto

theorem nodup_of_nodup_tagSlots {l : List Chunk} (h : (tagSlots l).Nodup) : l.Nodup := by
  induction l with
  | nil => exact List.nodup_nil
  | cons c l ih =>
    simp only [tagSlots_cons, List.nodup_cons, List.mem_cons, not_or] at h
    refine List.nodup_cons.mpr ⟨fun hc => h.1.2 ?_, ih h.2.2⟩
    exact mem_tagSlots.mpr ⟨c, hc, .inl rfl⟩

theorem Ascending.nodup {l : List Chunk} (h : Ascending l) : l.Nodup :=
  nodup_of_nodup_tagSlots (nodup_tagSlots h)

/-! ## Reading the tags of a chunk -/

/-- The longest arena is far from the end of the words. -/
theorem lt_limit_of_le_maxUnits {n : Nat} (h : n ≤ maxUnits) : n < Word.limit :=
  Nat.lt_of_le_of_lt h (by decide)

namespace Chunk.SizedIn

variable {G : Type} {c : Chunk} {a b : Arena G}

theorem index_lt (h : c.SizedIn a) : c.index < a.slots.size := Arena.lt_of_unitsAt h.units

/-- The size is seen through the unit counts only. -/
theorem congr (h : c.SizedIn a) (hu : b.unitsAt = a.unitsAt) (hsize : b.slots.size = a.slots.size) :
    c.SizedIn b :=
  ⟨by rw [hu, h.units], by rw [hsize]; exact h.footer_lt⟩

theorem units_eq (h : c.SizedIn a) : a.units c.index = .ok c.units :=
  Arena.units_eq_of_unitsAt h.units

theorem nextFree_eq (h : c.SizedIn a) : a.nextFree c.index = .ok (a.linkAt c.index) :=
  Arena.nextFree_eq_linkAt h.index_lt

variable (hs : a.slots.size < Word.limit)

include hs

theorem footerOf_eq (h : c.SizedIn a) : a.footerOf c.index = .ok c.footer :=
  Arena.footerOf_eq_ok h.units (Nat.lt_trans h.footer_lt hs)

theorem prevFree_eq (h : c.SizedIn a) : a.prevFree c.index = .ok (a.linkAt c.footer) :=
  Arena.prevFree_eq_linkAt h.units h.footer_lt (Nat.lt_trans h.footer_lt hs)

end Chunk.SizedIn

namespace Chunk.TaggedIn

variable {G : Type} {c : Chunk} {a : Arena G}

theorem footer_lt (h : c.TaggedIn a) : c.footer < a.slots.size := Arena.lt_of_unitsAt h.footer

theorem index_lt (h : c.TaggedIn a) : c.index < a.slots.size := Arena.lt_of_unitsAt h.units

theorem stop_le (h : c.TaggedIn a) : c.stop ≤ a.slots.size := h.footer_lt

theorem sized (h : c.TaggedIn a) : c.SizedIn a := ⟨h.units, h.footer_lt⟩

/-- The tags are seen through the unit counts and status words only. -/
theorem congr {b : Arena G} (h : c.TaggedIn a) (hu : b.unitsAt = a.unitsAt)
    (hw : b.wordAt = a.wordAt) : c.TaggedIn b :=
  ⟨by rw [hu, h.units], by rw [hw, h.word], by rw [hu, h.footer]⟩

/-- The tags are seen in their two slots only. -/
theorem sameSlots {b : Arena G} (h : c.TaggedIn a)
    (hindex : b.slots[c.index]? = a.slots[c.index]?)
    (hfooter : b.slots[c.footer]? = a.slots[c.footer]?) : c.TaggedIn b := by
  obtain ⟨hu, hw, hf⟩ := h
  unfold Arena.unitsAt at hu hf
  unfold Arena.wordAt at hw
  refine ⟨?_, ?_, ?_⟩
  · rw [Arena.unitsAt, hindex, hu]
  · rw [Arena.wordAt, hindex, hw]
  · rw [Arena.unitsAt, hfooter, hf]

/-- The tags survive a change of other slots. -/
theorem alters {b : Arena G} {L U W : Set Nat} (h : c.TaggedIn a) (A : a.Alters L U W b)
    (hi : c.index ∉ U) (hf : c.footer ∉ U) (hw : c.index ∉ W) : c.TaggedIn b :=
  ⟨(A.units _ hi).trans h.units, (A.words _ hw).trans h.word, (A.units _ hf).trans h.footer⟩

theorem units_eq (h : c.TaggedIn a) : a.units c.index = .ok c.units := h.sized.units_eq

theorem status_eq (h : c.TaggedIn a) : a.status c.index = .ok (some c.status) := by
  rw [Arena.status_eq_of_wordAt h.word, Status.ofWord?_word]

theorem isFree_eq (h : c.TaggedIn a) : a.isFree c.index = .ok c.isFree := by
  simp [Arena.isFree, h.status_eq, isFree, bind, Except.bind, pure, Except.pure]

theorem nextFree_eq (h : c.TaggedIn a) : a.nextFree c.index = .ok (a.linkAt c.index) :=
  h.sized.nextFree_eq

variable (hs : a.slots.size ≤ maxUnits)

include hs

theorem stop_lt_limit (h : c.TaggedIn a) : c.stop < Word.limit :=
  Nat.lt_of_le_of_lt h.stop_le (lt_limit_of_le_maxUnits hs)

theorem add_two_eq (h : c.TaggedIn a) {n : Nat} (hn : n ≤ c.units) :
    Word.add n 2 = .ok (n + 2) := by
  have := h.stop_lt_limit hs
  unfold Chunk.stop at this
  exact Word.add_eq_ok (by omega)

theorem footerOf_eq (h : c.TaggedIn a) : a.footerOf c.index = .ok c.footer :=
  h.sized.footerOf_eq (lt_limit_of_le_maxUnits hs)

theorem prevFree_eq (h : c.TaggedIn a) : a.prevFree c.index = .ok (a.linkAt c.footer) :=
  h.sized.prevFree_eq (lt_limit_of_le_maxUnits hs)

/-- The step up from a chunk leads to its end. -/
theorem nextAdjacent_eq (h : c.TaggedIn a) :
    a.nextAdjacent c.index = .ok (if c.stop < a.slots.size then some c.stop else none) :=
  Arena.nextAdjacent_eq_ok h.units (h.stop_lt_limit hs)

end Chunk.TaggedIn

end BoundaryTag
