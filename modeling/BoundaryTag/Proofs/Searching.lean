import BoundaryTag.Heap.Stats
import BoundaryTag.Proofs.Choice

/-!
# Walks along the free lists

A walk that follows the links of a well-formed heap visits the chunks of one of
its lists in their order. The bound on the visits is never reached, since a list
has no more entries than the arena has slots.

Results:

* `WellFormed.firstListed_eq`, `WellFormed.listLength_eq`: the walks end, and what
  they find.
* `WellFormed.firstFit_eq`: the search for a chunk that is large enough.
* `WellFormed.freeListLengths_eq`: the lengths of all lists.
-/

namespace BoundaryTag

variable {G : Type} {a : Arena G} {before : Option Nat} {l chunks : List Chunk}
  {lists : FreeLists} {k : SizeClass} {visits i j : Nat}

/-- Every chunk of a tiling takes three slots at least. -/
theorem Tiles.length_le (h : Tiles i l j) : i + 3 * l.length ≤ j := by
  induction l generalizing i with
  | nil => exact Nat.le_of_eq h
  | cons c l ih =>
    obtain ⟨rfl, hu, h⟩ := h
    have := ih h
    unfold Chunk.stop at this
    simp only [List.length_cons]
    omega

/-! ## One list -/

theorem firstListedWithin_eq (fits : Nat → Bool) (ht : ∀ c ∈ l, c.TaggedIn a)
    (hthread : Threaded a.linkAt before l none) (hv : l.length ≤ visits) :
    a.firstListedWithin fits visits (entry l none) =
      .ok ((l.find? fun c => fits c.units).map Chunk.index) := by
  induction l generalizing before visits with
  | nil => cases visits <;> rfl
  | cons c l ih =>
    obtain ⟨-, hnext, hrest⟩ := hthread
    cases visits with
    | zero => simp at hv
    | succ visits =>
      have hc := ht c (by simp)
      have hrest' := ih (fun d hd => ht d (by simp [hd])) hrest (by simpa using hv)
      rw [entry_cons, Arena.firstListedWithin, hc.units_eq]
      simp only [bind, Except.bind, hc.nextFree_eq, hnext, List.find?_cons]
      split
      · rename_i hfits; rw [hfits]; rfl
      · rename_i hfits; rw [Bool.not_eq_true] at hfits; rw [hfits]; exact hrest'

theorem listLengthWithin_eq (ht : ∀ c ∈ l, c.TaggedIn a)
    (hthread : Threaded a.linkAt before l none) (hv : l.length ≤ visits) :
    a.listLengthWithin visits (entry l none) = .ok l.length := by
  induction l generalizing before visits with
  | nil => cases visits <;> rfl
  | cons c l ih =>
    obtain ⟨-, hnext, hrest⟩ := hthread
    cases visits with
    | zero => simp at hv
    | succ visits =>
      have hc := ht c (by simp)
      rw [entry_cons, Arena.listLengthWithin, hc.nextFree_eq, hnext]
      simp only [bind, Except.bind]
      rw [ih (fun d hd => ht d (by simp [hd])) hrest (by simpa using hv)]
      rfl

namespace Heap.WellFormed

variable {h : Heap G}

theorem taggedIn_of_listed (W : h.WellFormed chunks lists) : ∀ c ∈ lists k, c.TaggedIn h.arena :=
  fun c hc => W.tagged c (W.filed.mem_iff.mp hc).1

theorem length_list_le (W : h.WellFormed chunks lists) (k : SizeClass) :
    (lists k).length ≤ h.arena.length + 1 := by
  have hmembers : (lists k).length ≤ chunks.length := by
    rw [(W.filed.perm k).length_eq]
    exact List.length_filter_le _ _
  have htiles := W.tiles.length_le
  unfold Arena.length
  omega

theorem firstListed_eq (W : h.WellFormed chunks lists) (fits : Nat → Bool) (k : SizeClass) :
    h.arena.firstListed fits (h.head k) =
      .ok (((lists k).find? fun c => fits c.units).map Chunk.index) := by
  rw [W.heads]
  exact firstListedWithin_eq fits W.taggedIn_of_listed (W.threaded k) (W.length_list_le k)

theorem listLength_eq (W : h.WellFormed chunks lists) (k : SizeClass) :
    h.arena.listLength (h.head k) = .ok (lists k).length := by
  rw [W.heads]
  exact listLengthWithin_eq W.taggedIn_of_listed (W.threaded k) (W.length_list_le k)

/-! ## All lists -/

/-- The search in memory ends at the chunk that the lists say. -/
theorem firstFit_eq (W : h.WellFormed chunks lists) (units : Nat) :
    h.firstFit units = .ok ((h.config.choice lists units).map Chunk.index) := by
  have horder : h.searchOrder units = h.config.classesFrom units := rfl
  unfold firstFit Config.choice
  simp only [W.firstListed_eq]
  rw [horder, List.find?_flatMap, List.map_findSome?]
  exact List.findSomeM?_pure

theorem freeListLengths_eq (W : h.WellFormed chunks lists) :
    h.freeListLengths =
      .ok ((List.finRange classCount).map fun k => (h.config.members k chunks).length) := by
  unfold freeListLengths
  simp only [W.listLength_eq, (W.filed.perm _).length_eq]
  exact List.mapM_pure

end Heap.WellFormed

end BoundaryTag
