import BoundaryTag.Proofs.View

/-!
# Runs of agreeing tags

The steps between neighbours read two unit counts: up from a header that of the header, down
from a footer that of the footer. They lead to and fro where the two agree, and nothing else
in the tags matters to them. `Paved i l j` says no more than that: the slots from `i` to `j`
are cut into chunks, with the headers `l`, whose tags give the same size.

Results:

* `paved_append`: a paving may be cut before any header.
* `Paved.nextAdjacent_eq`, `Paved.prevAdjacent_eq`: the steps up and down.
-/

namespace BoundaryTag.Arena

variable {G : Type} {a b : Arena G} {l m : List Nat} {c i j n : Nat}

theorem units_eq_ok_iff : a.units c = .ok n ↔ a.unitsAt c = some n := by
  refine ⟨fun h => ?_, units_eq_of_unitsAt⟩
  by_cases hc : c < a.slots.size
  · rw [units_eq_ok hc, Except.ok.injEq] at h
    rw [unitsAt, Array.getElem?_eq_getElem hc, Option.map_some, h]
  · rw [units_eq_error (by omega)] at h
    cases h

theorem lt_of_units (h : a.units c = .ok n) : c < a.length := lt_of_unitsAt (units_eq_ok_iff.mp h)

/-! ## Pavings -/

/-- Chunks with the headers `l` fill the slots from `i` to `j`. The header and the footer of each
give its size. -/
def Paved (a : Arena G) : Nat → List Nat → Nat → Prop
  | i, [], j => i = j
  | i, c :: l, j =>
    c = i ∧ ∃ n, a.units c = .ok n ∧ a.units (c + n + 1) = .ok n ∧ a.Paved (c + n + 2) l j

theorem paved_append : a.Paved i (l ++ m) j ↔ ∃ k, a.Paved i l k ∧ a.Paved k m j := by
  induction l generalizing i with
  | nil => simp [Paved]
  | cons c l ih =>
    simp only [List.cons_append, Paved, ih]
    constructor
    · rintro ⟨hi, n, hn, hf, k, hl, hm⟩
      exact ⟨k, ⟨hi, n, hn, hf, hl⟩, hm⟩
    · rintro ⟨k, ⟨hi, n, hn, hf, hl⟩, hm⟩
      exact ⟨hi, n, hn, hf, k, hl, hm⟩

namespace Paved

/-- A paving is seen through the unit counts only. -/
theorem congr (h : a.Paved i l j) (hu : b.unitsAt = a.unitsAt) : b.Paved i l j := by
  induction l generalizing i with
  | nil => exact h
  | cons c l ih =>
    obtain ⟨hi, n, hn, hf, h⟩ := h
    rw [units_eq_ok_iff, ← hu] at hn hf
    exact ⟨hi, n, units_eq_of_unitsAt hn, units_eq_of_unitsAt hf, ih h⟩

theorem le (h : a.Paved i l j) : i ≤ j := by
  induction l generalizing i with
  | nil => exact Nat.le_of_eq h
  | cons c l ih =>
    obtain ⟨rfl, n, -, -, h⟩ := h
    have := ih h
    omega

/-- The headers lie in the run, and there is room for the footer of each. -/
theorem bounds (h : a.Paved i l j) (hc : c ∈ l) :
    ∃ n, a.units c = .ok n ∧ a.units (c + n + 1) = .ok n ∧ i ≤ c ∧ c + n + 2 ≤ j := by
  obtain ⟨pre, post, rfl⟩ := List.append_of_mem hc
  obtain ⟨k, hpre, rfl, n, hn, hf, hpost⟩ := paved_append.mp h
  exact ⟨n, hn, hf, hpre.le, hpost.le⟩

theorem ascending (h : a.Paved i l j) : l.Pairwise (· < ·) := by
  induction l generalizing i with
  | nil => exact List.Pairwise.nil
  | cons c l ih =>
    obtain ⟨-, n, -, -, h⟩ := h
    refine List.pairwise_cons.mpr ⟨fun d hd => ?_, ih h⟩
    obtain ⟨-, -, -, hle, -⟩ := h.bounds hd
    omega

theorem lt (h : a.Paved i l j) (hc : c ∈ l) : c < j := by
  obtain ⟨n, -, -, -, hle⟩ := h.bounds hc
  omega

/-! ## Steps -/

/-- The step up from a header leads to the next one. -/
theorem nextAdjacent_eq (hlen : a.length < Word.limit) (h : a.Paved i (c :: l) a.length) :
    a.nextAdjacent c = .ok l.head? := by
  obtain ⟨-, n, hn, -, hl⟩ := h
  have hle := hl.le
  rw [nextAdjacent_eq_ok (units_eq_ok_iff.mp hn) (by omega)]
  cases l with
  | nil =>
    have hend : c + n + 2 = a.slots.size := hl
    rw [if_neg (by omega)]
    rfl
  | cons d l =>
    have hd : d < a.slots.size := hl.lt (by simp)
    obtain ⟨rfl, -⟩ := hl
    rw [if_pos hd]
    rfl

/-- The step down from the end of a run leads to the last header. -/
theorem prevAdjacent_eq (h : a.Paved 0 l i) : a.prevAdjacent i = .ok l.getLast? := by
  rcases List.eq_nil_or_concat' l with rfl | ⟨l, p, rfl⟩
  · cases h
    rfl
  · obtain ⟨k, -, -, n, -, hf, rfl⟩ := paved_append.mp h
    have hheader : a.headerOf (p + n + 1) = .ok p := by
      rw [headerOf_eq_ok (units_eq_ok_iff.mp hf) (by omega)]
      congr 1
      omega
    rw [List.getLast?_concat, prevAdjacent, if_neg (by omega)]
    simp only [Nat.add_succ_sub_one, hheader]
    rfl

/-- Down from the footer of a header leads back to it. -/
theorem headerOf_footerOf (hlen : a.length < Word.limit) (h : a.Paved i l a.length)
    (hc : c ∈ l) : ∃ f, a.footerOf c = .ok f ∧ a.headerOf f = .ok c := by
  obtain ⟨n, hn, hf, -, hle⟩ := h.bounds hc
  refine ⟨c + n + 1, footerOf_eq_ok (units_eq_ok_iff.mp hn) (by omega), ?_⟩
  rw [headerOf_eq_ok (units_eq_ok_iff.mp hf) (by omega)]
  congr 1
  omega

end Paved

end BoundaryTag.Arena
