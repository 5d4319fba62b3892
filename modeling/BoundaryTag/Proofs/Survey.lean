import BoundaryTag.Arena.Survey
import BoundaryTag.Proofs.Inspection

/-!
# What the memory says

The chunks and lists of a well-formed heap are no more than a reading of its
memory: the tags lead from slot 0 to all chunks, and the heads with the links
lead to all members of the lists. So there is one reading only, and a survey of
the arena meets the headers of its chunks.

Results:

* `Inspected.unique`, `WellFormed.unique`: a heap reads in one way at most.
* `WellFormed.survey_eq`: the headers that a survey meets.
-/

namespace BoundaryTag

variable {G : Type} {a : Arena G} {l m chunks chunks' : List Chunk} {lists lists' : FreeLists}
  {c d : Chunk} {i j : Nat}

/-! ## Chunks -/

theorem Status.word_injective {s t : Status} (h : s.word = t.word) : s = t := by
  have hsome := congrArg Status.ofWord? h
  rw [Status.ofWord?_word, Status.ofWord?_word] at hsome
  exact Option.some.inj hsome

/-- The tags determine the chunk at a slot. -/
theorem Chunk.TaggedIn.unique (hc : c.TaggedIn a) (hd : d.TaggedIn a) (h : c.index = d.index) :
    c = d := by
  obtain ⟨index, units, status⟩ := c
  obtain ⟨index', units', status'⟩ := d
  obtain rfl : index = index' := h
  obtain rfl := Option.some.inj (hc.units.symm.trans hd.units)
  obtain rfl := Status.word_injective (Option.some.inj (hc.word.symm.trans hd.word))
  rfl

/-- The tags determine the tiling. -/
theorem Tiles.unique (hl : Tiles i l j) (hm : Tiles i m j) (htl : ∀ c ∈ l, c.TaggedIn a)
    (htm : ∀ c ∈ m, c.TaggedIn a) : l = m := by
  induction l generalizing i m with
  | nil =>
    cases m with
    | nil => rfl
    | cons d m =>
      obtain ⟨rfl, -, hm⟩ := hm
      have hij : d.index = j := hl
      have := hm.le
      have := d.index_lt_stop
      omega
  | cons c l ih =>
    obtain ⟨rfl, -, hl⟩ := hl
    cases m with
    | nil =>
      have hij : c.index = j := hm
      have := hl.le
      have := c.index_lt_stop
      omega
    | cons d m =>
      obtain ⟨hindex, -, hm⟩ := hm
      obtain rfl := (htl c (by simp)).unique (htm d (by simp)) hindex.symm
      rw [ih hl hm (fun c hc => htl c (by simp [hc])) fun c hc => htm c (by simp [hc])]

/-- A survey of a tiled arena meets the chunks. -/
theorem Tiles.surveyFrom_eq (h : Tiles i l a.slots.size) (ht : ∀ c ∈ l, c.TaggedIn a) :
    (a.surveyFrom i).map SurveyRow.index = l.map Chunk.index := by
  induction l generalizing i with
  | nil =>
    have hi : i = a.slots.size := h
    rw [Arena.surveyFrom, dif_neg (by omega)]
    rfl
  | cons c l ih =>
    obtain ⟨rfl, -, h⟩ := h
    have hc := ht c (by simp)
    obtain ⟨header, hheader, hunits⟩ := Option.map_eq_some_iff.mp (by exact hc.units)
    obtain ⟨hlt, hget⟩ := Array.getElem?_eq_some_iff.mp hheader
    have hstop : c.index + a.slots[c.index].units.toNat + 2 = c.stop := by
      rw [hget, hunits]
      rfl
    rw [Arena.surveyFrom, dif_pos hlt]
    simp only [List.map_cons, hstop]
    rw [ih h fun d hd => ht d (by simp [hd])]

/-! ## Lists -/

/-- What a thread passes on its way stands at the beginning of every list that is entered alike and
whose links agree with it so far. -/
theorem Threaded.exists_rest {link link' : Nat → Option Nat} {before before' after : Option Nat}
    (hl : Threaded link before l after) (hm : Threaded link' before' m none)
    (hnext : ∀ c ∈ l, link' c.index = link c.index) (hentry : entry l after = entry m none)
    (h : ∀ c ∈ l, ∀ d ∈ m, c.index = d.index → c = d) :
    ∃ rest, m = l ++ rest ∧ entry rest none = after := by
  induction l generalizing before before' m with
  | nil => exact ⟨m, rfl, hentry.symm⟩
  | cons c l ih =>
    cases m with
    | nil => cases hentry
    | cons d m =>
      obtain rfl := h c (by simp) d (by simp) (Option.some.inj hentry)
      obtain ⟨-, hc, hl⟩ := hl
      obtain ⟨-, hd, hm⟩ := hm
      have hentry' : entry l after = entry m none := by rw [← hc, ← hnext c (by simp), hd]
      obtain ⟨rest, rfl, hrest⟩ := ih hl hm (fun e he => hnext e (by simp [he])) hentry'
        fun e he f hf => h e (by simp [he]) f (by simp [hf])
      exact ⟨rest, rfl, hrest⟩

/-- The links determine the members of a list. -/
theorem Threaded.unique {link link' : Nat → Option Nat} {before before' : Option Nat}
    (hl : Threaded link before l none) (hm : Threaded link' before' m none)
    (hnext : ∀ c ∈ l, link' c.index = link c.index) (hentry : entry l none = entry m none)
    (h : ∀ c ∈ l, ∀ d ∈ m, c.index = d.index → c = d) : l = m := by
  obtain ⟨rest, rfl, hrest⟩ := hl.exists_rest hm hnext hentry h
  cases rest with
  | nil => rw [List.append_nil]
  | cons d rest => cases hrest

/-! ## Heaps -/

namespace Heap

variable {h : Heap G}

/-- An inspected heap reads in one way only. -/
theorem Inspected.unique (I : h.Inspected chunks lists) (I' : h.Inspected chunks' lists') :
    chunks = chunks' ∧ lists = lists' := by
  refine ⟨I.tiles.unique I'.tiles I.tagged I'.tagged, funext ?_⟩
  intro k
  apply (I.enlisted k).threaded.unique (I'.enlisted k).threaded (fun _ _ => rfl)
    ((I.heads k).symm.trans (I'.heads k))
  intro c hc d hd
  exact ((I.enlisted k).entries c hc).tagged.unique ((I'.enlisted k).entries d hd).tagged

namespace WellFormed

/-- A heap is well formed in one way at most. -/
theorem unique (W : h.WellFormed chunks lists) (W' : h.WellFormed chunks' lists') :
    chunks = chunks' ∧ lists = lists' := W.inspected.unique W'.inspected

theorem survey_eq (W : h.WellFormed chunks lists) :
    h.arena.survey.map SurveyRow.index = chunks.map Chunk.index :=
  W.tiles.surveyFrom_eq W.tagged

end WellFormed

end Heap

end BoundaryTag
