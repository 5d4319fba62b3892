import BoundaryTag.Growth.Region
import BoundaryTag.Proofs.Soundness
import BoundaryTag.Proofs.Survey

/-!
# Legal use

Whatever a program asks for, as long as its requests are legal, and whatever the
grower answers: the heap is whole after every request, and no request and no
inspection of the heap meets a fault.

Results:

* `existsUnique_wellFormed`: the memory of the heap is a tiling with its lists.
* `exists_perform`: the next request succeeds.
-/

namespace BoundaryTag.Session

variable {G : Type} [Grower G] {config : Config} {grower : G} {s t : Session G}

/-! ## A session -/

/-- Bins for the first ten sizes; the arena grows by four units at least. -/
def smallBins : Config where
  ceilings := #v[1, 2, 3, 4, 5, 6, 7, 8, 9, 10]
  minGrowth := 4
  ascending := by decide
  minGrowth_pos := by decide
  minGrowth_le := by decide

/-- A buffer of twenty slots. -/
def smallBuffer : Region where
  base := 4096
  capacity := 320
  used := 0
  base_pos := by decide
  base_aligned := by decide
  stop_lt := by decide
  used_le := by decide

set_option maxRecDepth 100000 in
/-- A block between two others is released, the one below is written to. -/
theorem reachable_small : ∃ s, Reachable smallBins smallBuffer s ∧
    s.live = [⟨4304, 40⟩, ⟨4112, 20⟩] := by
  have hplay : ((start smallBins smallBuffer).play [.allocate 20, .allocate 5, .allocate 40,
      .release 4256, .store 4115 [1, 2, 3]]).map live = some [⟨4304, 40⟩, ⟨4112, 20⟩] := by
    decide +kernel
  exact exists_reachable_of_play hplay

/-! ## The heap is whole -/

/-- A legal request leaves a sound session, with the chunks that are found in its heap. -/
theorem Sound.of_runs {r : Request} {answer : Option (Except AllocError Nat)}
    {chunks chunks' : List Chunk} {lists lists' : FreeLists} (S : s.Sound chunks lists)
    (hallows : s.Allows r) (hrun : (perform r).Runs s answer t)
    (W : t.heap.WellFormed chunks' lists') : t.Sound chunks' lists' := by
  obtain ⟨chunks₁, lists₁, S', -⟩ := S.of_step (.of_runs hallows hrun)
  obtain ⟨rfl, rfl⟩ := W.unique S'.wellFormed
  exact S'

/-- After every run of legal requests the memory of the heap is a tiling of chunks that are tagged,
settled and filed, in one way only, and the headers are those that a survey meets. -/
theorem existsUnique_wellFormed (h : Reachable config grower s) : s.heap.config = config ∧
    ∃! p : List Chunk × FreeLists, s.heap.WellFormed p.1 p.2 ∧
      s.heap.arena.survey.map SurveyRow.index = p.1.map Chunk.index := by
  obtain ⟨chunks, lists, S, hconfig⟩ := sound_of_reachable h
  have W := S.wellFormed
  refine ⟨hconfig, (chunks, lists), ⟨W, W.survey_eq⟩, ?_⟩
  rintro ⟨chunks', lists'⟩ ⟨W', -⟩
  obtain ⟨rfl, rfl⟩ := W.unique W'
  rfl

theorem existsUnique_wellFormed_small : ∃ s, Reachable smallBins smallBuffer s ∧
    s.live = [⟨4304, 40⟩, ⟨4112, 20⟩] ∧ s.heap.config = smallBins ∧
    ∃! p : List Chunk × FreeLists, s.heap.WellFormed p.1 p.2 ∧
      s.heap.arena.survey.map SurveyRow.index = p.1.map Chunk.index := by
  obtain ⟨s, hs, hlive⟩ := reachable_small
  exact ⟨s, hs, hlive, existsUnique_wellFormed hs⟩

/-! ## Nothing fails -/

/-- After every run of legal requests the next one ends without a fault, and so do the search for a
free chunk and every inspection. -/
theorem exists_perform (h : Reachable config grower s) :
    (∀ r, s.Allows r → ∀ log, ∃ answer t log', perform r ⟨s, log⟩ = .ok answer ⟨t, log'⟩) ∧
    (∀ units, ∃ c, s.heap.firstFit units = .ok c) ∧
    (∃ lengths, s.heap.freeListLengths = .ok lengths) ∧
    (∃ stats bytes, s.heap.stats = .ok stats ∧ stats.coveredBytes = .ok bytes) ∧
    s.heap.check = .ok none := by
  obtain ⟨chunks, lists, S, -⟩ := sound_of_reachable h
  have W := S.wellFormed
  refine ⟨?_, fun units => ⟨_, W.firstFit_eq units⟩,
    ⟨_, W.freeListLengths_eq⟩, ⟨_, _, W.stats_eq, W.coveredBytes_eq _⟩, W.check_eq⟩
  intro r hallows log
  obtain ⟨answer, t, -, -, hrun, -, -⟩ := S.step r hallows
  obtain ⟨log', hperform⟩ := hrun log
  exact ⟨answer, t, log', hperform⟩

theorem exists_perform_small : ∃ s, Reachable smallBins smallBuffer s ∧
    s.live = [⟨4304, 40⟩, ⟨4112, 20⟩] ∧
    (∀ log, ∃ answer t log',
      perform (.release 4112) ⟨s, log⟩ = .ok answer ⟨t, log'⟩) ∧ s.heap.check = .ok none := by
  obtain ⟨s, hs, hlive⟩ := reachable_small
  obtain ⟨hperform, -, -, -, hcheck⟩ := exists_perform hs
  refine ⟨s, hs, hlive, hperform _ (.inr ⟨⟨4112, 20⟩, ?_, rfl⟩), hcheck⟩
  rw [hlive]
  decide

end BoundaryTag.Session
