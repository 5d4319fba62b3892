import BoundaryTag.Growth.Script
import BoundaryTag.Proofs.LegalUse
import BoundaryTag.Proofs.Requests

/-!
# Failed allocations

An allocation fails before it has written anything: the size is rejected, or no
free chunk fits and the arena does not grow. Growth in turn decides before it
writes whether a grant is accepted. So all that a failure can leave behind is a
grower that has been asked, and that happens once at most.

Results:

* `Outcome.eq_of_error`: what an allocation leaves that fails.
* `exists_allocate_kept`: the same after every run of legal requests.
-/

namespace BoundaryTag

variable {G : Type}

/-- A failure leaves everything but the grower. -/
theorem Heap.Outcome.eq_of_error [Grower G] {h h' : Heap G} {chunks : List Chunk}
    {lists : FreeLists} {size : Nat} {e : AllocError}
    (O : h.Outcome chunks lists size (.error e) h') :
    h' = h.withArena (h.arena.withGrower h'.arena.grower) := by
  cases O <;> rfl

/-! ## Sessions -/

namespace Session

/-- The session with its grower in another state. -/
def withGrower (s : Session G) (g : G) : Session G :=
  { s with heap := s.heap.withArena (s.heap.arena.withGrower g) }

variable [Grower G] {config : Config} {grower : G} {s : Session G}

/-- After every run of legal requests: an allocation that fails leaves the whole session, memory,
lists and blocks, but for the state of its grower. It has asked the grower once at most, and not at
all where the size is rejected, a free chunk is large enough, or the arena would become too long;
then the grower is as before, too. -/
theorem exists_allocate_kept (h : Reachable config grower s) (size : Nat) :
    ∃ chunks lists answer t, s.heap.WellFormed chunks lists ∧
      (perform (.allocate size)).Runs s (some answer) t ∧
      (∀ e, answer = .error e → t = s.withGrower t.heap.arena.grower) ∧
      t.heap.arena.grower = Grower.after s.heap.arena.grower (s.heap.requests size) ∧
      (s.heap.requests size).length ≤ 1 ∧
      (answer = .error .zeroSize ∨ answer = .error (.tooLarge size) ∨
        (∃ c ∈ chunks, c.isFree ∧ Heap.unitsFor size ≤ c.units) ∨
        maxUnits < s.heap.arena.slots.size + (s.heap.growthUnits (Heap.unitsFor size) + 2) →
          s.heap.requests size = []) := by
  obtain ⟨chunks, lists, S, -⟩ := sound_of_reachable h
  have W := S.wellFormed
  obtain ⟨answer, h', hrun, O⟩ := W.exists_outcome size
  have hgrower := O.grower_eq W
  refine ⟨chunks, lists, answer, _, W, runs_allocate hrun, ?_, ?_, s.heap.length_requests_le size,
    ?_⟩
  · rintro e rfl
    exact congrArg (fun heap => { s with heap := heap }) O.eq_of_error
  · cases answer <;> exact hgrower
  · rintro (hzero | hlarge | hfits | hlimit)
    · exact O.requests_of_rejected (.inl hzero)
    · exact O.requests_of_rejected (.inr hlarge)
    · exact W.requests_of_fitting hfits
    · exact Heap.requests_of_limit hlimit

/-- A grower whose second grant does not begin where the first one ends. -/
def gappedScript : Script where
  base := 8192
  capacity := 1024
  cursor := 0
  entries := [.advance 0, .advance 16]
  calls := #[]
  base_pos := by decide
  stop_lt := by decide

set_option maxRecDepth 100000 in
/-- The second grant is given up, and the arena stays as it was. -/
theorem exists_allocate_kept_gapped : ∃ s t, Reachable smallBins gappedScript s ∧
    (∀ log, ∃ log', perform (.allocate 200) ⟨s, log⟩ =
      .ok (some (.error (.outOfMemory (.discontiguous 8288 8304)))) ⟨t, log'⟩) ∧
    t = s.withGrower t.heap.arena.grower ∧ s.heap.arena.grower.calls = #[96] ∧
    t.heap.arena.grower.calls = #[96, 240] := by
  have hplay : ((start smallBins gappedScript).play [.allocate 20]).map (fun s =>
      (s.heap.arena.grower.calls, match perform (.allocate 200) ⟨s, #[]⟩ with
        | .ok answer t => some (answer, t.state.heap.arena.grower.calls)
        | .error _ _ => none)) =
      some (#[96], some (some (.error (.outOfMemory (.discontiguous 8288 8304))), #[96, 240])) := by
    decide +kernel
  obtain ⟨s, hs, hseen⟩ := Option.map_eq_some_iff.mp hplay
  obtain ⟨hcalls, hfailed⟩ := Prod.mk.inj hseen
  have hreach : Reachable smallBins gappedScript s := ⟨_, run_of_play hs⟩
  obtain ⟨-, -, answer, t, -, hrun, hkept, -⟩ := exists_allocate_kept hreach 200
  obtain ⟨log, hperform⟩ := hrun #[]
  rw [hperform] at hfailed
  obtain ⟨hanswer, hcalls'⟩ := Prod.mk.inj (Option.some.inj hfailed)
  rw [hanswer] at hrun
  exact ⟨s, t, hreach, hrun, hkept _ (Option.some.inj hanswer), hcalls, hcalls'⟩

end Session

end BoundaryTag
