import BoundaryTag.Growth.ProgramBreak
import BoundaryTag.Heap.Lending
import BoundaryTag.Proofs.Grants
import BoundaryTag.Proofs.Requests

/-!
# Lending the program break

What is known of a heap does not depend on its grower, so it stays known when the
data segment is lent to the heap and taken back. The segment only grows: a request
moves the program break up or leaves it, and memory that is granted lies between
the old break and the new one.

Results:

* `Sound.agrees`: sessions that differ in their growers are sound together.
* `ProgramBreak.current_le_after`, `ProgramBreak.current_of_answer`: what requests
  do to the program break.
* `Sound.arena_of_step`: what a step does to the place of the arena.
-/

namespace BoundaryTag

variable {G G' S : Type} {chunks : List Chunk} {lists : FreeLists}

/-! ## Heaps with other growers -/

/-- The heaps have the same memory, configuration and heads. -/
structure Heap.Agrees (h : Heap G) (h' : Heap G') : Prop where
  start : h'.arena.start = h.arena.start
  slots : h'.arena.slots = h.arena.slots
  config : h'.config = h.config
  heads : h'.heads = h.heads

namespace Heap

theorem agrees_attach (h : Heap G) (shared : S) : h.Agrees (h.attach shared) :=
  ⟨rfl, rfl, rfl, rfl⟩

theorem agrees_detach (h : Heap (G × S)) : h.Agrees h.detach.1 := ⟨rfl, rfl, rfl, rfl⟩

theorem WellFormed.agrees {h : Heap G} {h' : Heap G'} (W : h.WellFormed chunks lists)
    (A : h.Agrees h') : h'.WellFormed chunks lists := by
  obtain ⟨⟨start, slots, g, _⟩, config, heads⟩ := h
  obtain ⟨⟨start', slots', g', _⟩, config', heads'⟩ := h'
  obtain ⟨rfl, rfl, rfl, rfl⟩ := A
  exact ⟨W.tiles, fun c hc => ⟨(W.tagged c hc).units, (W.tagged c hc).word, (W.tagged c hc).footer⟩,
    W.settled, W.heads, W.threaded, W.filed, W.short,
    ⟨W.placed.aligned, W.placed.pos, W.placed.stop_lt⟩⟩

end Heap

namespace Session

/-- The session with its grower joined to the shared part. -/
def attach (s : Session G) (shared : S) : Session (G × S) := ⟨s.heap.attach shared, s.live⟩

/-- The session and the shared part. -/
def detach (s : Session (G × S)) : Session G × S := (⟨s.heap.detach.1, s.live⟩, s.heap.detach.2)

theorem Sound.agrees {s : Session G} {s' : Session G'} (S : s.Sound chunks lists)
    (A : s.heap.Agrees s'.heap) (hlive : s'.live = s.live) : s'.Sound chunks lists := by
  have haddress : s'.heap.arena.blockAddress = s.heap.arena.blockAddress := by
    unfold Arena.blockAddress
    rw [A.start]
  refine ⟨S.wellFormed.agrees A, ?_, ?_⟩
  · rw [haddress, hlive]
    exact S.addresses
  · rw [haddress, hlive]
    exact S.sizes

end Session

/-! ## The program break -/

theorem DataSegment.current_le_bump (s : DataSegment) (d : Nat) :
    s.current ≤ (s.bump d).2.current := by
  rcases h : s.bump d with ⟨_ | p, t⟩
  · exact Nat.le_of_eq (bump_eq_none h).1.symm
  · rw [(bump_eq_some h).2.1]
    exact Nat.le_add_right _ _

namespace ProgramBreak

variable {g : ProgramBreak × DataSegment} {b : ProgramBreak} {s : DataSegment} {bytes start : Nat}

theorem current_le_align (b : ProgramBreak) (s : DataSegment) :
    s.current ≤ (b.align s).2.1.current := by
  have hfirst := s.current_le_bump 0
  unfold align
  split_ifs with haligned
  · exact Nat.le_refl _
  · rcases h : s.bump 0 with ⟨_ | current, t⟩ <;> rw [h] at hfirst
    · exact hfirst
    · have hsecond := t.current_le_bump (padding current)
      simp only
      split_ifs
      · exact hfirst
      · rcases h' : t.bump (padding current) with ⟨_ | _, u⟩ <;> rw [h'] at hsecond <;>
          exact Nat.le_trans hfirst hsecond

/-- A request moves the break up or leaves it, and memory that is granted lies between the old break
and the new one. -/
theorem current_grow (b : ProgramBreak) (s : DataSegment) (bytes : Nat) :
    s.current ≤ (b.grow s bytes).grower.2.current ∧
      ∀ grant, (b.grow s bytes).answer = .ok grant →
        s.current ≤ grant.start ∧ (b.grow s bytes).grower.2.current = grant.start + bytes := by
  have halign := current_le_align b s
  unfold grow
  split <;> rename_i h <;> rw [h] at halign
  · exact ⟨halign, fun grant hgrant => by cases hgrant⟩
  · rename_i t notes
    have hbump := t.current_le_bump bytes
    split <;> rename_i h' <;> rw [h'] at hbump
    · exact ⟨Nat.le_trans halign hbump, fun grant hgrant => by cases hgrant⟩
    · refine ⟨Nat.le_trans halign hbump, fun grant hgrant => ?_⟩
      obtain ⟨rfl, hcurrent, -⟩ := DataSegment.bump_eq_some h'
      cases hgrant
      exact ⟨halign, hcurrent⟩

theorem current_of_answer (h : Grower.answerTo g bytes = .ok start) :
    g.2.current ≤ start ∧ (Grower.after g [bytes]).2.current = start + bytes := by
  change (grow g.1 g.2 bytes).answer.map Grant.start = .ok start at h
  cases hanswer : (grow g.1 g.2 bytes).answer with
  | error e =>
    rw [hanswer] at h
    cases h
  | ok grant =>
    rw [hanswer] at h
    cases h
    exact (current_grow g.1 g.2 bytes).2 grant hanswer

theorem current_le_after (g : ProgramBreak × DataSegment) (requests : List Nat) :
    g.2.current ≤ (Grower.after g requests).2.current := by
  induction requests generalizing g with
  | nil => exact Nat.le_refl _
  | cons bytes requests ih => exact Nat.le_trans (current_grow g.1 g.2 bytes).1 (ih _)

end ProgramBreak

/-! ## The place of the arena -/

section Place

variable [Grower G] {size : Nat}

/-- The arena stays as long as it is, or growth that is asked for makes it longer. -/
theorem Heap.Outcome.arena_eq {h h' : Heap G} {answer : Except AllocError Nat}
    (W : h.WellFormed chunks lists) (O : h.Outcome chunks lists size answer h') :
    (h'.arena.start = h.arena.start ∧ h'.arena.slots.size = h.arena.slots.size) ∨
      ∃ n base, h.requests size = [(n + 2) * unitBytes] ∧ h.arena.growth n = .ok base ∧
        h'.arena.start = some base ∧ h'.arena.slots.size = h.arena.slots.size + (n + 2) := by
  cases O with
  | zero | tooLarge | outOfMemory => exact .inl ⟨rfl, rfl⟩
  | found hpos hsize hchunks hlists hfound W' hwithin =>
    exact .inl ⟨hwithin.arena.start, hwithin.size⟩
  | grown hpos hsize hnone hgrowth hf W₁ K hfound hlength hstart hgrower W' hwithin =>
    refine .inr ⟨_, _, ?_, hgrowth, hwithin.arena.start.trans hstart, hwithin.size.trans hlength⟩
    rw [W.requests_of_missing hpos hsize hnone, Arena.asked,
      if_pos (Arena.growth_eq_ok_iff.mp hgrowth).1]

namespace Session

variable {s t : Session G} {r : Request}

theorem Sound.arena_of_step (S : s.Sound chunks lists) (hstep : s.Step r t) :
    (t.heap.arena.start = s.heap.arena.start ∧
      t.heap.arena.slots.size = s.heap.arena.slots.size) ∨
      ∃ n base, s.asked r = [(n + 2) * unitBytes] ∧ s.heap.arena.growth n = .ok base ∧
        t.heap.arena.start = some base ∧
        t.heap.arena.slots.size = s.heap.arena.slots.size + (n + 2) := by
  cases r with
  | allocate size =>
    obtain ⟨-, answer, log, log', hperform⟩ := hstep
    obtain ⟨answer', h', hrun, O⟩ := S.wellFormed.exists_outcome size
    obtain ⟨-, rfl⟩ := (runs_allocate hrun).unique hperform
    have harena := O.arena_eq S.wellFormed
    cases answer' <;> exact harena
  | release | store => exact .inl (S.arena_of_quiet hstep (by simp)).2

end Session

end Place

end BoundaryTag
