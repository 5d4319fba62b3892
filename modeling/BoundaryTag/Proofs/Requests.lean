import BoundaryTag.Proofs.Soundness

/-!
# Requests to the grower

Only an allocation needs memory of the grower, and it asks once at most: not at
all where its size is rejected, where a free chunk is large enough, or where the
arena would become too long.

Results:

* `Heap.length_requests_le`, `Outcome.grower_eq`: what an allocation asks for.
* `Session.Sound.grower_of_step`: what a step asks for.
* `Session.arena_of_reachable`: what every run keeps of the arena and its grower.
-/

namespace BoundaryTag

variable {G : Type} {chunks : List Chunk} {lists : FreeLists} {size : Nat}

/-! ## Answers -/

namespace Grower

variable [Grower G]

/-- The answers of a grower to a sequence of requests. -/
def answers (g : G) : List Nat → List (Except GrowError Nat)
  | [] => []
  | bytes :: requests => answerTo g bytes :: answers (grow g bytes).grower requests

@[simp] theorem length_answers (g : G) (requests : List Nat) :
    (answers g requests).length = requests.length := by
  induction requests generalizing g with
  | nil => rfl
  | cons bytes requests ih => simp [answers, ih]

/-- Later requests are answered by what the grower is by then. -/
theorem answers_append (g : G) (requests later : List Nat) :
    answers g (requests ++ later) = answers g requests ++ answers (after g requests) later := by
  induction requests generalizing g with
  | nil => rfl
  | cons bytes requests ih => exact congrArg (_ :: ·) (ih (grow g bytes).grower)

end Grower

namespace Heap

variable {h h' : Heap G} {answer : Except AllocError Nat}

/-! ## Requests of an allocation -/

instance (size : Nat) : Decidable (Holdable size) := instDecidableAnd

/-- The requests that an allocation makes to the grower. -/
def requests (h : Heap G) (size : Nat) : List Nat :=
  if size ≠ 0 ∧ Holdable size then
    match h.firstFit (unitsFor size) with
    | .ok none => h.arena.asked (h.growthUnits (unitsFor size))
    | _ => []
  else []

theorem length_requests_le (h : Heap G) (size : Nat) : (h.requests size).length ≤ 1 := by
  unfold requests Arena.asked
  split_ifs
  · split
    · exact Nat.le_refl 1
    · exact Nat.zero_le _
  · split <;> exact Nat.zero_le _
  · exact Nat.zero_le _

theorem requests_of_rejected (hsize : ¬(size ≠ 0 ∧ Holdable size)) : h.requests size = [] :=
  if_neg hsize

/-- Beyond the greatest length of an arena the grower is not asked. -/
theorem requests_of_limit
    (hlimit : maxUnits < h.arena.slots.size + (h.growthUnits (unitsFor size) + 2)) :
    h.requests size = [] := by
  have hasked : h.arena.asked (h.growthUnits (unitsFor size)) = [] :=
    if_neg (Nat.not_le.mpr hlimit)
  unfold requests
  rw [hasked]
  split_ifs
  · split <;> rfl
  · rfl

namespace WellFormed

theorem requests_of_found (W : h.WellFormed chunks lists) {c : Chunk}
    (hfound : h.config.choice lists (unitsFor size) = some c) : h.requests size = [] := by
  unfold requests
  rw [W.firstFit_eq, hfound]
  split_ifs <;> rfl

theorem requests_of_missing (W : h.WellFormed chunks lists) (hpos : size ≠ 0)
    (hsize : Holdable size) (hmissing : h.config.choice lists (unitsFor size) = none) :
    h.requests size = h.arena.asked (h.growthUnits (unitsFor size)) := by
  unfold requests
  rw [if_pos ⟨hpos, hsize⟩, W.firstFit_eq, hmissing]
  rfl

/-- Where a free chunk is large enough, one is found. -/
theorem requests_of_fitting (W : h.WellFormed chunks lists)
    (hfits : ∃ c ∈ chunks, c.isFree ∧ unitsFor size ≤ c.units) : h.requests size = [] := by
  obtain ⟨c, hc, hfree, hle⟩ := hfits
  cases hchoice : h.config.choice lists (unitsFor size) with
  | some d => exact W.requests_of_found hchoice
  | none =>
    have hsmall := (choice_eq_none_iff W.filed).mp hchoice c hc hfree
    omega

end WellFormed

variable [Grower G]

/-- The grower is asked for what growth needs, and for nothing else. -/
theorem Outcome.grower_eq (W : h.WellFormed chunks lists)
    (O : h.Outcome chunks lists size answer h') :
    h'.arena.grower = Grower.after h.arena.grower (h.requests size) := by
  cases O with
  | zero hzero =>
    rw [requests_of_rejected (by simp [hzero])]
    rfl
  | tooLarge hpos hbig =>
    rw [requests_of_rejected (by simp [hbig])]
    rfl
  | outOfMemory hpos hsize hnone =>
    rw [W.requests_of_missing hpos hsize hnone]
    rfl
  | found hpos hsize hchunks hlists hfound W' hwithin =>
    rw [W.requests_of_found hfound]
    exact hwithin.arena.grower
  | grown hpos hsize hnone hgrowth hf W₁ K hfound hlength hstart hgrower W' hwithin =>
    rw [W.requests_of_missing hpos hsize hnone]
    exact hwithin.arena.grower.trans hgrower

/-- A size that is rejected is no reason to ask. -/
theorem Outcome.requests_of_rejected (O : h.Outcome chunks lists size answer h')
    (hanswer : answer = .error .zeroSize ∨ answer = .error (.tooLarge size)) :
    h.requests size = [] := by
  apply Heap.requests_of_rejected
  rintro ⟨hpos, hsize⟩
  cases O with
  | zero hzero => exact hpos hzero
  | tooLarge _ hbig => exact hbig hsize
  | outOfMemory | found | grown => simp at hanswer

end Heap

/-! ## Requests of a program -/

namespace Session

variable {s t : Session G} {r : Request}

/-- The requests that a step of the program makes to the grower. -/
def asked (s : Session G) : Request → List Nat
  | .allocate size => s.heap.requests size
  | _ => []

/-- A release and a store leave the grower and the place of the arena. -/
theorem Sound.arena_of_quiet [Grower G] (S : s.Sound chunks lists) (hstep : s.Step r t)
    (hquiet : ∀ size, r ≠ .allocate size) :
    t.heap.arena.grower = s.heap.arena.grower ∧ t.heap.arena.start = s.heap.arena.start ∧
      t.heap.arena.slots.size = s.heap.arena.slots.size := by
  obtain ⟨hallows, answer, log, log', hperform⟩ := hstep
  cases r with
  | allocate size => exact absurd rfl (hquiet size)
  | release address =>
    rcases hallows with rfl | ⟨b, hb, rfl⟩
    · obtain ⟨-, rfl⟩ := (runs_release (Heap.WellFormed.release_null s.heap)).unique hperform
      exact ⟨rfl, rfl, rfl⟩
    · obtain ⟨c, hc, haddr⟩ := S.exists_chunk hb
      obtain ⟨hmem, hused⟩ := mem_used.mp hc
      obtain ⟨pre, post, rfl⟩ := List.append_of_mem hmem
      obtain ⟨h', hrun, -, hwithin⟩ :=
        Heap.WellFormed.release_chunk (f := ⟨pre, c, post, lists⟩) S.wellFormed hused
      rw [← haddr] at hrun
      obtain ⟨-, rfl⟩ := (runs_release hrun).unique hperform
      exact ⟨hwithin.arena.grower, hwithin.arena.start, hwithin.size⟩
  | store address bytes =>
    obtain ⟨a, hrun, S', -, hstart, hgrower⟩ := S.exists_store hallows
    obtain ⟨-, rfl⟩ := hrun.unique hperform
    exact ⟨hgrower, hstart, S'.wellFormed.tiles.stop_unique S.wellFormed.tiles⟩

/-- A step asks the grower for what its allocation needs, and for nothing else. -/
theorem Sound.grower_of_step [Grower G] (S : s.Sound chunks lists) (hstep : s.Step r t) :
    t.heap.arena.grower = Grower.after s.heap.arena.grower (s.asked r) := by
  cases r with
  | allocate size =>
    obtain ⟨-, answer, log, log', hperform⟩ := hstep
    obtain ⟨answer', h', hrun, O⟩ := S.wellFormed.exists_outcome size
    obtain ⟨-, rfl⟩ := (runs_allocate hrun).unique hperform
    have hgrower := O.grower_eq S.wellFormed
    cases answer' <;> exact hgrower
  | release | store => exact (S.arena_of_quiet hstep (by simp)).1

/-! ## Invariants of the arena -/

section Invariant

variable [Grower G] {P : Arena G → Prop}
  (hcongr : ∀ {a b : Arena G}, b.grower = a.grower → b.start = a.start →
    b.slots.size = a.slots.size → P a → P b)
  (hallocate : ∀ {h h' : Heap G} {chunks : List Chunk} {lists : FreeLists} {size : Nat}
    {answer : Except AllocError Nat}, h.WellFormed chunks lists →
      h.Outcome chunks lists size answer h' → P h.arena → P h'.arena)

include hcongr hallocate

/-- A property of the grower and of the place and length of the arena that allocations keep is kept
by every step. -/
theorem Sound.arena_step (S : s.Sound chunks lists) (hP : P s.heap.arena) (hstep : s.Step r t) :
    P t.heap.arena := by
  cases r with
  | allocate size =>
    obtain ⟨-, answer, log, log', hperform⟩ := hstep
    obtain ⟨answer', h', hrun, O⟩ := S.wellFormed.exists_outcome size
    obtain ⟨-, rfl⟩ := (runs_allocate hrun).unique hperform
    have hP' := hallocate S.wellFormed O hP
    cases answer' <;> exact hP'
  | release | store =>
    obtain ⟨hgrower, hstart, hsize⟩ := S.arena_of_quiet hstep (by simp)
    exact hcongr hgrower hstart hsize hP

theorem Sound.arena_run {rs : List Request} (S : s.Sound chunks lists) (hP : P s.heap.arena)
    (hrun : s.Run rs t) : P t.heap.arena := by
  induction hrun generalizing chunks lists with
  | nil => exact hP
  | cons hstep _ ih =>
    obtain ⟨_, _, S', -⟩ := S.of_step hstep
    exact ih S' (S.arena_step hcongr hallocate hP hstep)

theorem arena_of_reachable {config : Config} {grower : G} (hempty : P (Arena.empty grower))
    (h : Reachable config grower s) : P s.heap.arena := by
  obtain ⟨rs, hrun⟩ := h
  exact (Sound.start config grower).arena_run hcongr hallocate hempty hrun

end Invariant

end Session

end BoundaryTag
