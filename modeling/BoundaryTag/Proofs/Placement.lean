import BoundaryTag.Proofs.LegalUse

/-!
# Where blocks are placed

An allocation takes the first free chunk that is large enough, in the lists from
the lowest bin that admits the size upwards. The lists below hold no such chunk,
because a chunk there is too small for its bin to admit the size, so a free chunk
that is large enough is never overlooked and the arena grows only where there is
none.

Whether growth is tried is seen from the grower, from the length of the arena and
from the answer. Where it is tried, that is done once and the allocation ends as it
does; where it is not, the grower is the same, whatever grower it is, so nothing was
asked of it.

Results:

* `firstFit_of_choice`: which chunk is taken; `FirstFit.choice_eq`: there is no other.
* `Outcome.triesGrowth_iff`: when the arena is to grow.
* `Outcome.endsInGrowth`, `Outcome.exists_focus`: what is done where it is, and
  where it is not.
* `Outcome.justified`: which errors have which reasons.
* `exists_allocate_placed`: the same after every run of legal requests.
-/

namespace BoundaryTag

variable {G : Type} {config : Config} {chunks : List Chunk} {lists : FreeLists} {c : Chunk}
  {n size : Nat}

/-! ## The chunk that is taken -/

/-- The chunk `c` comes first for `n` units. -/
structure FirstFit (config : Config) (lists : FreeLists) (n : Nat) (c : Chunk) : Prop where
  /-- It is the first that is large enough in the lists from `i` upwards, where bin `i` is the
  lowest whose ceiling admits `n` units; without such a bin in the overflow list. -/
  first : ∃ i ≤ binCount, (∀ j : Fin binCount, j.val < i ↔ config.ceiling j < n) ∧
    (((List.finRange classCount).drop i).flatMap lists).find? (fun d => n ≤ d.units) = some c
  /-- No list of a lower class has one that is large enough. -/
  lowest : ∀ k < config.classOf c.units, ∀ d ∈ lists k, d.units < n
  /-- In the overflow list none that is large enough lies lower. -/
  undermost : config.classOf c.units = SizeClass.overflow →
    ∀ d ∈ lists SizeClass.overflow, n ≤ d.units → c.index ≤ d.index

theorem firstFit_of_choice (F : Filed config chunks lists) (hasc : Ascending chunks)
    (h : config.choice lists n = some c) : FirstFit config lists n c where
  first := ⟨(config.classOf n).val, Nat.le_of_lt_succ (config.classOf n).isLt,
    fun j => config.lt_classOf_iff j n, h⟩
  lowest := ((choice_eq_some_iff F).mp h).2
  undermost hover d hd hle := by
    obtain ⟨hmem, hfree, -⟩ := F.mem_iff.mp hd
    exact index_le_of_choice F h hasc hover hmem hfree hle

/-- No other chunk comes first. -/
theorem FirstFit.choice_eq (H : FirstFit config lists n c) : config.choice lists n = some c := by
  obtain ⟨i, hle, hbins, hfind⟩ := H.first
  have hclass : i = (config.classOf n).val := by
    have hle' : (config.classOf n).val ≤ binCount := Nat.le_of_lt_succ (config.classOf n).isLt
    have hsame : ∀ j : Fin binCount, j.val < i ↔ j.val < (config.classOf n).val := fun j =>
      (hbins j).trans (config.lt_classOf_iff j n).symm
    -- each of the two would be a bin below the other
    rcases Nat.lt_trichotomy i (config.classOf n).val with hlt | heq | hlt
    · exact absurd ((hsame ⟨i, by omega⟩).mpr hlt) (Nat.lt_irrefl i)
    · exact heq
    · exact absurd ((hsame ⟨(config.classOf n).val, by omega⟩).mp hlt) (Nat.lt_irrefl _)
  rw [hclass] at hfind
  exact hfind

namespace Heap

variable {h h' : Heap G} {answer : Except AllocError Nat}

theorem holdable_iff : Holdable size ↔ unitsFor size ≤ maxUnits - 2 := by
  unfold Holdable unitsFor Word.limit maxUnits
  omega

variable [Grower G]

/-! ## Growth -/

/-- Growth is seen to be tried: the grower or the length of the arena is another, or the allocation
ends for lack of memory. -/
def TriesGrowth (h : Heap G) (answer : Except AllocError Nat) (h' : Heap G) : Prop :=
  h'.arena.grower ≠ h.arena.grower ∨ h'.arena.slots.size ≠ h.arena.slots.size ∨
    ∃ e, answer = .error (.outOfMemory e)

/-- The arena is to grow once, by what is needed or by the least that it grows, and the allocation
ends as growth does. -/
def EndsInGrowth (h : Heap G) (size : Nat) (answer : Except AllocError Nat) (h' : Heap G) : Prop :=
  (∃ e b, (Arena.extend (max (unitsFor size) h.config.minGrowth)).Runs h.arena (.error e) b ∧
    answer = .error (.outOfMemory e) ∧ h' = h.withArena b) ∨
  ∃ c b p, (Arena.extend (max (unitsFor size) h.config.minGrowth)).Runs h.arena (.ok c) b ∧
    answer = .ok p ∧ h.arena.slots.size < h'.arena.slots.size ∧
    h'.arena.slots.size = b.slots.size ∧ h'.arena.grower = b.grower

theorem EndsInGrowth.triesGrowth (H : h.EndsInGrowth size answer h') : h.TriesGrowth answer h' := by
  rcases H with ⟨e, b, -, hanswer, -⟩ | ⟨c, b, p, -, -, hlonger, -, -⟩
  · exact .inr (.inr ⟨e, hanswer⟩)
  · exact .inr (.inl (Nat.ne_of_gt hlonger))

/-- Where no free chunk is large enough, the arena is to grow. -/
theorem Outcome.endsInGrowth (W : h.WellFormed chunks lists)
    (O : h.Outcome chunks lists size answer h') (hpos : size ≠ 0) (hsize : Holdable size)
    (hsmall : ∀ c ∈ chunks, c.isFree → c.units < unitsFor size) :
    h.EndsInGrowth size answer h' := by
  cases O with
  | zero hzero => exact absurd hzero hpos
  | tooLarge _ hbig => exact absurd hsize hbig
  | outOfMemory _ _ _ hgrowth =>
    exact .inl ⟨_, _, Arena.runs_extend_error W.placed hgrowth, rfl, rfl⟩
  | found _ _ hchunks hlists hfound =>
    subst hlists
    obtain ⟨hmem, hfree, hle⟩ := mem_of_choice W.filed hfound
    exact absurd (hsmall _ hmem hfree) (Nat.not_lt.mpr hle)
  | grown _ _ _ hgrowth hf W₁ K hfound hlength hstart hgrower W' hwithin =>
    obtain ⟨b, hextend, hb, -, hgrower'⟩ := Arena.exists_extend W.placed hgrowth
    refine .inr ⟨_, b, _, hextend, rfl, ?_, ?_, ?_⟩
    · rw [hwithin.size, hlength]
      omega
    · rw [hwithin.size, hlength, hb.size]
    · rw [hwithin.arena.grower, hgrower, hgrower']

/-- Where one is, it is taken, and the arena has its length and its grower. -/
theorem Outcome.exists_focus (W : h.WellFormed chunks lists)
    (O : h.Outcome chunks lists size answer h') (hpos : size ≠ 0) (hsize : Holdable size)
    (hfits : ∃ c ∈ chunks, c.isFree ∧ unitsFor size ≤ c.units) :
    h'.arena.grower = h.arena.grower ∧ h'.arena.slots.size = h.arena.slots.size ∧
      ∃ f : Focus, f.chunks = chunks ∧ f.lists = lists ∧
        FirstFit h.config lists (unitsFor size) f.chunk ∧
        answer = .ok (h.arena.blockAddress (f.taken h.config (unitsFor size)).chunk) ∧
        h'.WellFormed (f.taken h.config (unitsFor size)).chunks
          (f.taken h.config (unitsFor size)).lists := by
  have hsome : h.config.choice lists (unitsFor size) ≠ none := by
    intro hnone
    obtain ⟨c, hc, hfree, hle⟩ := hfits
    exact Nat.not_lt.mpr hle ((choice_eq_none_iff W.filed).mp hnone c hc hfree)
  cases O with
  | zero hzero => exact absurd hzero hpos
  | tooLarge _ hbig => exact absurd hsize hbig
  | outOfMemory _ _ hnone => exact absurd hnone hsome
  | found _ _ hchunks hlists hfound W' hwithin =>
    exact ⟨hwithin.arena.grower, hwithin.size, _, hchunks, hlists,
      firstFit_of_choice W.filed W.tiles.ascending hfound, rfl, W'⟩
  | grown _ _ hnone => exact absurd hnone hsome

/-- Growth is tried exactly where no free chunk is large enough. -/
theorem Outcome.triesGrowth_iff (W : h.WellFormed chunks lists)
    (O : h.Outcome chunks lists size answer h') (hpos : size ≠ 0) (hsize : Holdable size) :
    h.TriesGrowth answer h' ↔ ∀ c ∈ chunks, c.isFree → c.units < unitsFor size := by
  refine ⟨fun htries c hc hfree => ?_, fun hsmall => (O.endsInGrowth W hpos hsize hsmall).triesGrowth⟩
  by_contra hlarge
  obtain ⟨hgrower, hlength, f, -, -, -, hanswer, -⟩ :=
    O.exists_focus W hpos hsize ⟨c, hc, hfree, Nat.not_lt.mp hlarge⟩
  rcases htries with hgrower' | hlength' | ⟨e, he⟩
  · exact hgrower' hgrower
  · exact hlength' hlength
  · rw [hanswer] at he
    cases he

/-! ## Errors -/

/-- The allocation fails for the reason that its answer names. -/
structure Justified (h : Heap G) (chunks : List Chunk) (size : Nat)
    (answer : Except AllocError Nat) : Prop where
  zeroSize : answer = .error .zeroSize ↔ size = 0
  tooLarge : ∀ m, answer = .error (.tooLarge m) ↔ m = size ∧ 0 < size ∧ ¬Holdable size
  /-- No free chunk is large enough, and the arena does not grow. -/
  outOfMemory : ∀ e, answer = .error (.outOfMemory e) →
    (∀ c ∈ chunks, c.isFree → c.units < unitsFor size) ∧
      ∃ b, (Arena.extend (max (unitsFor size) h.config.minGrowth)).Runs h.arena (.error e) b

theorem Outcome.justified (W : h.WellFormed chunks lists)
    (O : h.Outcome chunks lists size answer h') : h.Justified chunks size answer := by
  cases O with
  | zero hzero => exact ⟨iff_of_true rfl hzero, by simp [hzero], by simp⟩
  | tooLarge hpos hbig =>
    exact ⟨by simp [hpos], by simp [hbig, Nat.pos_of_ne_zero hpos, eq_comm], by simp⟩
  | outOfMemory hpos hsize hnone hgrowth =>
    refine ⟨by simp [hpos], by simp [hsize], ?_⟩
    intro e he
    cases he
    exact ⟨(choice_eq_none_iff W.filed).mp hnone, _, Arena.runs_extend_error W.placed hgrowth⟩
  | found hpos hsize => exact ⟨by simp [hpos], by simp [hsize], by simp⟩
  | grown hpos hsize => exact ⟨by simp [hpos], by simp [hsize], by simp⟩

end Heap

/-! ## Sessions -/

namespace Session

variable [Grower G] {grower : G} {s : Session G}

/-- After every run of legal requests: for an allocation that needs no more units than a chunk can
have, growth is tried exactly where no free chunk has as many, and then done once; otherwise the
first such chunk is taken, the arena keeps its length, and nothing is asked of the grower. An
allocation fails for the reason that its answer names. -/
theorem exists_allocate_placed (h : Reachable config grower s) (size : Nat) :
    ∃ chunks lists answer h', s.heap.WellFormed chunks lists ∧
      (Heap.allocate size).Runs s.heap answer h' ∧ s.heap.Justified chunks size answer ∧
      (1 ≤ size → Heap.unitsFor size ≤ maxUnits - 2 →
        (s.heap.TriesGrowth answer h' ↔
          ∀ c ∈ chunks, c.isFree → c.units < Heap.unitsFor size) ∧
        (s.heap.TriesGrowth answer h' ↔ s.heap.EndsInGrowth size answer h') ∧
        ((∃ c ∈ chunks, c.isFree ∧ Heap.unitsFor size ≤ c.units) →
          h'.arena.grower = s.heap.arena.grower ∧
          h'.arena.slots.size = s.heap.arena.slots.size ∧
          ∃ f : Focus, f.chunks = chunks ∧ f.lists = lists ∧
            FirstFit config lists (Heap.unitsFor size) f.chunk ∧
            answer =
              .ok (s.heap.arena.blockAddress (f.taken config (Heap.unitsFor size)).chunk) ∧
            h'.WellFormed (f.taken config (Heap.unitsFor size)).chunks
              (f.taken config (Heap.unitsFor size)).lists)) := by
  obtain ⟨chunks, lists, S, rfl⟩ := sound_of_reachable h
  have W := S.wellFormed
  obtain ⟨answer, h', hrun, O⟩ := W.exists_outcome size
  refine ⟨chunks, lists, answer, h', W, hrun, O.justified W, ?_⟩
  intro hpos hunits
  have hpos' : size ≠ 0 := Nat.pos_iff_ne_zero.mp hpos
  have hsize := Heap.holdable_iff.mpr hunits
  have htries := O.triesGrowth_iff W hpos' hsize
  have hends := O.endsInGrowth W hpos' hsize
  exact ⟨htries, ⟨fun H => hends (htries.mp H), Heap.EndsInGrowth.triesGrowth⟩,
    O.exists_focus W hpos' hsize⟩

set_option maxRecDepth 100000 in
/-- Two free chunks are large enough. The one that was released last is taken, which is the upper
one, and the buffer keeps what is left of it. -/
theorem exists_allocate_placed_latest : ∃ s, Reachable smallBins smallBuffer s ∧
    s.live = [⟨4208, 70⟩] ∧
    ∃ chunks lists h', s.heap.WellFormed chunks lists ∧
      (Heap.allocate 30).Runs s.heap (.ok 4320) h' ∧
      s.heap.Justified chunks 30 (.ok 4320) ∧ ¬s.heap.TriesGrowth (.ok 4320) h' ∧
      h'.arena.grower = s.heap.arena.grower ∧
      h'.arena.slots.size = s.heap.arena.slots.size ∧
      ∃ f : Focus, f.chunks = chunks ∧ f.lists = lists ∧ chunks.map Chunk.index = [0, 6, 13] ∧
        f.chunk.index = 13 ∧ FirstFit smallBins lists 2 f.chunk ∧
        h'.WellFormed (f.taken smallBins 2).chunks (f.taken smallBins 2).lists := by
  have hplay : ((start smallBins smallBuffer).play [.allocate 20, .allocate 70, .allocate 20,
      .release 4112, .release 4320]).map (fun s => (s.live, (s.heap.firstFit 2).toOption,
        s.heap.arena.survey.map SurveyRow.index, match Heap.allocate 30 ⟨s.heap, #[]⟩ with
        | .ok answer _ => answer.toOption
        | .error _ _ => none)) = some ([⟨4208, 70⟩], some (some 13), [0, 6, 13], some 4320) := by
    decide +kernel
  obtain ⟨s, hreach, hseen⟩ := exists_reachable_of_play hplay
  rw [Prod.mk.injEq, Prod.mk.injEq, Prod.mk.injEq] at hseen
  obtain ⟨hlive, hfit, hsurvey, hanswer⟩ := hseen
  obtain ⟨chunks, lists, answer, h', W, hrun, hjust, hplaced⟩ := exists_allocate_placed hreach 30
  obtain ⟨htries, -, hfitting⟩ := hplaced (by decide) (by decide)
  -- the search meets a chunk
  rw [W.firstFit_eq] at hfit
  obtain ⟨c, hchoice, hindex⟩ := Option.map_eq_some_iff.mp (Option.some.inj hfit)
  obtain ⟨hmem, hfree, hle⟩ := mem_of_choice W.filed hchoice
  obtain ⟨hgrower, hlength, f, hchunks, hlists, H, -, W'⟩ := hfitting ⟨c, hmem, hfree, hle⟩
  obtain ⟨-, -, -, hconfig⟩ := sound_of_reachable hreach
  have hchunk : f.chunk = c := by
    have hsame := H.choice_eq
    rw [hconfig] at hchoice
    exact Option.some.inj (hsame.symm.trans hchoice)
  -- the answer is the one that was seen
  obtain ⟨log, hlog⟩ := hrun #[]
  rw [hlog] at hanswer
  obtain rfl : answer = .ok 4320 := by
    cases answer with
    | ok address => exact congrArg _ (Option.some.inj hanswer)
    | error e => cases hanswer
  refine ⟨s, hreach, hlive, chunks, lists, h', W, hrun, hjust, ?_, hgrower, hlength, f, hchunks,
    hlists, ?_, hchunk ▸ hindex, H, W'⟩
  · exact fun H => absurd (htries.mp H c hmem hfree) (Nat.not_lt.mpr hle)
  · rw [← W.survey_eq]
    exact hsurvey

end Session

end BoundaryTag
