import BoundaryTag.Proofs.Coalescing
import BoundaryTag.Proofs.HandingOut
import BoundaryTag.Proofs.Placement

/-!
# Allocations for which the arena grows

Where no free chunk is large enough, the arena is extended by a chunk at its end, which
is released at once. So it is merged with the last chunk, if that is free, and the
block is taken from the upper end of the outcome: it ends where the arena ends. What is
left over, if anything, is one free chunk right below the block.

Results:

* `Focus.extending_of_coalesced`, `Heap.WellFormed.exists_obtain_extended`: the free chunk
  that growth leaves.
* `Session.exists_allocate_extended`: a growing allocation, after every run of legal
  requests.
-/

namespace BoundaryTag

variable {G : Type} {config : Config} {chunks : List Chunk} {lists : FreeLists} {f : Focus}
  {n size : Nat}

namespace Focus

/-- The chunk `f.chunk` is free and ends the arena, which was as long as `length` slots and had the
chunks `chunks` before it grew by a chunk of `n` units. -/
structure Extending (chunks : List Chunk) (lists : FreeLists) (length n : Nat) (f : Focus) :
    Prop where
  /-- All chunks are as before but for the last one, if that is free. -/
  below : chunks = f.below ++ trailingFree chunks
  above : f.above = []
  free : f.chunk.isFree
  stop : f.chunk.stop = length + n + 2
  merged : ∀ t ∈ chunks.getLast?, t.isFree →
    f.chunk.index = t.index ∧ f.chunk.units = t.units + n + 2
  apart : (∀ t ∈ chunks.getLast?, t.isFree = false) →
    f.chunk.index = length ∧ f.chunk.units = n
  /-- All other chunks are in the lists as before. -/
  others : f.lists.without [f.chunk] = lists.without (trailingFree chunks)

theorem trailingFree_of_free {t : Chunk} (ht : t ∈ chunks.getLast?) (hfree : t.isFree) :
    trailingFree chunks = [t] := by
  rw [trailingFree, Option.mem_def.mp ht]
  simp [Option.filter, hfree]

theorem trailingFree_of_used (h : ∀ t ∈ chunks.getLast?, t.isFree = false) :
    trailingFree chunks = [] := by
  unfold trailingFree
  cases ht : chunks.getLast? with
  | none => rfl
  | some t => simp [Option.filter, h t ht]

/-- What was added to the arena and released is its last chunk. -/
theorem extending_of_coalesced {length : Nat}
    (C : Coalesced config ⟨chunks, ⟨length, n, .inUse⟩, [], lists⟩ f) :
    f.Extending chunks lists length n := by
  have hupper : (⟨chunks, ⟨length, n, .inUse⟩, [], lists⟩ : Focus).upper = [] := rfl
  have hlower : (⟨chunks, ⟨length, n, .inUse⟩, [], lists⟩ : Focus).lower = trailingFree chunks :=
    rfl
  have habsorbed : (⟨chunks, ⟨length, n, .inUse⟩, [], lists⟩ : Focus).absorbed =
      trailingFree chunks := rfl
  have hindex := C.index
  have hunits := C.units
  rw [hlower] at hindex
  rw [habsorbed] at hunits
  refine ⟨C.below, (List.append_eq_nil_iff.mp C.above.symm).2, C.free, C.stop, ?_, ?_, C.others⟩
  · intro t ht hfree
    rw [trailingFree_of_free ht hfree] at hindex hunits
    refine ⟨hindex, ?_⟩
    rw [unitSum_singleton] at hunits
    have hsum : f.chunk.units = n + t.units + 2 * 1 := hunits
    omega
  · intro hused
    rw [trailingFree_of_used hused] at hindex hunits
    exact ⟨hindex, hunits⟩

/-- What is left over is free, and there is something just when more than two units are. -/
theorem HandedOut.rest_ne_nil_iff {rest : List Chunk} {g : Focus}
    (H : f.HandedOut config n rest g) : rest ≠ [] ↔ n + 2 < f.chunk.units := by
  constructor
  · intro hne
    by_contra hlt
    exact hne (H.whole (Nat.le_of_not_lt hlt)).1
  · intro hlt
    rw [(H.part hlt).1]
    exact List.cons_ne_nil _ _

theorem HandedOut.isFree_of_mem {rest : List Chunk} {g : Focus}
    (H : f.HandedOut config n rest g) (hfree : f.chunk.isFree) {r : Chunk} (hr : r ∈ rest) :
    r.isFree := by
  have hlt := H.rest_ne_nil_iff.mp (List.ne_nil_of_mem hr)
  rw [(H.part hlt).1, List.mem_singleton] at hr
  rw [hr, Chunk.isFree_withUnits]
  exact hfree

end Focus

/-! ## Accepted growth -/

section Growth

variable [Grower G] {a : Arena G}

/-- The arena grows where it is seen to grow. -/
theorem Arena.exists_growth_of_extend (hp : a.Placed) {log : Array Event} {i : Nat}
    {u : Traced (Arena G)} (h : extend n ⟨a, log⟩ = .ok (.ok i) u) :
    ∃ base, a.growth n = .ok base := by
  cases hgrowth : a.growth n with
  | ok base => exact ⟨base, rfl⟩
  | error e =>
    obtain ⟨log', hrun⟩ := runs_extend_error hp hgrowth log
    rw [hrun] at h
    cases h

theorem Arena.add_le_of_growth {base : Nat} (h : a.growth n = .ok base) :
    a.slots.size + (n + 2) ≤ maxUnits := by
  unfold growth at h
  split_ifs at h with hfit
  exact hfit

namespace Heap.WellFormed

variable {h : Heap G} (W : h.WellFormed chunks lists)

include W

omit [Grower G] in
/-- The chunk that growth adds is released at once. -/
theorem coalesced_grown (units : Nat) :
    (h.grownFocus chunks lists (h.growthUnits units)).Coalesced h.config
      ((h.grownFocus chunks lists (h.growthUnits units)).reclaimed h.config) := by
  have hn : 1 ≤ h.growthUnits units :=
    Nat.le_trans h.config.minGrowth_pos (Nat.le_max_right _ _)
  have htiles : Tiles 0 (h.grownFocus chunks lists (h.growthUnits units)).chunks
      (h.arena.slots.size + h.growthUnits units + 2) := Tiles.concat W.tiles hn
  refine Focus.coalesced_reclaimed htiles ((filed_of_inUse rfl).mpr ?_) rfl
  rw [grownFocus, List.append_nil]
  exact W.filed

/-- Where no chunk is large enough and the arena can grow, the chunk for a block is the free chunk
that growth leaves. -/
theorem exists_obtain_extended {units base : Nat} (hchoice : h.config.choice lists units = none)
    (hgrowth : h.arena.growth (h.growthUnits units) = .ok base) :
    ∃ (f : Focus) (h' : Heap G), (Heap.obtain units).Runs h (.ok f.chunk.index) h' ∧
      h'.WellFormed f.chunks f.lists ∧ h'.config.choice f.lists units = some f.chunk ∧
      f.Extending chunks lists h.arena.slots.size (h.growthUnits units) ∧
      h.Keeps (usedSlots chunks) h' ∧ usedSlots f.chunks = usedSlots chunks ∧
      h'.arena.slots.size = h.arena.slots.size + h.growthUnits units + 2 := by
  obtain ⟨h', hrun, W', hfound, K, hlength, -, -⟩ := W.obtain_grown hchoice hgrowth rfl
  refine ⟨_, h', hrun, W', hfound, Focus.extending_of_coalesced (W.coalesced_grown units), K, ?_,
    hlength⟩
  have hused : used ((h.grownFocus chunks lists (h.growthUnits units)).reclaimed h.config).chunks =
      used chunks := Focus.used_reclaimed.trans (List.append_nil _)
  rw [usedSlots, hused, usedSlots]

end Heap.WellFormed

end Growth

/-! ## Sessions -/

namespace Session

variable [Grower G] {grower : G} {s : Session G}

/-- After every run of legal requests: no free chunk is large enough for a block, and the arena can
be extended for it. Then the allocation succeeds. The arena is longer by as much as was asked for;
its last chunk is free then, with the old last chunk if that was free; the block is the upper end of
it, and what is left over is below. All other chunks are as before, and in the lists, too. -/
theorem exists_allocate_extended (h : Reachable config grower s) (hpos : 0 < size)
    (W : s.heap.WellFormed chunks lists)
    (hnone : ∀ c ∈ chunks, c.isFree → c.units < Heap.unitsFor size) {log : Array Event} {i : Nat}
    {u : Traced (Arena G)}
    (hextend : Arena.extend (max (Heap.unitsFor size) config.minGrowth) ⟨s.heap.arena, log⟩ =
      .ok (.ok i) u) :
    ∃ (f g : Focus) (rest : List Chunk) (h₁ h' : Heap G),
      (Heap.obtain (Heap.unitsFor size)).Runs s.heap (.ok f.chunk.index) h₁ ∧
      h₁.WellFormed f.chunks f.lists ∧
      f.Extending chunks lists s.heap.arena.slots.size
        (max (Heap.unitsFor size) config.minGrowth) ∧
      (Heap.allocate size).Runs s.heap (.ok (h'.arena.blockAddress g.chunk)) h' ∧
      h'.WellFormed g.chunks g.lists ∧
      h'.arena.slots.size =
        s.heap.arena.slots.size + max (Heap.unitsFor size) config.minGrowth + 2 ∧
      g.chunk.stop = h'.arena.slots.size ∧
      f.HandedOut config (Heap.unitsFor size) rest g ∧
      (rest ≠ [] ↔ Heap.unitsFor size + 2 < f.chunk.units) ∧
      (∀ r ∈ rest, r.isFree ∧ r ∈ g.lists (config.classOf r.units)) ∧
      g.lists.without rest = lists.without (trailingFree chunks) ∧
      s.heap.Keeps (usedSlots chunks) h' := by
  obtain ⟨-, -, -, rfl⟩ := sound_of_reachable h
  have hpos' : size ≠ 0 := Nat.ne_of_gt hpos
  obtain ⟨base, hgrowth⟩ := Arena.exists_growth_of_extend W.placed hextend
  have hfit := Arena.add_le_of_growth hgrowth
  have hsize : Heap.Holdable size := Heap.holdable_iff.mpr (by omega)
  -- the free chunk that growth leaves
  obtain ⟨f, h₁, hrun₁, W₁, hfound, hext, K₁, hused, hlength⟩ :=
    W.exists_obtain_extended ((choice_eq_none_iff W.filed).mpr hnone) hgrowth
  -- the block that is taken from it
  obtain ⟨h', hrun, W', hwithin⟩ := Heap.WellFormed.allocate_of_obtain hpos' hsize hrun₁ W₁ hfound
  obtain ⟨rest, H⟩ :=
    Focus.handedOut_taken W₁.filed W₁.tiles.ascending hext.free (Heap.unitsFor size)
  have F' := W'.filed
  rw [← Arena.blockAddress_congr hwithin.arena.start, K₁.config] at hrun
  rw [hwithin.config] at F'
  rw [K₁.config] at H W' F'
  have hsize' : h'.arena.slots.size =
      s.heap.arena.slots.size + max (Heap.unitsFor size) s.heap.config.minGrowth + 2 :=
    hwithin.size.trans hlength
  refine ⟨f, _, rest, h₁, h', hrun₁, W₁, hext, hrun, W', hsize', ?_, H, H.rest_ne_nil_iff, ?_,
    H.others.trans hext.others, ?_⟩
  · exact Focus.span_taken.2.trans (hext.stop.trans hsize'.symm)
  · intro r hr
    have hfree := H.isFree_of_mem hext.free hr
    refine ⟨hfree, F'.mem_iff.mpr ⟨?_, hfree, rfl⟩⟩
    rw [Focus.chunks, H.below]
    simp [hr]
  · exact K₁.trans (hused ▸ W₁.keeps_of_within hwithin)

set_option maxRecDepth 100000 in
/-- The last chunk is free and too small for six units: what is left of it after growth is below the
block. -/
theorem exists_allocate_extended_merged : ∃ s, Reachable smallBins smallBuffer s ∧
    s.live = [⟨4112, 20⟩] ∧ ∃ (chunks : List Chunk) (lists : FreeLists) (f g : Focus)
      (rest : List Chunk) (h' : Heap Region), s.heap.WellFormed chunks lists ∧
      f.Extending chunks lists s.heap.arena.slots.size 6 ∧
      (Heap.allocate 96).Runs s.heap (.ok (h'.arena.blockAddress g.chunk)) h' ∧
      h'.WellFormed g.chunks g.lists ∧ f.HandedOut smallBins 6 rest g ∧
      g.chunks.map Chunk.index = [0, 6, 12] := by
  have hplay : ((start smallBins smallBuffer).play [.allocate 20, .allocate 5,
      .release 4256]).map (fun s => (s.live, (s.heap.firstFit 6).toOption,
        (s.heap.arena.growth 6).toOption, match Heap.allocate 96 ⟨s.heap, #[]⟩ with
        | .ok _ t => t.state.arena.survey.map SurveyRow.index
        | .error _ _ => [])) = some ([⟨4112, 20⟩], some none, some 4096, [0, 6, 12]) := by
    decide +kernel
  obtain ⟨s, hreach, hseen⟩ := exists_reachable_of_play hplay
  rw [Prod.mk.injEq, Prod.mk.injEq, Prod.mk.injEq] at hseen
  obtain ⟨hlive, hfit, hgrown, hsurvey⟩ := hseen
  obtain ⟨chunks, lists, S, -⟩ := sound_of_reachable hreach
  have W := S.wellFormed
  rw [W.firstFit_eq] at hfit
  have hnone := (choice_eq_none_iff W.filed).mp
    (Option.map_eq_none_iff.mp (Option.some.inj hfit))
  obtain ⟨base, hgrowth⟩ : ∃ base, s.heap.arena.growth 6 = .ok base := by
    cases hgrowth : s.heap.arena.growth 6 with
    | ok base => exact ⟨base, rfl⟩
    | error e =>
      rw [hgrowth] at hgrown
      cases hgrown
  obtain ⟨_, hextend, -⟩ := Arena.exists_extend W.placed hgrowth
  obtain ⟨log, hextend⟩ := hextend #[]
  obtain ⟨f, g, rest, -, h', -, -, hext, hrun, W', -, -, hhanded, -⟩ :=
    exists_allocate_extended hreach (show 0 < 96 by decide) W hnone hextend
  refine ⟨s, hreach, hlive, chunks, lists, f, g, rest, h', W, hext, hrun, W', hhanded, ?_⟩
  obtain ⟨log', hlog⟩ := hrun #[]
  rw [hlog] at hsurvey
  rw [← W'.survey_eq]
  exact hsurvey

end Session

end BoundaryTag
