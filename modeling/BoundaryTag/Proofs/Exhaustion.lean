import BoundaryTag.Proofs.Placement
import BoundaryTag.Proofs.Requests

/-!
# Heaps on regions

A region counts the bytes that it has handed out, and an arena its slots. The two
counts are advanced by different code, and a heap that grows from a region of its own
keeps them in step: the arena gives nothing up that the region hands out, since every
grant begins where the arena ends. So there are two limits to growth and no other
reason against it, and an allocation fails exactly where no free chunk is large enough
and one of the limits is in the way.

Results:

* `Backed.growth_of_not_full`, `Backed.growth_of_full`: growth from a region.
* `Outcome.backed`, `backed_of_reachable`: the counts stay in step.
* `Outcome.isError_iff`, `exists_allocate_exhausted`: when an allocation fails, and how.
-/

namespace BoundaryTag

variable {region : Region} {n size : Nat}

/-! ## Regions -/

namespace Region

variable {r : Region} {bytes : Nat}

theorem answerTo_of_le (h : r.used + bytes ≤ r.capacity) :
    Grower.answerTo r bytes = .ok (r.base + r.used) := by
  show (r.grow bytes).answer.map Grant.start = _
  unfold grow
  rw [dif_pos h]
  rfl

theorem grower_of_le (h : r.used + bytes ≤ r.capacity) :
    (Grower.grow r bytes).grower = { r with used := r.used + bytes, used_le := h } := by
  show (r.grow bytes).grower = _
  unfold grow
  rw [dif_pos h]

theorem answerTo_of_lt (h : r.capacity < r.used + bytes) :
    Grower.answerTo r bytes = .error (.exhausted bytes) := by
  show (r.grow bytes).answer.map Grant.start = _
  unfold grow
  rw [dif_neg (by omega)]
  rfl

/-- A region that refuses stays as it is. -/
theorem grower_of_lt (h : r.capacity < r.used + bytes) : (Grower.grow r bytes).grower = r := by
  show (r.grow bytes).grower = _
  unfold grow
  rw [dif_neg (by omega)]

/-- A new region is unused. -/
theorem used_withCapacity {site : Site} {capacity : Nat}
    (h : withCapacity site capacity = .ok region) : region.used = 0 := by
  unfold withCapacity at h
  cases hsize : alignUp (max capacity unitBytes) unitBytes with
  | error e =>
    rw [hsize] at h
    cases h
  | ok n =>
    simp only [hsize, bind, Except.bind] at h
    split_ifs at h
    cases h
    rfl

end Region

/-! ## Arenas on regions -/

namespace Arena

variable {a b : Arena Region}

/-- The arena has all that was handed out by its region, which was `region` at first. -/
structure Backed (a : Arena Region) (region : Region) : Prop where
  base : a.grower.base = region.base
  capacity : a.grower.capacity = region.capacity
  used : a.grower.used = a.slots.size * unitBytes
  start : ∀ base ∈ a.start, base = region.base

/-- A chunk of `n` units more is too much for the region, or for the arena. -/
def Full (a : Arena Region) (n : Nat) : Prop :=
  a.grower.capacity < a.grower.used + unitBytes * (n + 2) ∨ maxUnits < a.slots.size + (n + 2)

namespace Backed

theorem empty (hused : region.used = 0) : (Arena.empty region).Backed region :=
  ⟨rfl, rfl, hused, by simp [Arena.empty]⟩

/-- An arena that has neither grown nor moved. -/
theorem congr (B : a.Backed region) (hgrower : b.grower = a.grower) (hstart : b.start = a.start)
    (hsize : b.slots.size = a.slots.size) : b.Backed region := by
  refine ⟨?_, ?_, ?_, ?_⟩
  · rw [hgrower, B.base]
  · rw [hgrower, B.capacity]
  · rw [hgrower, hsize, B.used]
  · rw [hstart]
    exact B.start

/-- A grant of the region begins where the arena ends. -/
theorem accepted_eq (B : a.Backed region) :
    a.accepted (a.grower.base + a.grower.used) = .ok region.base := by
  rw [accepted_eq_ok_iff, B.base, B.used]
  cases hstart : a.start with
  | none =>
    rw [a.unmapped hstart, Nat.zero_mul, Nat.add_zero]
    exact .inl ⟨rfl, region.base_aligned, rfl⟩
  | some base =>
    obtain rfl := B.start base hstart
    exact .inr ⟨rfl, rfl⟩

theorem growth_of_not_full (B : a.Backed region) (hfull : ¬a.Full n) :
    a.growth n = .ok region.base := by
  obtain ⟨hroom, hfit⟩ := not_or.mp hfull
  rw [Nat.not_lt, Nat.mul_comm] at hroom
  rw [growth, if_pos (Nat.not_lt.mp hfit), Region.answerTo_of_le hroom]
  exact B.accepted_eq

theorem growth_of_full (hfull : a.Full n) (hn : n ≤ maxUnits - 2) :
    a.growth n = .error (.exhausted (unitBytes * (n + 2))) := by
  have hbytes : Word.mulSaturating (Word.addSaturating n 2) unitBytes = unitBytes * (n + 2) := by
    unfold Word.mulSaturating Word.addSaturating Word.top unitBytes maxUnits at *
    omega
  unfold growth
  split_ifs with hfit
  · have hroom := hfull.resolve_right (Nat.not_lt.mpr hfit)
    rw [Nat.mul_comm] at hroom
    rw [Region.answerTo_of_lt hroom, Nat.mul_comm]
    rfl
  · rw [hbytes]

/-- Growth that fails leaves the region, too. -/
theorem after_asked_of_full (hfull : a.Full n) :
    Grower.after a.grower (a.asked n) = a.grower := by
  unfold asked
  split_ifs with hfit
  · have hroom := hfull.resolve_right (Nat.not_lt.mpr hfit)
    rw [Nat.mul_comm] at hroom
    exact Region.grower_of_lt hroom
  · rfl

/-- An arena that has grown. -/
theorem grown (B : a.Backed region) (hfull : ¬a.Full n)
    (hgrower : b.grower = Grower.after a.grower (a.asked n)) (hstart : b.start = some region.base)
    (hsize : b.slots.size = a.slots.size + n + 2) : b.Backed region := by
  obtain ⟨hroom, hfit⟩ := not_or.mp hfull
  rw [Nat.not_lt, Nat.mul_comm] at hroom
  rw [after_asked (Nat.not_lt.mp hfit), Region.grower_of_le hroom] at hgrower
  refine ⟨?_, ?_, ?_, ?_⟩
  · rw [hgrower]
    exact B.base
  · rw [hgrower]
    exact B.capacity
  · have hsum : b.slots.size * unitBytes = a.slots.size * unitBytes + (n + 2) * unitBytes := by
      rw [hsize, Nat.add_assoc, Nat.add_mul]
    rw [hgrower, hsum, ← B.used]
  · intro base hbase
    rw [hstart] at hbase
    exact (Option.some.inj hbase).symm

end Backed

end Arena

/-! ## Allocations -/

namespace Heap

variable {h h' : Heap Region} {chunks : List Chunk} {lists : FreeLists}
  {answer : Except AllocError Nat}

theorem growthUnits_le (h : Heap Region) (hn : n ≤ maxUnits - 2) :
    h.growthUnits n ≤ maxUnits - 2 := Nat.max_le.mpr ⟨hn, h.config.minGrowth_le⟩

/-- Growth fails where one of the limits is in the way, and nowhere else. -/
theorem full_of_growth (B : h.arena.Backed region) {e : GrowError}
    (he : h.arena.growth n = .error e) : h.arena.Full n := by
  by_contra hfull
  rw [B.growth_of_not_full hfull] at he
  cases he

theorem not_full_of_growth (hn : n ≤ maxUnits - 2) {base : Nat}
    (hbase : h.arena.growth n = .ok base) : ¬h.arena.Full n := by
  intro hfull
  rw [Arena.Backed.growth_of_full hfull hn] at hbase
  cases hbase

/-- An allocation keeps the counts of region and arena in step. -/
theorem Outcome.backed (B : h.arena.Backed region) (O : h.Outcome chunks lists size answer h') :
    h'.arena.Backed region := by
  cases O with
  | zero | tooLarge => exact B
  | outOfMemory _ _ _ hgrowth =>
    have hfull := full_of_growth B hgrowth
    exact B.congr (Arena.Backed.after_asked_of_full hfull) rfl rfl
  | found _ _ _ _ _ _ hwithin =>
    exact B.congr hwithin.arena.grower hwithin.arena.start hwithin.size
  | grown _ hsize _ hgrowth _ _ _ _ hlength hstart hgrower _ hwithin =>
    have hfull := not_full_of_growth (h.growthUnits_le hsize.2) hgrowth
    rw [B.growth_of_not_full hfull] at hgrowth
    cases hgrowth
    exact (B.grown hfull hgrower hstart hlength).congr hwithin.arena.grower hwithin.arena.start
      hwithin.size

/-- An allocation fails exactly where no free chunk is large enough and the arena is not to grow. -/
theorem Outcome.isError_iff (W : h.WellFormed chunks lists) (B : h.arena.Backed region)
    (O : h.Outcome chunks lists size answer h') (hpos : size ≠ 0) (hsize : Holdable size) :
    (∃ e, answer = .error e) ↔ (∀ c ∈ chunks, c.isFree → c.units < unitsFor size) ∧
      h.arena.Full (h.growthUnits (unitsFor size)) := by
  cases O with
  | zero hzero => exact absurd hzero hpos
  | tooLarge _ hbig => exact absurd hsize hbig
  | outOfMemory _ _ hnone hgrowth =>
    exact iff_of_true ⟨_, rfl⟩ ⟨(choice_eq_none_iff W.filed).mp hnone, full_of_growth B hgrowth⟩
  | found _ _ hchunks hlists hfound =>
    subst hlists
    obtain ⟨hmem, hfree, hle⟩ := mem_of_choice W.filed hfound
    exact iff_of_false (by simp) fun hsmall => Nat.not_lt.mpr hle (hsmall.1 _ hmem hfree)
  | grown _ _ _ hgrowth =>
    have hfull := not_full_of_growth (h.growthUnits_le hsize.2) hgrowth
    exact iff_of_false (by simp) fun hsmall => hfull hsmall.2

/-- Memory that does not suffice is the only reason that a region gives. -/
theorem Outcome.eq_of_outOfMemory (B : h.arena.Backed region)
    (O : h.Outcome chunks lists size answer h') {e : GrowError}
    (he : answer = .error (.outOfMemory e)) :
    e = .exhausted (unitBytes * (h.growthUnits (unitsFor size) + 2)) := by
  cases O with
  | outOfMemory _ hsize _ hgrowth =>
    have hfull := full_of_growth B hgrowth
    rw [Arena.Backed.growth_of_full hfull (h.growthUnits_le hsize.2)] at hgrowth
    cases hgrowth
    cases he
    rfl
  | zero | tooLarge | found | grown => cases he

/-- Where the size is not rejected, an allocation fails for lack of memory. -/
theorem Outcome.exists_outOfMemory {e : AllocError}
    (O : h.Outcome chunks lists size (.error e) h') (hpos : size ≠ 0) (hsize : Holdable size) :
    ∃ e', e = .outOfMemory e' := by
  cases O with
  | zero hzero => exact absurd hzero hpos
  | tooLarge _ hbig => exact absurd hsize hbig
  | outOfMemory => exact ⟨_, rfl⟩

end Heap

/-! ## Sessions -/

namespace Session

variable {s t : Session Region} {chunks : List Chunk} {lists : FreeLists} {r : Request}
  {rs : List Request} {config : Config}

theorem backed_of_reachable (hused : region.used = 0) (h : Reachable config region s) :
    s.heap.arena.Backed region :=
  arena_of_reachable (P := fun a => a.Backed region)
    (fun hgrower hstart hsize B => B.congr hgrower hstart hsize) (fun _ O B => O.backed B)
    (Arena.Backed.empty hused) h

/-- After every run of legal requests to a heap on a new region: the arena has as many bytes as the
region has handed out, and begins where the region does. An allocation of as many units as a chunk
can have fails exactly where no free chunk is large enough and the chunk by which the arena is to
grow is too much for the region or for an arena, and then for exhaustion. No allocation fails for
the place of a grant. -/
theorem exists_allocate_exhausted {site : Site} {capacity : Nat}
    (hregion : Region.withCapacity site capacity = .ok region) (h : Reachable config region s) :
    s.heap.arenaBytes = .ok s.heap.arena.grower.used ∧
      s.heap.arena.grower.used ≤ s.heap.arena.grower.capacity ∧
      s.heap.arena.grower.capacity = region.capacity ∧
      (0 < s.heap.arena.length → s.heap.arena.start = some region.base) ∧
      ∃ chunks lists, s.heap.WellFormed chunks lists ∧ s.heap.config = config ∧
        ∀ size, ∃ answer t, (perform (.allocate size)).Runs s (some answer) t ∧
          (∀ expected actual, answer ≠ .error (.outOfMemory (.discontiguous expected actual))) ∧
          (∀ address, answer ≠ .error (.outOfMemory (.misaligned address))) ∧
          (1 ≤ Heap.unitsFor size → Heap.unitsFor size ≤ maxUnits - 2 →
            ((∃ e, answer = .error e) ↔
              (∀ c ∈ chunks, c.isFree → c.units < Heap.unitsFor size) ∧
                s.heap.arena.Full (s.heap.growthUnits (Heap.unitsFor size))) ∧
            ∀ e, answer = .error e → e = .outOfMemory
              (.exhausted (unitBytes * (s.heap.growthUnits (Heap.unitsFor size) + 2)))) := by
  obtain ⟨chunks, lists, S, hconfig⟩ := sound_of_reachable h
  have W := S.wellFormed
  have B := backed_of_reachable (Region.used_withCapacity hregion) h
  refine ⟨?_, s.heap.arena.grower.used_le, B.capacity, ?_, chunks, lists, W, hconfig, ?_⟩
  · rw [W.arenaBytes_eq, B.used]
  · intro hpos
    obtain ⟨base, hstart⟩ := Option.isSome_iff_exists.mp (Arena.isSome_start hpos)
    rw [hstart, B.start base hstart]
  intro size
  obtain ⟨answer, h', hrun, O⟩ := W.exists_outcome size
  refine ⟨answer, _, runs_allocate hrun, ?_, ?_, ?_⟩
  · intro expected actual he
    cases O.eq_of_outOfMemory B he
  · intro address he
    cases O.eq_of_outOfMemory B he
  intro hpos hunits
  have hsize := Heap.holdable_iff.mpr hunits
  have hpos' : size ≠ 0 := by
    rintro rfl
    exact absurd hpos (by decide)
  refine ⟨O.isError_iff W B hpos' hsize, ?_⟩
  rintro e rfl
  obtain ⟨e, rfl⟩ := O.exists_outOfMemory hpos' hsize
  rw [O.eq_of_outOfMemory B rfl]

set_option maxRecDepth 100000 in
/-- A buffer of 310 bytes, rounded to twenty slots, is used up by three blocks. -/
theorem exists_allocate_exhausted_small : ∃ s,
    Region.withCapacity ⟨4096, by decide, by decide, by decide⟩ 310 = .ok smallBuffer ∧
    Reachable smallBins smallBuffer s ∧
    (∀ log, ∃ t log', perform (.allocate 200) ⟨s, log⟩ =
      .ok (some (.error (.outOfMemory (.exhausted 240)))) ⟨t, log'⟩) ∧
    s.heap.arenaBytes = .ok s.heap.arena.grower.used ∧ s.heap.arena.Full 13 ∧
    ∃ chunks lists, s.heap.WellFormed chunks lists ∧ ∀ c ∈ chunks, c.isFree → c.units < 13 := by
  have hregion : Region.withCapacity ⟨4096, by decide, by decide, by decide⟩ 310 =
      .ok smallBuffer := rfl
  have hplay : ((start smallBins smallBuffer).play [.allocate 20, .allocate 5, .allocate 40,
      .release 4256]).map (fun s => match perform (.allocate 200) ⟨s, #[]⟩ with
        | .ok answer _ => some answer
        | .error _ _ => none) =
      some (some (some (.error (.outOfMemory (.exhausted 240))))) := by
    decide +kernel
  obtain ⟨s, hs, hseen⟩ := Option.map_eq_some_iff.mp hplay
  have hreach : Reachable smallBins smallBuffer s := ⟨_, run_of_play hs⟩
  obtain ⟨hbytes, -, -, -, chunks, lists, W, hconfig, hallocate⟩ :=
    exists_allocate_exhausted hregion hreach
  obtain ⟨answer, t, hrun, -, -, hfails⟩ := hallocate 200
  obtain ⟨log, hperform⟩ := hrun #[]
  rw [hperform] at hseen
  obtain rfl : answer = .error (.outOfMemory (.exhausted 240)) :=
    Option.some.inj (Option.some.inj hseen)
  obtain ⟨hsmall, hfull⟩ := (hfails (by decide) (by decide)).1.mp ⟨_, rfl⟩
  have hgrowth : s.heap.growthUnits (Heap.unitsFor 200) = 13 := by
    rw [Heap.growthUnits, hconfig]
    decide
  refine ⟨s, hregion, hreach, ?_, hbytes, hgrowth ▸ hfull, chunks, lists, W, hsmall⟩
  intro log
  obtain ⟨log', hperform'⟩ := hrun log
  exact ⟨t, log', hperform'⟩

end Session

end BoundaryTag
