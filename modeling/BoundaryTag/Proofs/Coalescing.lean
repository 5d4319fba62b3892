import BoundaryTag.Proofs.RoundTrip
import BoundaryTag.Proofs.Totals

/-!
# Coalescing

A chunk that is released becomes one free chunk with its free neighbours, of which
there is at most one on either side. The merges are made one after the other, the
second with the outcome of the first; seen from outside there is one change. It is
told here by what is absorbed: in the arena the chunks between the others are replaced
by one, and in the lists the absorbed ones are missing and the new one is filed.

Results:

* `Focus.Fresh.joinAbove`, `Focus.Fresh.joinBelow`: one merge.
* `Focus.coalesced_reclaimed`: both of them.
* `Session.exists_release_coalesced`: the release of any block, after every run of
  legal requests.
-/

namespace BoundaryTag

variable {G : Type} {config : Config} {lists base : FreeLists} {c d : Chunk} {f g : Focus}
  {i j : Nat}

theorem unitSum_singleton (c : Chunk) : unitSum [c] = c.units := by simp [unitSum]

/-- The last chunk, if it is free. -/
def trailingFree (chunks : List Chunk) : List Chunk :=
  (chunks.getLast?.filter Chunk.isFree).toList

namespace Focus

/-! ## Free neighbours -/

/-- The free chunk right below, if there is one. -/
def lower (f : Focus) : List Chunk := trailingFree f.below

/-- The free chunk right above, if there is one. -/
def upper (f : Focus) : List Chunk := (f.above.head?.filter Chunk.isFree).toList

/-- The free neighbours, in the order of the merges. -/
def absorbed (f : Focus) : List Chunk := f.upper ++ f.lower

/-- The chunk `f.chunk` and its free neighbours have become one free chunk, which is `g.chunk`. -/
structure Coalesced (config : Config) (f g : Focus) : Prop where
  /-- All other chunks are as before. -/
  below : f.below = g.below ++ f.lower
  above : f.above = f.upper ++ g.above
  free : g.chunk.isFree
  /-- It begins where the lower neighbour did and ends where the upper one did. -/
  index : g.chunk.index = (f.lower.head?.getD f.chunk).index
  stop : g.chunk.stop = (f.upper.head?.getD f.chunk).stop
  around : g.chunk.index ≤ f.chunk.index ∧ f.chunk.stop ≤ g.chunk.stop
  /-- With each neighbour come the two tags in between. -/
  units : g.chunk.units = f.chunk.units + unitSum f.absorbed + 2 * f.absorbed.length
  /-- No other chunk covers a slot of `f.chunk`. -/
  only : ∀ d ∈ g.chunks, d.index < f.chunk.stop → f.chunk.index < d.stop → d = g.chunk
  listed : g.chunk ∈ g.lists (config.classOf g.chunk.units)
  front : config.classOf g.chunk.units ≠ SizeClass.overflow →
    (g.lists (config.classOf g.chunk.units)).head? = some g.chunk
  ascending : (g.lists SizeClass.overflow).Pairwise fun c d => c.index < d.index
  gone : ∀ d ∈ f.absorbed, ∀ k, d ∉ g.lists k
  /-- All other chunks are in the lists as before. -/
  others : g.lists.without [g.chunk] = f.lists.without f.absorbed

/-- The chunk above is free or the merge leaves everything. -/
theorem joinAbove_cases (config : Config) (f : Focus) :
    (f.upper = [] ∧ f.joinAbove config = f) ∨
      ∃ d rest, f.upper = [d] ∧ f.above = d :: rest ∧ d.isFree ∧ f.joinAbove config =
        ⟨f.below, f.chunk.join d, rest, ((f.lists.remove config f.chunk).remove config d).insert
          config f.below (f.chunk.join d) rest⟩ := by
  obtain ⟨below, c, above, lists⟩ := f
  cases above with
  | nil => exact .inl ⟨rfl, rfl⟩
  | cons d rest =>
    cases hd : d.isFree
    · exact .inl ⟨by simp [upper, Option.filter, hd], by simp [joinAbove, hd]⟩
    · exact .inr ⟨d, rest, by simp [upper, Option.filter, hd], rfl, hd, by simp [joinAbove, hd]⟩

/-- The chunk below is free or the merge leaves everything. -/
theorem joinBelow_cases (config : Config) (f : Focus) :
    (f.lower = [] ∧ f.joinBelow config = f) ∨
      ∃ d rest, f.lower = [d] ∧ f.below = rest ++ [d] ∧ d.isFree ∧ f.joinBelow config =
        ⟨rest, d.join f.chunk, f.above, ((f.lists.remove config d).remove config f.chunk).insert
          config rest (d.join f.chunk) f.above⟩ := by
  obtain ⟨below, c, above, lists⟩ := f
  rcases List.eq_nil_or_concat' below with rfl | ⟨rest, d, rfl⟩
  · exact .inl ⟨rfl, rfl⟩
  · cases hd : d.isFree
    · exact .inl ⟨by simp [lower, trailingFree, Option.filter, hd], by simp [joinBelow, hd]⟩
    · exact .inr ⟨d, rest, by simp [lower, trailingFree, Option.filter, hd], rfl, hd,
        joinBelow_concat hd⟩

/-! ## One merge -/

theorem above_eq (config : Config) (f : Focus) :
    f.above = f.upper ++ (f.joinAbove config).above := by
  rcases f.joinAbove_cases config with ⟨hupper, hsame⟩ | ⟨d, rest, hupper, habove, -, hjoin⟩
  · rw [hsame, hupper, List.nil_append]
  · rw [hjoin, hupper, habove, List.singleton_append]

theorem below_eq (config : Config) (f : Focus) :
    f.below = (f.joinBelow config).below ++ f.lower := by
  rcases f.joinBelow_cases config with ⟨hlower, hsame⟩ | ⟨d, rest, hlower, hbelow, -, hjoin⟩
  · rw [hsame, hlower, List.append_nil]
  · rw [hjoin, hlower, hbelow]

theorem units_joinAbove_eq : (f.joinAbove config).chunk.units =
    f.chunk.units + unitSum f.upper + 2 * f.upper.length := by
  rcases f.joinAbove_cases config with ⟨hupper, hsame⟩ | ⟨d, rest, hupper, -, -, hjoin⟩
  · rw [hsame, hupper]
    rfl
  · rw [hjoin, hupper, unitSum_singleton]
    rfl

theorem units_joinBelow_eq : (f.joinBelow config).chunk.units =
    f.chunk.units + unitSum f.lower + 2 * f.lower.length := by
  rcases f.joinBelow_cases config with ⟨hlower, hsame⟩ | ⟨d, rest, hlower, -, -, hjoin⟩
  · rw [hsame, hlower]
    rfl
  · rw [hjoin, hlower, unitSum_singleton, Nat.add_comm f.chunk.units]
    rfl

/-- A merge with the chunk above moves the end only. -/
theorem span_joinAbove (config : Config) (htiles : Tiles i f.chunks j) :
    Tiles i (f.joinAbove config).chunks j ∧
    (f.joinAbove config).chunk.stop = (f.upper.head?.getD f.chunk).stop ∧
    f.chunk.stop ≤ (f.joinAbove config).chunk.stop := by
  rcases f.joinAbove_cases config with ⟨hupper, hsame⟩ | ⟨d, rest, hupper, habove, -, hjoin⟩
  · rw [hsame, hupper]
    exact ⟨htiles, rfl, Nat.le_refl _⟩
  · rw [chunks, habove] at htiles
    obtain ⟨hindex, htiles⟩ := tiles_join htiles
    rw [hjoin, hupper]
    refine ⟨htiles, Chunk.stop_join hindex, ?_⟩
    have := d.index_lt_stop
    rw [Chunk.stop_join hindex]
    omega

/-- A merge with the chunk below moves the beginning only. -/
theorem span_joinBelow (config : Config) (htiles : Tiles i f.chunks j) :
    Tiles i (f.joinBelow config).chunks j ∧
    (f.joinBelow config).chunk.index = (f.lower.head?.getD f.chunk).index ∧
    (f.joinBelow config).chunk.index ≤ f.chunk.index ∧
    (f.joinBelow config).chunk.stop = f.chunk.stop := by
  rcases f.joinBelow_cases config with ⟨hlower, hsame⟩ | ⟨d, rest, hlower, hbelow, -, hjoin⟩
  · rw [hsame, hlower]
    exact ⟨htiles, rfl, Nat.le_refl _, rfl⟩
  · rw [chunks, hbelow, List.append_assoc, List.singleton_append] at htiles
    obtain ⟨hindex, htiles⟩ := tiles_join htiles
    rw [hjoin, hlower]
    refine ⟨htiles, rfl, ?_, Chunk.stop_join hindex⟩
    have := d.index_lt_stop
    rw [Chunk.index_join]
    omega

/-- The chunk is free, and was filed last. -/
structure Fresh (config : Config) (base : FreeLists) (f : Focus) : Prop where
  free : f.chunk.isFree
  filed : Filed config (f.below ++ f.above) base
  lists : f.lists = base.insert config f.below f.chunk f.above

namespace Fresh

theorem filed_chunks (H : f.Fresh config base) : Filed config f.chunks f.lists :=
  H.lists ▸ H.filed.insert H.free

/-- All other chunks are in the lists as if the chunk were in none. -/
theorem without_chunk (H : f.Fresh config base) (hnodup : f.chunks.Nodup) :
    f.lists.without [f.chunk] = base := by
  rw [H.lists, H.filed.without_insert H.free hnodup]

theorem head?_lists (H : f.Fresh config base)
    (hbin : config.classOf f.chunk.units ≠ SizeClass.overflow) :
    (f.lists (config.classOf f.chunk.units)).head? = some f.chunk := by
  rw [H.lists, FreeLists.insert, Function.update_self, if_neg hbin, List.head?_cons]

theorem joinAbove (H : f.Fresh config base) (htiles : Tiles i f.chunks j) :
    (f.joinAbove config).Fresh config (base.without f.upper) := by
  obtain ⟨hc, hothers⟩ := List.nodup_cons.mp (List.nodup_middle.mp htiles.ascending.nodup)
  rcases f.joinAbove_cases config with ⟨hupper, hsame⟩ | ⟨d, rest, hupper, habove, hd, hjoin⟩
  · rw [hsame, hupper, FreeLists.without_nil]
    exact H
  · have hfiled := H.filed
    have hleave := hfiled.remove_eq_without hothers d
    rw [hjoin, hupper, ← hleave]
    rw [habove] at hfiled hothers
    refine ⟨rfl, hfiled.remove hd (List.nodup_middle.mp hothers).notMem, ?_⟩
    simp only
    rw [H.lists, H.filed.remove_insert H.free hc]

theorem joinBelow (H : f.Fresh config base) (htiles : Tiles i f.chunks j) :
    (f.joinBelow config).Fresh config (base.without f.lower) := by
  obtain ⟨hc, hothers⟩ := List.nodup_cons.mp (List.nodup_middle.mp htiles.ascending.nodup)
  rcases f.joinBelow_cases config with ⟨hlower, hsame⟩ | ⟨d, rest, hlower, hbelow, hd, hjoin⟩
  · rw [hsame, hlower, FreeLists.without_nil]
    exact H
  · have hfiled := H.filed
    have hleave := hfiled.remove_eq_without hothers d
    rw [hjoin, hlower, ← hleave]
    rw [hbelow, List.append_assoc] at hfiled hothers
    refine ⟨rfl, hfiled.remove hd (List.nodup_middle.mp hothers).notMem, ?_⟩
    simp only
    rw [FreeLists.remove_comm, H.lists, H.filed.remove_insert H.free hc]

end Fresh

/-! ## Both merges -/

theorem tiles_freed (config : Config) (htiles : Tiles i f.chunks j) :
    Tiles i (f.freed config).chunks j := by
  obtain ⟨hbelow, hunits, habove⟩ := tiles_split.mp htiles
  exact tiles_split.mpr ⟨hbelow, hunits, habove⟩

theorem lower_joinAbove : (f.joinAbove config).lower = f.lower := by
  rw [lower, below_joinAbove, lower]

theorem units_reclaimed_eq : (f.reclaimed config).chunk.units =
    f.chunk.units + unitSum f.absorbed + 2 * f.absorbed.length := by
  have habove := @units_joinAbove_eq config (f.freed config)
  have hbelow := @units_joinBelow_eq config ((f.freed config).joinAbove config)
  have hfreed : (f.freed config).chunk.units = f.chunk.units := rfl
  have hupper : (f.freed config).upper = f.upper := rfl
  have hlower : (f.freed config).lower = f.lower := rfl
  rw [lower_joinAbove, habove, hfreed, hupper, hlower] at hbelow
  rw [reclaimed, absorbed, unitSum_append, List.length_append, hbelow]
  omega

/-- Where a reclaimed chunk begins and ends. -/
theorem span_reclaimed (config : Config) (htiles : Tiles 0 f.chunks j) :
    Tiles 0 (f.reclaimed config).chunks j ∧
    (f.reclaimed config).chunk.index = (f.lower.head?.getD f.chunk).index ∧
    (f.reclaimed config).chunk.stop = (f.upper.head?.getD f.chunk).stop ∧
    (f.reclaimed config).chunk.index ≤ f.chunk.index ∧
    f.chunk.stop ≤ (f.reclaimed config).chunk.stop := by
  have htiles₁ := tiles_freed config htiles
  obtain ⟨htiles₂, hstop₂, hle₂⟩ := span_joinAbove config htiles₁
  obtain ⟨htiles₃, hindex₃, hle₃, hstop₃⟩ := span_joinBelow config htiles₂
  have hindex : ((f.freed config).joinAbove config).chunk.index = f.chunk.index :=
    index_joinAbove config (f.freed config)
  refine ⟨htiles₃, hindex₃.trans ?_, hstop₃.trans (hstop₂.trans ?_), ?_, ?_⟩
  · rw [lower_joinAbove]
    show (f.lower.head?.getD _).index = _
    cases f.lower.head? with
    | none => exact hindex
    | some d => rfl
  · show (f.upper.head?.getD _).stop = _
    cases f.upper.head? <;> rfl
  · exact hindex ▸ hle₃
  · exact Nat.le_trans hle₂ (Nat.le_of_eq hstop₃.symm)

/-- The lists with a reclaimed chunk. -/
theorem fresh_reclaimed (htiles : Tiles 0 f.chunks j) (F : Filed config f.chunks f.lists)
    (hused : f.chunk.status = .inUse) :
    (f.reclaimed config).Fresh config (f.lists.without f.absorbed) := by
  have htiles₁ := tiles_freed config htiles
  have H₁ : (f.freed config).Fresh config f.lists := ⟨rfl, (filed_of_inUse hused).mp F, rfl⟩
  have H := (H₁.joinAbove htiles₁).joinBelow (span_joinAbove config htiles₁).1
  rw [← FreeLists.without_append, lower_joinAbove] at H
  exact H

/-- What is released becomes one chunk with its free neighbours. -/
theorem coalesced_reclaimed (htiles : Tiles 0 f.chunks j) (F : Filed config f.chunks f.lists)
    (hused : f.chunk.status = .inUse) : f.Coalesced config (f.reclaimed config) := by
  obtain ⟨htiles', hindex, hstop, hlow, hhigh⟩ := span_reclaimed config htiles
  have H := fresh_reclaimed htiles F hused
  have hmem : (f.reclaimed config).chunk ∈ (f.reclaimed config).chunks := by simp [chunks]
  have hunits := @units_reclaimed_eq config f
  have hothers := H.without_chunk htiles'.ascending.nodup
  refine ⟨?_, ?_, H.free, hindex, hstop, ⟨hlow, hhigh⟩, hunits, ?_, ?_, H.head?_lists, ?_, ?_,
    hothers⟩
  · have hbelow := below_eq config ((f.freed config).joinAbove config)
    rwa [below_joinAbove, lower_joinAbove] at hbelow
  · rw [reclaimed, above_joinBelow]
    exact above_eq config (f.freed config)
  · intro d hd hlt hgt
    by_contra hne
    have := htiles'.ascending.apart hd hmem hne
    omega
  · exact H.filed_chunks.mem_iff.mpr ⟨hmem, H.free, rfl⟩
  · rw [H.filed_chunks.ordered]
    exact htiles'.ascending.pairwise_index.filter _
  · intro d hd k hk
    have hsmall : d.units ≤ unitSum f.absorbed := List.le_sum_of_mem (List.mem_map_of_mem hd)
    have hne : d ≠ (f.reclaimed config).chunk := by
      rintro rfl
      have := List.length_pos_of_mem hd
      omega
    have hstays : d ∈ (f.reclaimed config).lists.without [(f.reclaimed config).chunk] k :=
      FreeLists.mem_without.mpr ⟨hk, by simpa using hne⟩
    rw [hothers] at hstays
    exact (FreeLists.mem_without.mp hstays).2 hd

end Focus

/-! ## Sessions -/

namespace Session

variable [Grower G] {grower : G} {s : Session G}

/-- After every run of legal requests, a block is released: its chunk becomes one free chunk with
its free neighbours, tagged and filed as its size says, and nothing else in the arena or the lists
is another than before. -/
theorem exists_release_coalesced (h : Reachable config grower s) {b : Block} (hb : b ∈ s.live) :
    ∃ (f g : Focus) (h' : Heap G), s.heap.WellFormed f.chunks f.lists ∧ f.chunk.status = .inUse ∧
      b.address = s.heap.arena.blockAddress f.chunk ∧
      (Heap.release b.address).Runs s.heap () h' ∧ h'.WellFormed g.chunks g.lists ∧
      g.chunk.TaggedIn h'.arena ∧ f.Coalesced config g := by
  obtain ⟨chunks, lists, S, rfl⟩ := sound_of_reachable h
  obtain ⟨c, hc, haddress⟩ := S.exists_chunk hb
  obtain ⟨hmem, hused⟩ := mem_used.mp hc
  obtain ⟨pre, post, rfl⟩ := List.append_of_mem hmem
  let f : Focus := ⟨pre, c, post, lists⟩
  have W : s.heap.WellFormed f.chunks f.lists := S.wellFormed
  obtain ⟨h', hrun, W', -⟩ := W.release_chunk hused
  refine ⟨f, _, h', W, hused, haddress, haddress ▸ hrun, W', W'.tagged _ (by simp [Focus.chunks]),
    Focus.coalesced_reclaimed W.tiles W.filed hused⟩

set_option maxRecDepth 100000 in
/-- A block between two free chunks is released, and the arena is one chunk. -/
theorem exists_release_coalesced_twice : ∃ s, Reachable smallBins smallBuffer s ∧
    s.live = [⟨4256, 5⟩] ∧ ∃ (f g : Focus) (h' : Heap Region), s.heap.WellFormed f.chunks f.lists ∧
      (Heap.release 4256).Runs s.heap () h' ∧ h'.WellFormed g.chunks g.lists ∧
      f.Coalesced smallBins g ∧ g.chunks.map Chunk.index = [0] := by
  have hplay : ((start smallBins smallBuffer).play [.allocate 20, .allocate 5, .allocate 40,
      .release 4112, .release 4304]).map (fun s => (s.live,
        match Heap.release 4256 ⟨s.heap, #[]⟩ with
        | .ok _ t => t.state.arena.survey.map SurveyRow.index
        | .error _ _ => [])) = some ([⟨4256, 5⟩], [0]) := by
    decide +kernel
  obtain ⟨s, hreach, hseen⟩ := exists_reachable_of_play hplay
  rw [Prod.mk.injEq] at hseen
  obtain ⟨hlive, hsurvey⟩ := hseen
  obtain ⟨f, g, h', W, -, -, hrun, W', -, hcoalesced⟩ :=
    exists_release_coalesced hreach (b := ⟨4256, 5⟩) (by rw [hlive]; simp)
  refine ⟨s, hreach, hlive, f, g, h', W, hrun, W', hcoalesced, ?_⟩
  obtain ⟨log, hlog⟩ := hrun #[]
  rw [hlog] at hsurvey
  rw [← W'.survey_eq]
  exact hsurvey

end Session

end BoundaryTag
