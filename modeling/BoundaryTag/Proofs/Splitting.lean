import BoundaryTag.Proofs.Merging

/-!
# Splitting

A chunk that is handed out keeps at most two units more than were asked for. From
a larger one the upper part is carved off, and the rest keeps its header. The rest
keeps its place in the list as long as it stays in its class.

Results:

* `Consistent.refile`, `Consistent.shrink`: the rest is filed where it belongs.
* `Holds.carve`: the upper part becomes a chunk in use.
* `Consistent.take`: a free chunk is handed out, whole or in part.
-/

namespace BoundaryTag

variable {G : Type} {pre post : List Chunk} {lists : FreeLists} {c d : Chunk} {i j n rest : Nat}

/-! ## Parts of a chunk -/

/-- The chunk in use that takes the uppermost `n` units of `c` and the tag of `c` above them. -/
def Chunk.top (c : Chunk) (n : Nat) : Chunk := ⟨c.index + (c.units - (n + 2)) + 2, n, .inUse⟩

theorem Chunk.withStatus_free (h : c.isFree) : c.withStatus .free = c := by
  rw [Chunk.isFree_iff] at h
  rw [← h]
  rfl

/-- No tag of another chunk stands in the span of a chunk of a tiling. -/
theorem Tiles.notMem_tagSlots (h : Tiles 0 (pre ++ c :: post) j) (hlo : c.index ≤ i)
    (hhi : i < c.stop) : i ∉ tagSlots (pre ++ post) := by
  obtain ⟨hpre, -, hpost⟩ := tiles_split.mp h
  intro hi
  obtain ⟨d, hd, hi⟩ := mem_tagSlots.mp hi
  have := d.index_lt_footer
  have := d.footer_lt_stop
  rcases List.mem_append.mp hd with hd | hd
  · have := (hpre.bounds hd).2.1
    omega
  · have := (hpost.bounds hd).1
    omega

section Top

variable (h : n + 2 < c.units)

include h

theorem Chunk.footer_top : (c.top n).footer = c.footer := by
  unfold Chunk.top Chunk.footer
  simp only
  omega

/-- The tags of the upper part stand above the rest, in the span of the chunk. -/
theorem Chunk.span_top : ∀ i ∈ tagSlots [c.top n],
    (c.withUnits (c.units - (n + 2))).stop ≤ i ∧ i < c.stop := by
  intro i hi
  have hindex : (c.top n).index = (c.withUnits (c.units - (n + 2))).stop := rfl
  have hfooter := Chunk.footer_top h
  have hlt := (c.top n).index_lt_footer
  have hstop := c.footer_lt_stop
  simp only [tagSlots_cons, tagSlots_nil, List.mem_cons, List.not_mem_nil, or_false] at hi
  omega

theorem Tiles.notMem_tagSlots_top (hc : Tiles 0 (pre ++ c :: post) j) : ∀ i ∈ tagSlots [c.top n],
    i ∉ tagSlots (pre ++ c.withUnits (c.units - (n + 2)) :: post) := by
  intro i hi hi'
  obtain ⟨hlo, hhi⟩ := Chunk.span_top h i hi
  obtain ⟨d, hd, hid⟩ := mem_tagSlots.mp hi'
  have hrest : c.index < (c.withUnits (c.units - (n + 2))).stop :=
    (c.withUnits (c.units - (n + 2))).index_lt_stop
  rcases List.mem_cons.mp (List.perm_middle.mem_iff.mp hd) with rfl | hd
  · have := (c.withUnits (c.units - (n + 2))).index_lt_footer
    have := (c.withUnits (c.units - (n + 2))).footer_lt_stop
    omega
  · exact hc.notMem_tagSlots (by omega) hhi (mem_tagSlots.mpr ⟨d, hd, hid⟩)

/-- The rest and the upper part tile the span of the chunk. -/
theorem Tiles.split_top (hc : Tiles 0 (pre ++ c :: post) j) (hn : 1 ≤ n) :
    Tiles 0 (pre ++ c.withUnits (c.units - (n + 2)) :: c.top n :: post) j := by
  obtain ⟨hpre, -, hpost⟩ := tiles_split.mp hc
  have hrest : 1 ≤ c.units - (n + 2) := by omega
  refine tiles_split.mpr ⟨hpre, hrest, rfl, hn, ?_⟩
  rw [Chunk.stop_eq_footer_add, Chunk.footer_top h, ← Chunk.stop_eq_footer_add]
  exact hpost

end Top

namespace Focus

variable (config : Config) (f : Focus)

/-- The chunk has been given a smaller size. -/
def shrunk (rest : Nat) : Focus :=
  { f with
    chunk := f.chunk.withUnits rest
    lists :=
      if config.classOf rest = config.classOf f.chunk.units then f.lists.resize config f.chunk rest
      else (f.lists.remove config f.chunk).insert config f.below (f.chunk.withUnits rest) f.above }

/-- A chunk of at least `n` units has been handed out. -/
def taken (n : Nat) : Focus :=
  if n + 2 < f.chunk.units then
    { below := f.below ++ [f.chunk.withUnits (f.chunk.units - (n + 2))]
      chunk := f.chunk.top n
      above := f.above
      lists := (f.shrunk config (f.chunk.units - (n + 2))).lists }
  else
    { f with chunk := f.chunk.withStatus .inUse, lists := f.lists.remove config f.chunk }

theorem taken_of_lt (hlt : n + 2 < f.chunk.units) : f.taken config n =
    ⟨f.below ++ [f.chunk.withUnits (f.chunk.units - (n + 2))], f.chunk.top n, f.above,
      (f.shrunk config (f.chunk.units - (n + 2))).lists⟩ := if_pos hlt

theorem taken_of_not_lt (hlt : ¬n + 2 < f.chunk.units) : f.taken config n =
    ⟨f.below, f.chunk.withStatus .inUse, f.above, f.lists.remove config f.chunk⟩ := if_neg hlt

end Focus

namespace Heap

variable {h : Heap G} {f : Focus}

namespace Consistent

/-! ## Shrinking -/

section Smaller

variable (C : h.Consistent (pre ++ c :: post) lists) (hlt : rest < c.units)

include C hlt

/-- There is room for the footer of a smaller chunk. -/
theorem footer_smaller : (c.withUnits rest).footer < c.footer ∧
    (c.withUnits rest).footer < h.arena.slots.size ∧
      (c.withUnits rest).footer ∉ tagSlots (pre ++ post) := by
  have hlow : c.index < (c.withUnits rest).footer := (c.withUnits rest).index_lt_footer
  have hhigh : (c.withUnits rest).footer < c.footer := by
    unfold Chunk.footer Chunk.withUnits
    simp only
    omega
  have hstop := c.footer_lt_stop
  exact ⟨hhigh, Nat.lt_trans hhigh (C.holds.tagged c (by simp)).footer_lt,
    C.tiles.notMem_tagSlots (by omega) (by omega)⟩

/-- The free chunk leaves its list, gets smaller and is filed anew. -/
theorem refile (hfree : c.isFree) :
    ∃ h', (Heap.refile c.index rest).Runs h () h' ∧
      h'.Midway h.config (pre ++ c.withUnits rest :: post) (pre ++ c.withUnits rest :: post)
        ((lists.remove h.config c).insert h.config pre (c.withUnits rest) post) ∧
      h.Alters {i | i ∈ tagSlots (lists (h.config.classOf c.units) ++
          c.withUnits rest :: lists.remove h.config c (h.config.classOf rest))}
        {c.index, (c.withUnits rest).footer} {c.index} h' := by
  obtain ⟨hhigh, hsize, hfooter⟩ := C.footer_smaller hlt
  have hlisted : c ∈ lists (h.config.classOf c.units) := C.filed.mem_iff.mpr ⟨by simp, hfree, rfl⟩
  have F := C.filed.remove hfree C.notMem_others
  obtain ⟨h₁, hrun₁, H₁, A₁⟩ := C.holds.withdraw hlisted
  obtain ⟨h₂, hrun₂, H₂, A₂⟩ := H₁.setUnits (F.notMem fun hc => C.notMem_others hc.1)
    (by rw [A₁.arena.size]; exact hsize) hfooter
  have hconfig : h₂.config = h.config := A₂.config.trans A₁.config
  have hasc := C.ascending.shorten (d := c.withUnits rest) rfl
    (Nat.le_of_lt (Nat.succ_lt_succ hhigh))
  obtain ⟨h₃, hrun₃, H₃, A₃⟩ := H₂.file (by rw [hconfig]; exact F) (tiles_split.mp C.tiles).1 hasc
  rw [Chunk.withStatus_free (show (c.withUnits rest).isFree from hfree), hconfig] at H₃
  rw [hconfig] at A₃
  refine ⟨h₃, Action.Runs.bind hrun₁ (Action.Runs.bind hrun₂ hrun₃),
    ⟨A₃.config.trans hconfig, H₃, F.insert hfree⟩, ?_⟩
  simp only [tagSlots_append, List.mem_append]
  refine (A₁.mono ?_ ?_ ?_).trans ((A₂.mono ?_ ?_ ?_).trans (A₃.mono ?_ ?_ ?_))
  · exact fun i hi => .inl hi
  · exact Set.empty_subset _
  · exact Set.empty_subset _
  · exact Set.empty_subset _
  · exact Set.Subset.refl _
  · exact Set.empty_subset _
  · exact fun i hi => .inr hi
  · exact Set.empty_subset _
  · exact Set.Subset.refl _

end Smaller

/-- The free chunk gets smaller; the slots above it are left to whoever comes next. -/
theorem shrink (C : h.Shows f) (hfree : f.chunk.isFree) (hlt : rest < f.chunk.units) :
    ∃ h', (Heap.shrink f.chunk.index f.chunk.units rest).Runs h () h' ∧
      h'.Midway h.config (f.shrunk h.config rest).chunks (f.shrunk h.config rest).chunks
        (f.shrunk h.config rest).lists ∧
      h.Within (freeSlots f.chunks) h' := by
  obtain ⟨pre, c, post, lists⟩ := f
  change c.isFree at hfree
  change rest < c.units at hlt
  change h.Consistent (pre ++ c :: post) lists at C
  obtain ⟨hhigh, hsize, hfooter⟩ := C.footer_smaller hlt
  have hlow : c.index < (c.withUnits rest).footer := (c.withUnits rest).index_lt_footer
  have hstop := c.footer_lt_stop
  have hindex : c.index ∈ freeSlots (pre ++ c :: post) := index_mem_freeSlots (by simp) hfree
  have hinside : (c.withUnits rest).footer ∈ freeSlots (pre ++ c :: post) :=
    ⟨c, by simp, hfree, by omega, by omega⟩
  have hboth : {c.index, (c.withUnits rest).footer} ⊆ freeSlots (pre ++ c :: post) := by
    rintro i (rfl | rfl)
    · exact hindex
    · exact hinside
  unfold Focus.shrunk Heap.shrink
  by_cases hclass : h.config.classOf rest = h.config.classOf c.units
  · obtain ⟨h', hrun, M, A⟩ := C.midway.resizeListed hfree hclass hsize hfooter
    refine ⟨h', ?_, ?_, Within.of_alters A (Set.singleton_subset_iff.mpr hinside) hboth
      (Set.empty_subset _)⟩
    · apply Action.Runs.bind (Action.runs_read (by exact rfl))
      simp only [hclass, beq_self_eq_true, if_true]
      exact hrun
    · rw [if_pos hclass]
      exact M
  · -- out of the old list, smaller, into the new list
    obtain ⟨h', hrun, M, A⟩ := C.refile hlt hfree
    refine ⟨h', ?_, ?_, Within.of_alters A ?_ hboth (Set.singleton_subset_iff.mpr hindex)⟩
    · apply Action.Runs.bind (Action.runs_read (by exact rfl))
      simp only [beq_eq_false_iff_ne.mpr hclass]
      exact hrun
    · rw [if_neg hclass]
      exact M
    · rintro i (hi : i ∈ tagSlots _)
      obtain ⟨d, hd, hid⟩ := mem_tagSlots.mp hi
      have F := C.filed.remove hfree C.notMem_others
      rcases List.mem_append.mp hd with hd | hd
      · exact C.midway.tags_subset_freeSlots _ (mem_tagSlots.mpr ⟨d, hd, hid⟩)
      rcases List.mem_cons.mp hd with rfl | hd
      · exact hboth hid
      · obtain ⟨hmem, hfree', -⟩ := F.mem_iff.mp hd
        refine mem_freeSlots_of_tag (l := [d]) ?_ (mem_tagSlots.mpr ⟨d, by simp, hid⟩)
        intro e he
        obtain rfl := List.mem_singleton.mp he
        exact ⟨List.perm_middle.mem_iff.mpr (List.mem_cons_of_mem _ hmem), hfree'⟩

end Consistent

/-! ## Splitting -/

/-- The slots above a chunk become a chunk in use, without links. -/
theorem Holds.carve (H : h.Holds (pre ++ c :: post) lists) (hused : d.status = .inUse)
    (hindex : d.index = c.stop) (hlt : d.footer < h.arena.slots.size)
    (hout : ∀ i ∈ tagSlots [d], i ∉ tagSlots (pre ++ c :: post)) :
    ∃ h', (onArena (Arena.carve c.index d.units)).Runs h d.index h' ∧
      h'.Holds (pre ++ c :: d :: post) lists ∧ h'.arena.linkAt d.index = none ∧
      h'.arena.linkAt d.footer = none ∧
      h.Alters {d.index, d.footer} {d.index, d.footer} {d.index} h' := by
  have hnext := (H.tagged c (by simp)).nextAdjacent_eq H.short
  rw [if_pos (by have := d.index_lt_footer; omega), ← hindex] at hnext
  rw [List.append_cons] at H hout ⊢
  obtain ⟨h', hrun, H', A⟩ := H.layOut hused hlt hout
  refine ⟨h', ?_, H', A⟩
  unfold Arena.carve
  rw [onArena_bind]
  apply Action.Runs.bind (runs_onArena (Action.runs_read (by exact hnext)))
  simp only [onArena_bind]
  exact Action.Runs.bind hrun (runs_onArena (Action.runs_pure _ _))

/-- A split is the shrinking of the chunk and the carving of its upper part. -/
theorem runs_split {h₁ h₂ : Heap G} {carved : Nat} (hs : h.arena.slots.size ≤ maxUnits)
    (hc : c.TaggedIn h.arena) (hfree : c.isFree) (hlt : n + 2 < c.units)
    (hshrink : (Heap.shrink c.index c.units (c.units - (n + 2))).Runs h () h₁)
    (hcarve : (onArena (Arena.carve c.index n)).Runs h₁ carved h₂) :
    (Heap.split c.index n).Runs h carved h₂ := by
  apply Action.Runs.bind (Action.runs_read (by exact hc.units_eq))
  apply Action.Runs.bind (Action.runs_read (by exact hc.isFree_eq))
  apply Action.Runs.bind (Action.runs_require _ hfree _)
  apply Action.Runs.bind (Action.runs_ofExcept (hc.add_two_eq hs (by omega)) _)
  apply Action.Runs.bind (Action.runs_require _ (by simpa using hlt) _)
  refine Action.Runs.bind hshrink (Action.Runs.bind hcarve ?_)
  exact Action.Runs.bind (Action.runs_record _ _) (Action.runs_pure _ _)

namespace Consistent

/-- The upper part of a free chunk becomes a chunk of `n` units in use. -/
theorem split (C : h.Shows f) (hfree : f.chunk.isFree) (hn : 1 ≤ n) (hlt : n + 2 < f.chunk.units) :
    ∃ h', (Heap.split f.chunk.index n).Runs h (f.chunk.top n).index h' ∧
      h'.Shows (f.taken h.config n) ∧ h.Within (freeSlots f.chunks) h' := by
  have hrest : f.chunk.units - (n + 2) < f.chunk.units := by omega
  obtain ⟨h₁, hrun₁, M₁, W₁⟩ := C.shrink hfree hrest
  obtain ⟨pre, c, post, lists⟩ := f
  change c.isFree at hfree
  change n + 2 < c.units at hlt
  change h.Consistent (pre ++ c :: post) lists at C
  have htc := C.holds.tagged c (by simp)
  have hsize : (c.top n).footer < h₁.arena.slots.size := by
    rw [Chunk.footer_top hlt, W₁.size]
    exact htc.footer_lt
  obtain ⟨h₂, hrun₂, H₂, -, -, A₂⟩ :=
    M₁.holds.carve rfl rfl hsize (C.tiles.notMem_tagSlots_top hlt)
  have hinside : ∀ i ∈ ({(c.top n).index, (c.top n).footer} : Set Nat),
      i ∈ freeSlots (pre ++ c :: post) := by
    intro i hi
    obtain ⟨hlo, hhi⟩ := Chunk.span_top hlt i (by simpa using hi)
    have hrest := (c.withUnits (c.units - (n + 2))).index_lt_stop
    exact ⟨c, by simp, hfree, Nat.le_trans (Nat.le_of_lt hrest) hlo, hhi⟩
  have W := W₁.trans (Within.of_alters A₂ hinside hinside fun i hi => hinside i (.inl hi))
  refine ⟨h₂, runs_split C.holds.short htc hfree hlt hrun₁ hrun₂, ?_, W⟩
  rw [Focus.taken_of_lt h.config ⟨pre, c, post, lists⟩ hlt]
  have htiles := W.size ▸ C.tiles.split_top hlt hn
  have hfiled := M₁.filed
  rw [Focus.chunks, List.append_cons] at hfiled
  rw [List.append_cons] at htiles H₂
  refine ⟨H₂, htiles, ?_⟩
  rw [W.config]
  exact (filed_of_inUse rfl).mpr hfiled

/-- A free chunk of at least `n` units is handed out, whole or in part. -/
theorem take (C : h.Shows f) (hfree : f.chunk.isFree) (hn : 1 ≤ n) (hle : n ≤ f.chunk.units) :
    ∃ h', (Heap.take f.chunk.index n).Runs h (f.taken h.config n).chunk.index h' ∧
      h'.Shows (f.taken h.config n) ∧ h.Within (freeSlots f.chunks) h' := by
  have htc := C.holds.tagged f.chunk (by simp [Focus.chunks])
  have hadd := htc.add_two_eq C.holds.short hle
  by_cases hlt : n + 2 < f.chunk.units
  · obtain ⟨h', hrun, C', W⟩ := C.split hfree hn hlt
    refine ⟨h', ?_, C', W⟩
    rw [Focus.taken_of_lt h.config f hlt]
    apply Action.Runs.bind (Action.runs_read (by exact htc.units_eq))
    apply Action.Runs.bind (Action.runs_ofExcept hadd _)
    rw [if_pos hlt]
    exact hrun
  · obtain ⟨h₁, hrun₁, M₁, W₁⟩ := C.midway.withdraw hfree C.notMem_others
    obtain ⟨h₂, hrun₂, M₂, W₂⟩ := M₁.mark C.notMem_others .inUse
    have hindex : ∀ i ∈ ({f.chunk.index} : Set Nat), i ∈ freeSlots f.chunks := by
      rintro i rfl
      exact index_mem_freeSlots (by simp [Focus.chunks]) hfree
    have W := W₁.trans (W₂.mono hindex)
    rw [Focus.taken_of_not_lt h.config f hlt]
    refine ⟨h₂, ?_, ⟨M₂.holds, ?_, ?_⟩, W⟩
    · apply Action.Runs.bind (Action.runs_read (by exact htc.units_eq))
      apply Action.Runs.bind (Action.runs_ofExcept hadd _)
      rw [if_neg hlt]
      exact Action.Runs.bind hrun₁ (Action.Runs.bind hrun₂ (Action.runs_pure _ _))
    · obtain ⟨hpre, hunits, hpost⟩ := tiles_split.mp C.tiles
      rw [W.size]
      exact tiles_split.mpr ⟨hpre, hunits, hpost⟩
    · rw [W.config]
      exact (filed_of_inUse rfl).mpr M₂.filed

end Consistent

end Heap

end BoundaryTag
