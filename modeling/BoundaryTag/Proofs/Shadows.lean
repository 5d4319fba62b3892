import BoundaryTag.Proofs.Verdict

/-!
# Entries that are no chunks

The inspection is to make sure that every free chunk is listed exactly once. It looks
at the tags of each entry, and in the end compares numbers. So an entry need not be a
chunk of the tiling: the data of a block may look like the tags of a free chunk, and a
list that is led there has such a shadow in place of a free chunk, which then is in no
list. A heap with shadows is accepted; apart from them the lists are as they should be.

Results:

* `Inspected.length_shadows`: there is a shadow for each free chunk that is in no list.
* `Inspected.exists_around_shadow`: a shadow begins in the middle of a chunk.
* `Inspected.filed_iff`: without shadows the free lists are the free chunks.
* `accepted_lists`: what an accepted heap lists; `accepted_unlisted`: a heap that is
  accepted with a shadow.
-/

namespace BoundaryTag

variable {G : Type} {h : Heap G} {chunks : List Chunk} {lists : FreeLists} {c : Chunk}

namespace FreeLists

/-- The entries that are no chunks of the tiling. -/
def shadows (lists : FreeLists) (chunks : List Chunk) : List Chunk :=
  lists.entries.filter (· ∉ chunks)

/-- The free chunks of the tiling that are in no list. -/
def unlisted (lists : FreeLists) (chunks : List Chunk) : List Chunk :=
  (chunks.filter Chunk.isFree).filter (· ∉ lists.entries)

theorem mem_shadows : c ∈ lists.shadows chunks ↔ c ∈ lists.entries ∧ c ∉ chunks := by
  simp [shadows]

end FreeLists

/-- Of two families of the same size, without repetitions, each has as many members that are not in
the other. -/
theorem length_filter_notMem_comm {α : Type} [DecidableEq α] {l m : List α} (hl : l.Nodup)
    (hm : m.Nodup) (hlength : l.length = m.length) :
    (l.filter (· ∉ m)).length = (m.filter (· ∉ l)).length := by
  have hcard : l.toFinset.card = m.toFinset.card := by
    rw [List.toFinset_card_of_nodup hl, List.toFinset_card_of_nodup hm, hlength]
  have hsdiff := Finset.card_sdiff_comm hcard
  have hleft : l.toFinset \ m.toFinset = (l.filter (· ∉ m)).toFinset := by
    ext x
    simp
  have hright : m.toFinset \ l.toFinset = (m.filter (· ∉ l)).toFinset := by
    ext x
    simp
  rw [hleft, hright, List.toFinset_card_of_nodup (hl.filter _),
    List.toFinset_card_of_nodup (hm.filter _)] at hsdiff
  exact hsdiff

/-- The slots of a tiled run are covered. -/
theorem Tiles.exists_cover {i j n : Nat} {l : List Chunk} (hl : Tiles i l j) (hlow : i ≤ n)
    (hhigh : n < j) : ∃ c ∈ l, c.index ≤ n ∧ n < c.stop := by
  induction l generalizing i with
  | nil =>
    have hij : i = j := hl
    omega
  | cons c l ih =>
    obtain ⟨rfl, -, hl⟩ := hl
    by_cases hn : n < c.stop
    · exact ⟨c, by simp, hlow, hn⟩
    · obtain ⟨d, hd, hcover⟩ := ih hl (Nat.le_of_not_lt hn)
      exact ⟨d, by simp [hd], hcover⟩

namespace Heap.Inspected

/-! ## Shadows -/

theorem nodup_free (I : h.Inspected chunks lists) : (chunks.filter Chunk.isFree).Nodup :=
  I.tiles.ascending.nodup.filter _

theorem length_free (I : h.Inspected chunks lists) :
    lists.entries.length = (chunks.filter Chunk.isFree).length := by
  rw [I.count, freeCount, List.countP_eq_length_filter]

theorem isFree_of_mem_entries (I : h.Inspected chunks lists) (hc : c ∈ lists.entries) :
    c.isFree := by
  obtain ⟨k, hc⟩ := FreeLists.mem_entries.mp hc
  exact (I.entry_of_mem hc).free

/-- There are as many shadows as free chunks that are in no list. -/
theorem length_shadows (I : h.Inspected chunks lists) :
    (lists.shadows chunks).length = (lists.unlisted chunks).length := by
  have hsame : lists.shadows chunks =
      lists.entries.filter (· ∉ chunks.filter Chunk.isFree) := by
    refine List.filter_congr fun c hc => ?_
    have hfree := I.isFree_of_mem_entries hc
    simp [hfree]
  rw [hsame]
  exact length_filter_notMem_comm I.nodup_entries.of_map I.nodup_free I.length_free

/-- A shadow begins in the middle of a chunk. -/
theorem exists_around_shadow (I : h.Inspected chunks lists) (hc : c ∈ lists.shadows chunks) :
    ∃ d ∈ chunks, d.index < c.index ∧ c.index < d.stop := by
  obtain ⟨hmem, hout⟩ := FreeLists.mem_shadows.mp hc
  obtain ⟨k, hk⟩ := FreeLists.mem_entries.mp hmem
  have htagged := (I.entry_of_mem hk).tagged
  obtain ⟨d, hd, hlow, hhigh⟩ := I.tiles.exists_cover (Nat.zero_le _) htagged.index_lt
  refine ⟨d, hd, Nat.lt_of_le_of_ne hlow ?_, hhigh⟩
  intro hindex
  exact hout ((I.tagged d hd).unique htagged hindex ▸ hd)

/-- Without a shadow the entries are the free chunks. -/
theorem perm_of_shadows (I : h.Inspected chunks lists) (hnone : lists.shadows chunks = []) :
    lists.entries.Perm (chunks.filter Chunk.isFree) := by
  have hsubset : lists.entries ⊆ chunks.filter Chunk.isFree := by
    intro c hc
    refine List.mem_filter.mpr ⟨?_, I.isFree_of_mem_entries hc⟩
    by_contra hout
    have hshadow := FreeLists.mem_shadows.mpr ⟨hc, hout⟩
    rw [hnone] at hshadow
    cases hshadow
  exact (I.nodup_entries.of_map.subperm hsubset).perm_of_length_le (Nat.le_of_eq I.length_free.symm)

/-- The free lists are the free chunks of their classes exactly where there is no shadow. -/
theorem filed_iff (I : h.Inspected chunks lists) :
    Filed h.config chunks lists ↔ lists.shadows chunks = [] := by
  constructor
  · intro F
    refine List.eq_nil_iff_forall_not_mem.mpr fun c hc => ?_
    obtain ⟨hmem, hout⟩ := FreeLists.mem_shadows.mp hc
    obtain ⟨k, hk⟩ := FreeLists.mem_entries.mp hmem
    exact hout (F.mem_iff.mp hk).1
  · intro hnone
    have hentries := I.perm_of_shadows hnone
    have hperm : ∀ k, (lists k).Perm (h.config.members k chunks) := by
      intro k
      refine (List.perm_ext_iff_of_nodup ?_ ?_).mpr fun c => ?_
      · exact (I.enlisted k).threaded.nodup fun c hc d hd hindex => (I.eq_of_index hc hd hindex).1
      · exact I.tiles.ascending.nodup.filter _
      rw [Config.mem_members]
      constructor
      · intro hc
        have hmem := hentries.mem_iff.mp (FreeLists.mem_entries.mpr ⟨k, hc⟩)
        obtain ⟨hchunk, hfree⟩ := List.mem_filter.mp hmem
        exact ⟨hchunk, hfree, (I.entry_of_mem hc).classOf_eq⟩
      · rintro ⟨hchunk, hfree, rfl⟩
        have hmem := hentries.mem_iff.mpr (List.mem_filter.mpr ⟨hchunk, hfree⟩)
        obtain ⟨j, hj⟩ := FreeLists.mem_entries.mp hmem
        rw [(I.entry_of_mem hj).classOf_eq]
        exact hj
    refine ⟨hperm, (hperm _).eq_of_pairwise ?_ (List.pairwise_map.mp ((I.enlisted _).ascending rfl))
      (I.tiles.ascending.pairwise_index.filter _)⟩
    intro c d _ _ hlt hgt
    exact absurd hlt (Nat.lt_asymm hgt)

/-- Where no tag in the middle of a chunk says "free" there is no shadow. -/
theorem shadows_eq_nil (I : h.Inspected chunks lists)
    (hclean : ∀ d ∈ chunks, ∀ i, d.index < i → i < d.stop →
      h.arena.wordAt i ≠ some Status.free.word) : lists.shadows chunks = [] := by
  refine List.eq_nil_iff_forall_not_mem.mpr fun c hc => ?_
  obtain ⟨d, hd, hlow, hhigh⟩ := I.exists_around_shadow hc
  obtain ⟨k, hk⟩ := FreeLists.mem_entries.mp (FreeLists.mem_shadows.mp hc).1
  have hentry := I.entry_of_mem hk
  have hword := hentry.tagged.word
  rw [Chunk.isFree_iff.mp hentry.free] at hword
  exact hclean d hd c.index hlow hhigh hword

end Heap.Inspected

/-! ## Accepted heaps -/

namespace Heap

/-- In an accepted heap no chunk is listed twice, and the free chunks that are in no list are as
many as the entries that begin in the middle of a chunk. The lists are those of the free chunks
exactly where there are none of either, for one where no tag in the middle of a chunk says
"free". -/
theorem accepted_lists (hs : h.arena.slots.size ≤ maxUnits) (hcheck : h.check = .ok none) :
    ∃ chunks lists, h.Inspected chunks lists ∧ (lists.entries.map Chunk.index).Nodup ∧
      (lists.shadows chunks).length = (lists.unlisted chunks).length ∧
      (∀ c ∈ lists.shadows chunks, ∃ d ∈ chunks, d.index < c.index ∧ c.index < d.stop) ∧
      (Filed h.config chunks lists ↔ lists.shadows chunks = []) ∧
      ((∀ d ∈ chunks, ∀ i, d.index < i → i < d.stop →
        h.arena.wordAt i ≠ some Status.free.word) → Filed h.config chunks lists) := by
  obtain ⟨chunks, lists, I⟩ := (check_eq_none_iff hs).mp hcheck
  refine ⟨chunks, lists, I, I.nodup_entries, I.length_shadows,
    fun c hc => I.exists_around_shadow hc, I.filed_iff, ?_⟩
  intro hclean
  exact I.filed_iff.mpr (I.shadows_eq_nil hclean)

/-! ### A shadow -/

/-- An arena of 28 slots. The block in its first chunk holds what looks like the tags of a free
chunk, and the link of the last chunk, which is free, leads there. -/
def shadowed : Heap Unit where
  arena := {
    start := some 4096
    slots := #[
      ⟨Link.none, 8, Status.inUse.word⟩,
      ⟨Link.none, 4, Status.free.word⟩, .zero, .zero, .zero, .zero, ⟨22, 4, 0⟩,
      .zero, .zero, ⟨Link.none, 8, 0⟩,
      ⟨Link.none, 4, Status.free.word⟩, .zero, .zero, .zero, .zero, ⟨22, 4, 0⟩,
      ⟨Link.none, 4, Status.inUse.word⟩, .zero, .zero, .zero, .zero, ⟨Link.none, 4, 0⟩,
      ⟨1, 4, Status.free.word⟩, .zero, .zero, .zero, .zero, ⟨Link.none, 4, 0⟩]
    grower := ()
    unmapped := nofun }
  config := Session.smallBins
  heads := #v[none, none, none, some 22, none, none, none, none, none, none, none]

/-- The chunks of the arena. -/
def shadowedChunks : List Chunk := [⟨0, 8, .inUse⟩, ⟨10, 4, .free⟩, ⟨16, 4, .inUse⟩, ⟨22, 4, .free⟩]

/-- The one list with entries leads from the last chunk into the first one. -/
def shadowedLists : FreeLists := fun k => if k.val = 3 then [⟨22, 4, .free⟩, ⟨1, 4, .free⟩] else []

theorem inspected_shadowed : shadowed.Inspected shadowedChunks shadowedLists where
  tiles := ⟨rfl, by decide, rfl, by decide, rfl, by decide, rfl, by decide, rfl⟩
  tagged := by
    intro c hc
    simp only [shadowedChunks, List.mem_cons, List.not_mem_nil, or_false] at hc
    rcases hc with rfl | rfl | rfl | rfl <;> exact ⟨rfl, rfl, rfl⟩
  settled := by
    unfold Settled
    decide
  heads := by decide
  enlisted := by
    intro k
    by_cases hk : k.val = 3
    · obtain rfl : k = ⟨3, by decide⟩ := Fin.ext hk
      refine enlisted_cons.mpr ⟨⟨⟨rfl, rfl, rfl⟩, by decide, rfl, rfl, by decide⟩, rfl, by decide,
        rfl, enlisted_cons.mpr ⟨⟨⟨rfl, rfl, rfl⟩, by decide, rfl, rfl, by decide⟩, rfl, by decide,
          rfl, enlisted_nil _ _ _⟩⟩
    · rw [shadowedLists, if_neg hk]
      exact enlisted_nil _ _ _
  count := by decide

theorem accepted_lists_shadowed : shadowed.check = .ok none ∧
    ∃ chunks lists, shadowed.Inspected chunks lists ∧
      (lists.shadows chunks).length = (lists.unlisted chunks).length ∧
      lists.shadows chunks = [⟨1, 4, .free⟩] := by
  have hcheck := inspected_shadowed.check_eq (by decide)
  obtain ⟨chunks, lists, I, -, hlength, -⟩ := accepted_lists (by decide) hcheck
  obtain ⟨rfl, rfl⟩ := I.unique inspected_shadowed
  exact ⟨hcheck, _, _, I, hlength, by decide⟩

/-- It is not so that an accepted heap lists all its free chunks, nor that it lists chunks only. -/
theorem accepted_unlisted : shadowed.arena.slots.size ≤ maxUnits ∧ shadowed.check = .ok none ∧
    ∃ chunks lists, shadowed.Inspected chunks lists ∧
      (∃ c ∈ chunks, c.isFree ∧ c ∉ lists.entries) ∧ ∃ c ∈ lists.entries, c ∉ chunks := by
  refine ⟨by decide, inspected_shadowed.check_eq (by decide), _, _, inspected_shadowed, ?_, ?_⟩
  · exact ⟨⟨10, 4, .free⟩, by decide⟩
  · exact ⟨⟨1, 4, .free⟩, by decide⟩

end Heap

end BoundaryTag
