import BoundaryTag.Proofs.Growth
import BoundaryTag.Proofs.Splitting

/-!
# Settled heaps

Between operations no two neighbours are free. A heap is well formed when this
holds of a consistent heap and the arena lies well in the address space. Seen as
sequences of chunks, freeing a chunk settles its surroundings, and handing one
out leaves them settled; each changes one of the chunks in use and keeps the
others in their order.

Results:

* `Focus.settled_reclaimed`, `Focus.used_reclaimed`: a chunk that is released.
* `Focus.settled_taken`, `Focus.used_taken`: a chunk that is handed out.
-/

namespace BoundaryTag

variable {pre post l : List Chunk} {c d : Chunk} {config : Config} {f : Focus} {n : Nat}

/-- No two neighbours are both free. -/
def Settled (chunks : List Chunk) : Prop :=
  chunks.IsChain fun c d => ¬ (c.isFree ∧ d.isFree)

/-- The chunks in use, in the order of the arena. -/
def used (chunks : List Chunk) : List Chunk := chunks.filter fun c => !c.isFree

theorem settled_middle : Settled (pre ++ c :: post) ↔ Settled pre ∧ Settled post ∧
    (∀ d ∈ pre.getLast?, ¬ (d.isFree ∧ c.isFree)) ∧ ∀ d ∈ post.head?, ¬ (c.isFree ∧ d.isFree) := by
  unfold Settled
  rw [List.isChain_append, List.isChain_cons]
  simp only [List.head?_cons, Option.mem_some_iff, forall_eq']
  tauto

theorem mem_used : c ∈ used l ↔ c ∈ l ∧ c.status = .inUse := by
  unfold used
  rw [List.mem_filter, Bool.not_eq_true', Chunk.isFree_eq_false_iff]

@[simp] theorem used_append (pre post : List Chunk) : used (pre ++ post) = used pre ++ used post :=
  List.filter_append ..

theorem used_cons_of_free (hfree : c.isFree) (l : List Chunk) : used (c :: l) = used l := by
  simp [used, hfree]

theorem used_cons_of_used (hused : c.status = .inUse) (l : List Chunk) :
    used (c :: l) = c :: used l := by
  simp [used, Chunk.isFree_eq_false_iff.mpr hused]

namespace Focus

/-! ## A chunk that is released -/

theorem settled_joinAbove (h : Settled f.above) : Settled (f.joinAbove config).above ∧
    ∀ d ∈ (f.joinAbove config).above.head?, d.isFree = false := by
  obtain ⟨below, c, above, lists⟩ := f
  cases above with
  | nil => exact ⟨h, by simp [joinAbove]⟩
  | cons d rest =>
    cases hd : d.isFree
    · simpa [joinAbove, hd] using h
    · obtain ⟨hhead, hrest⟩ := List.isChain_cons.mp h
      simp only [joinAbove, hd, if_true]
      exact ⟨hrest, fun e he => Bool.eq_false_iff.mpr fun hfree => hhead e he ⟨hd, hfree⟩⟩

@[simp] theorem below_joinAbove : (f.joinAbove config).below = f.below := by
  unfold joinAbove
  split
  · rfl
  · split <;> rfl

theorem used_joinAbove (hfree : f.chunk.isFree) :
    used (f.joinAbove config).chunks = used f.chunks := by
  obtain ⟨below, c, above, lists⟩ := f
  cases above with
  | nil => rfl
  | cons d rest =>
    cases hd : d.isFree
    · simp [joinAbove, hd]
    · simp only [joinAbove, hd, if_true, chunks, used_append]
      rw [used_cons_of_free (Chunk.isFree_join c d), used_cons_of_free hfree, used_cons_of_free hd]

theorem units_joinAbove : f.chunk.units ≤ (f.joinAbove config).chunk.units := by
  unfold joinAbove
  split
  · exact Nat.le_refl _
  · split
    · unfold Chunk.join
      simp only
      omega
    · exact Nat.le_refl _

theorem settled_joinBelow (h : Settled f.below) : Settled (f.joinBelow config).below ∧
    ∀ d ∈ (f.joinBelow config).below.getLast?, d.isFree = false := by
  obtain ⟨below, c, above, lists⟩ := f
  rcases List.eq_nil_or_concat' below with rfl | ⟨below, d, rfl⟩
  · exact ⟨h, by simp [joinBelow]⟩
  · cases hd : d.isFree
    · simpa [joinBelow, hd] using h
    · obtain ⟨hbelow, -, hlast, -⟩ := settled_middle.mp h
      simp only [joinBelow, List.getLast?_concat, hd, if_true, List.dropLast_concat]
      exact ⟨hbelow, fun e he => Bool.eq_false_iff.mpr fun hfree => hlast e he ⟨hfree, hd⟩⟩

@[simp] theorem above_joinBelow : (f.joinBelow config).above = f.above := by
  unfold joinBelow
  split
  · rfl
  · split <;> rfl

theorem used_joinBelow (hfree : f.chunk.isFree) :
    used (f.joinBelow config).chunks = used f.chunks := by
  obtain ⟨below, c, above, lists⟩ := f
  rcases List.eq_nil_or_concat' below with rfl | ⟨below, d, rfl⟩
  · rfl
  · cases hd : d.isFree
    · simp [joinBelow, hd]
    · simp only [joinBelow, List.getLast?_concat, hd, if_true, List.dropLast_concat, chunks,
        used_append]
      rw [used_cons_of_free (Chunk.isFree_join d c), used_cons_of_free hfree, used_cons_of_free hd]
      simp [used]

theorem units_joinBelow : f.chunk.units ≤ (f.joinBelow config).chunk.units := by
  unfold joinBelow
  split
  · exact Nat.le_refl _
  · split
    · unfold Chunk.join
      simp only
      omega
    · exact Nat.le_refl _

/-- The surroundings of a released chunk are settled, whatever the chunk was. -/
theorem settled_reclaimed (hbelow : Settled f.below) (habove : Settled f.above) :
    Settled (f.reclaimed config).chunks := by
  obtain ⟨habove', hhead⟩ := @settled_joinAbove config (f.freed config) habove
  obtain ⟨hbelow', hlast⟩ := @settled_joinBelow config ((f.freed config).joinAbove config) (by
    rw [below_joinAbove]; exact hbelow)
  refine settled_middle.mpr ⟨hbelow', ?_, ?_, ?_⟩
  · rw [reclaimed, above_joinBelow]; exact habove'
  · intro d hd h
    rw [hlast d hd] at h
    cases h.1
  · intro d hd h
    rw [reclaimed, above_joinBelow] at hd
    rw [hhead d hd] at h
    cases h.2

theorem used_reclaimed : used (f.reclaimed config).chunks = used f.below ++ used f.above := by
  rw [reclaimed, used_joinBelow (isFree_joinAbove config rfl), used_joinAbove rfl, chunks,
    used_append]
  exact congrArg _ (used_cons_of_free rfl _)

theorem isFree_reclaimed : (f.reclaimed config).chunk.isFree :=
  isFree_joinBelow config (isFree_joinAbove config rfl)

theorem units_reclaimed : f.chunk.units ≤ (f.reclaimed config).chunk.units :=
  Nat.le_trans (@units_joinAbove config (f.freed config)) units_joinBelow

/-! ## A chunk that is handed out -/

theorem status_taken : (f.taken config n).chunk.status = .inUse := by
  unfold taken
  split <;> rfl

theorem units_taken (hle : n ≤ f.chunk.units) :
    n ≤ (f.taken config n).chunk.units ∧ (f.taken config n).chunk.units ≤ n + 2 := by
  unfold taken
  split
  · exact ⟨Nat.le_refl _, Nat.le_add_right _ _⟩
  · refine ⟨hle, ?_⟩
    show f.chunk.units ≤ n + 2
    omega

/-- Handing out a part of a free chunk makes no free neighbours. -/
theorem settled_taken (h : Settled f.chunks) : Settled (f.taken config n).chunks := by
  obtain ⟨hbelow, habove, hlast, hhead⟩ := settled_middle.mp h
  unfold taken
  split
  · have hmid : Settled (f.below ++ [f.chunk.withUnits (f.chunk.units - (n + 2))]) :=
      settled_middle.mpr ⟨hbelow, List.IsChain.nil, hlast, by simp⟩
    refine settled_middle.mpr ⟨hmid, habove, ?_, ?_⟩
    · intro d _ hd
      cases hd.2
    · intro d _ hd
      cases hd.1
  · refine settled_middle.mpr ⟨hbelow, habove, ?_, ?_⟩
    · intro d _ hd
      cases hd.2
    · intro d _ hd
      cases hd.1

theorem used_taken (hfree : f.chunk.isFree) : used (f.taken config n).chunks =
    used f.below ++ (f.taken config n).chunk :: used f.above := by
  have hused : (f.taken config n).chunk.status = .inUse := status_taken
  have hbelow : used (f.taken config n).below = used f.below := by
    unfold taken
    split
    · have hfree' : (f.chunk.withUnits (f.chunk.units - (n + 2))).isFree := hfree
      rw [used_append, used_cons_of_free hfree']
      simp [used]
    · rfl
  have habove : (f.taken config n).above = f.above := by
    unfold taken
    split <;> rfl
  rw [chunks, used_append, used_cons_of_used hused, hbelow, habove]

end Focus

/-! ## Well-formed heaps -/

variable {G : Type}

/-- The heap is whole: `chunks` are its chunks from the lowest to the highest, and `lists` its free
lists. -/
structure Heap.WellFormed (h : Heap G) (chunks : List Chunk) (lists : FreeLists) : Prop where
  /-- The chunks fill the arena without a gap, each at least one unit long. -/
  tiles : Tiles 0 chunks h.arena.slots.size
  /-- Header and footer of every chunk give its size, the header also its status. -/
  tagged : ∀ c ∈ chunks, c.TaggedIn h.arena
  settled : Settled chunks
  heads : ∀ k, h.head k = entry (lists k) none
  threaded : ∀ k, Threaded h.arena.linkAt none (lists k) none
  filed : Filed h.config chunks lists
  short : h.arena.slots.size ≤ maxUnits
  placed : h.arena.Placed

namespace Heap.WellFormed

variable {h : Heap G} {chunks : List Chunk} {lists : FreeLists}

theorem consistent (W : h.WellFormed chunks lists) : h.Consistent chunks lists := by
  have hapart := nodup_tagSlots W.tiles.ascending
  refine ⟨⟨W.short, W.tagged, hapart, fun k c hc => W.filed.mem_iff.mp hc, ?_, W.heads,
    W.threaded⟩, W.tiles, W.filed⟩
  intro k
  exact W.filed.nodup (nodup_of_nodup_tagSlots hapart) k

theorem of_consistent (C : h.Consistent chunks lists) (hsettled : Settled chunks)
    (hplaced : h.arena.Placed) : h.WellFormed chunks lists :=
  ⟨C.tiles, C.holds.tagged, hsettled, C.holds.heads, C.holds.threaded, C.filed, C.holds.short,
    hplaced⟩

/-- A heap without memory is well formed. -/
theorem new (g : G) (config : Config) : (Heap.new g config).WellFormed [] fun _ => [] := by
  refine ⟨rfl, by simp, List.IsChain.nil, ?_, fun _ => trivial,
    ⟨fun _ => List.Perm.refl _, rfl⟩, Nat.zero_le _, Arena.placed_empty g⟩
  intro k
  simp [Heap.head, Heap.new]

end Heap.WellFormed

end BoundaryTag
