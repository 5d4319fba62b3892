import BoundaryTag.Proofs.Consistent

/-!
# Merging

A merge takes two neighbours out of their lists, gives the lower one the room of
both and files it anew; the tags between them become data. A chunk that is freed
is merged with the chunk above and then with the one below, each time only where
that one is free.

Results:

* `Consistent.merge`: a merge leaves a consistent heap, and which.
* `Consistent.reclaim`: a chunk in use is freed and merged with its neighbours.
-/

namespace BoundaryTag

variable {G : Type} {pre post : List Chunk} {lists : FreeLists} {a b c d : Chunk} {i j : Nat}

/-! ## Joining chunks -/

namespace Chunk

/-- The free chunk made of `a` and its upper neighbour `b`. -/
def join (a b : Chunk) : Chunk := ⟨a.index, a.units + b.units + 2, .free⟩

@[simp] theorem index_join (a b : Chunk) : (a.join b).index = a.index := rfl

@[simp] theorem isFree_join (a b : Chunk) : (a.join b).isFree := rfl

theorem footer_join (h : b.index = a.stop) : (a.join b).footer = b.footer := by
  unfold stop at h
  unfold join footer
  simp only
  omega

theorem stop_join (h : b.index = a.stop) : (a.join b).stop = b.stop := by
  rw [stop_eq_footer_add, stop_eq_footer_add, footer_join h]

end Chunk

theorem tiles_join : Tiles i (pre ++ a :: b :: post) j →
    b.index = a.stop ∧ Tiles i (pre ++ a.join b :: post) j := by
  intro h
  obtain ⟨hpre, ha, hb, hu, hpost⟩ := tiles_split.mp h
  refine ⟨hb, tiles_split.mpr ⟨hpre, ?_, ?_⟩⟩
  · show 1 ≤ a.units + b.units + 2
    omega
  · rw [Chunk.stop_join hb]
    exact hpost

theorem freeSlots_join (ha : a.isFree) (hb : b.isFree) (hab : b.index = a.stop) :
    freeSlots [a.join b] ⊆ freeSlots [a, b] := by
  rintro i ⟨c, hc, -, hlo, hhi⟩
  rw [List.mem_singleton.mp hc, Chunk.stop_join hab] at hhi
  rw [List.mem_singleton.mp hc, Chunk.index_join] at hlo
  by_cases hi : i < a.stop
  · exact ⟨a, by simp, ha, hlo, hi⟩
  · exact ⟨b, by simp, hb, by omega, hhi⟩

namespace Heap

variable {h h' : Heap G}

/-! ## Merging -/

namespace Consistent

theorem areFree_eq {chunks : List Chunk} (C : h.Consistent chunks lists) (ha : a ∈ chunks)
    (hb : b ∈ chunks) :
    h.areFree a.index b.index = .ok (a.isFree && b.isFree) := by
  unfold areFree
  rw [(C.holds.tagged a ha).isFree_eq]
  cases hfree : a.isFree
  · rfl
  · simp only [bind, Except.bind, if_true, (C.holds.tagged b hb).isFree_eq, Bool.true_and]

theorem mergedUnits_eq (C : h.Consistent (pre ++ a :: b :: post) lists) :
    h.mergedUnits a.index b.index = .ok (a.join b).units := by
  have hab := (tiles_join C.tiles).1
  have hb := C.holds.tagged b (by simp)
  have hlt := hb.stop_lt_limit C.holds.short
  rw [← Chunk.stop_join hab] at hlt
  unfold Chunk.stop Chunk.join at hlt
  simp only at hlt
  unfold mergedUnits
  rw [(C.holds.tagged a (by simp)).units_eq, hb.units_eq]
  simp only [bind, Except.bind]
  rw [Word.add_eq_ok (by omega)]
  exact Word.add_eq_ok (by omega)

/-- Two free neighbours become one chunk, in the list of its size. -/
theorem merge (C : h.Consistent (pre ++ a :: b :: post) lists) (ha : a.isFree) (hb : b.isFree) :
    ∃ h', (Heap.merge a.index b.index).Runs h () h' ∧
      h'.Consistent (pre ++ a.join b :: post)
        (((lists.remove h.config a).remove h.config b).insert h.config pre (a.join b) post) ∧
      h.Within (freeSlots (pre ++ a :: b :: post)) h' := by
  obtain ⟨hab, htiles⟩ := tiles_join C.tiles
  have hfooter : (a.withUnits (a.join b).units).footer = b.footer := Chunk.footer_join hab
  have hroom : freeSlots (pre ++ a.join b :: post) ⊆ freeSlots (pre ++ a :: b :: post) :=
    freeSlots_middle (freeSlots_join ha hb hab)
  have hinside : ∀ i ∈ ({a.index, b.footer} : Set Nat), i ∈ freeSlots (pre ++ a :: b :: post) := by
    rintro i (rfl | rfl)
    · exact index_mem_freeSlots (by simp) ha
    · exact footer_mem_freeSlots (by simp) hb
  have hb_out := nodup_middle (List.append_cons pre a (b :: post) ▸ C.holds.apart)
  have htags := (nodup_tagSlots_middle.mp (List.append_cons pre a (b :: post) ▸ C.holds.apart)).2
  have hothers : ∀ d ∈ pre ++ post, d ∈ pre ++ [a] ++ post := by
    intro d hd
    simp only [List.mem_append] at hd ⊢
    tauto
  -- both chunks leave their lists
  obtain ⟨h₁, hrun₁, M₁, W₁⟩ := C.midway.withdraw ha C.notMem_others
  obtain ⟨h₂, hrun₂, M₂, W₂⟩ := M₁.withdraw hb fun hc => hb_out (hothers b hc)
  -- the upper one is forgotten, the lower one takes its room
  rw [List.append_cons] at M₂
  have M₂' := M₂.forget fun hc => hb_out (hothers b hc)
  rw [← List.append_cons] at M₂'
  obtain ⟨h₃, hrun₃, M₃, W₃⟩ := M₂'.resize (n := (a.join b).units)
    (fun hc => C.notMem_others (by
      simp only [List.mem_append, List.mem_cons] at hc ⊢; tauto))
    (by rw [hfooter, W₂.size, W₁.size]; exact (C.holds.tagged b (by simp)).footer_lt)
    (by rw [hfooter]; exact fun hi => htags b.footer (by simp) (tagSlots_subset hothers hi))
  rw [hfooter] at W₃
  have hasc : Ascending (pre ++ a.withUnits (a.join b).units :: post) := by
    simpa [Ascending, List.pairwise_append, Chunk.stop, Chunk.join] using htiles.ascending
  obtain ⟨h₄, hrun₄, M₄, W₄⟩ := M₃.enroll (tiles_split.mp C.tiles).1 hasc
  have W : h.Within (freeSlots (pre ++ a :: b :: post)) h₄ :=
    (W₁.trans W₂).trans ((W₃.mono hinside).trans (W₄.mono hroom))
  refine ⟨h₄, ?_, ⟨M₄.holds, by rw [W.size]; exact htiles, by rw [W.config]; exact M₄.filed⟩, W⟩
  have hnext := (tiles_split.mp C.tiles).2.2.nextAdjacent_eq (C.holds.tagged a (by simp))
    C.holds.short
  have hfree := C.areFree_eq (a := a) (b := b) (by simp) (by simp)
  apply Action.Runs.bind (Action.runs_read (by exact hnext))
  apply Action.Runs.bind (Action.runs_require _ (by simp) _)
  apply Action.Runs.bind (Action.runs_read (by exact hfree))
  apply Action.Runs.bind (Action.runs_require _ (by rw [ha, hb]; rfl) _)
  apply Action.Runs.bind (Action.runs_read (by exact C.mergedUnits_eq))
  refine Action.Runs.bind hrun₁ (Action.Runs.bind hrun₂ (Action.Runs.bind hrun₃ ?_))
  exact Action.Runs.bind hrun₄ (Action.runs_record _ _)

end Consistent

end Heap

/-! ## Coalescing -/

/-- A sequence of chunks seen from one of them, with the free lists. -/
structure Focus where
  below : List Chunk
  chunk : Chunk
  above : List Chunk
  lists : FreeLists

namespace Focus

variable (config : Config) (f : Focus)

/-- All the chunks. -/
def chunks : List Chunk := f.below ++ f.chunk :: f.above

/-- The chunk has become free and is filed. -/
def freed : Focus :=
  { f with
    chunk := f.chunk.withStatus .free
    lists := f.lists.insert config f.below (f.chunk.withStatus .free) f.above }

/-- The chunk has been merged with the one above, where that is free. -/
def joinAbove : Focus :=
  match f.above with
  | [] => f
  | d :: rest =>
    if d.isFree then
      { below := f.below, chunk := f.chunk.join d, above := rest
        lists := ((f.lists.remove config f.chunk).remove config d).insert config f.below
          (f.chunk.join d) rest }
    else f

/-- The chunk has been merged with the one below, where that is free. -/
def joinBelow : Focus :=
  match f.below.getLast? with
  | none => f
  | some d =>
    if d.isFree then
      { below := f.below.dropLast, chunk := d.join f.chunk, above := f.above
        lists := ((f.lists.remove config d).remove config f.chunk).insert config f.below.dropLast
          (d.join f.chunk) f.above }
    else f

/-- What becomes of a chunk in use that is released. -/
def reclaimed : Focus := ((f.freed config).joinAbove config).joinBelow config

@[simp] theorem index_joinAbove : (f.joinAbove config).chunk.index = f.chunk.index := by
  unfold joinAbove
  split
  · rfl
  · split <;> rfl

variable {f}

theorem isFree_joinAbove (h : f.chunk.isFree) : (f.joinAbove config).chunk.isFree := by
  unfold joinAbove
  split
  · exact h
  · split
    · rfl
    · exact h

theorem isFree_joinBelow (h : f.chunk.isFree) : (f.joinBelow config).chunk.isFree := by
  unfold joinBelow
  split
  · exact h
  · split
    · rfl
    · exact h

theorem freeSlots_joinAbove {j : Nat} (h : f.chunk.isFree) (htiles : Tiles 0 f.chunks j) :
    freeSlots (f.joinAbove config).chunks ⊆ freeSlots f.chunks := by
  obtain ⟨below, c, above, lists⟩ := f
  cases above with
  | nil => exact Set.Subset.refl _
  | cons d rest =>
    cases hd : d.isFree
    · simp [joinAbove, hd]
    · simp only [joinAbove, hd, if_true]
      exact freeSlots_middle (freeSlots_join h hd (tiles_join htiles).1)

end Focus

namespace Heap

variable {h : Heap G} {f : Focus}

/-- The heap is consistent with what is seen from a chunk. -/
abbrev Shows (h : Heap G) (f : Focus) : Prop := h.Consistent f.chunks f.lists

/-- Merges the free chunk `c` with the one above, where that is free. -/
def mergeAbove (c : Nat) : Action (Heap G) Unit := do
  match ← Action.read (·.arena.freeAbove c) with
  | some next => merge c next
  | none => pure ()

/-- Merges the free chunk `c` with the one below, where that is free; the resulting chunk. -/
def mergeBelow (c : Nat) : Action (Heap G) Nat := do
  match ← Action.read (·.arena.freeBelow c) with
  | some prev =>
    merge prev c
    return prev
  | none => return c

theorem coalesce_eq (c : Nat) : (coalesce c : Action (Heap G) Nat) = (do
    mergeAbove c
    mergeBelow c) := by
  unfold coalesce mergeAbove
  simp only [bind_assoc]
  congr 1
  funext above
  cases above <;> rfl

namespace Consistent

theorem mergeAbove (C : h.Shows f) (hfree : f.chunk.isFree) :
    ∃ h', (Heap.mergeAbove f.chunk.index).Runs h () h' ∧ h'.Shows (f.joinAbove h.config) ∧
      h.Within (freeSlots f.chunks) h' := by
  obtain ⟨below, c, above, lists⟩ := f
  have habove := C.freeAbove_eq
  cases above with
  | nil =>
    refine ⟨h, ?_, C, Within.refl _ _⟩
    exact Action.Runs.bind (Action.runs_read (by exact habove)) (Action.runs_pure _ _)
  | cons d rest =>
    cases hd : d.isFree
    · have hsame : Focus.joinAbove h.config ⟨below, c, d :: rest, lists⟩ =
          ⟨below, c, d :: rest, lists⟩ := by simp [Focus.joinAbove, hd]
      rw [hsame]
      refine ⟨h, ?_, C, Within.refl _ _⟩
      apply Action.Runs.bind (Action.runs_read (by exact habove))
      simp only [List.head?_cons, Option.filter, hd]
      exact Action.runs_pure _ _
    · obtain ⟨h', hrun, C', W⟩ := C.merge hfree hd
      refine ⟨h', ?_, ?_, W⟩
      · apply Action.Runs.bind (Action.runs_read (by exact habove))
        simp only [List.head?_cons, Option.filter, hd]
        exact hrun
      · simp only [Focus.joinAbove, hd, if_true]
        exact C'

theorem mergeBelow (C : h.Shows f) (hfree : f.chunk.isFree) :
    ∃ h', (Heap.mergeBelow f.chunk.index).Runs h (f.joinBelow h.config).chunk.index h' ∧
      h'.Shows (f.joinBelow h.config) ∧ h.Within (freeSlots f.chunks) h' := by
  obtain ⟨below, c, above, lists⟩ := f
  have hbelow := C.freeBelow_eq
  rcases List.eq_nil_or_concat' below with rfl | ⟨below, d, rfl⟩
  · refine ⟨h, ?_, C, Within.refl _ _⟩
    exact Action.Runs.bind (Action.runs_read (by exact hbelow)) (Action.runs_pure _ _)
  · simp only [List.getLast?_concat, Option.filter] at hbelow
    cases hd : d.isFree
    · have hsame : Focus.joinBelow h.config ⟨below ++ [d], c, above, lists⟩ =
          ⟨below ++ [d], c, above, lists⟩ := by simp [Focus.joinBelow, hd]
      rw [hsame]
      refine ⟨h, ?_, C, Within.refl _ _⟩
      apply Action.Runs.bind (Action.runs_read (by exact hbelow))
      simp only [hd]
      exact Action.runs_pure _ _
    · have hjoin : Focus.joinBelow h.config ⟨below ++ [d], c, above, lists⟩ =
          ⟨below, d.join c, above,
            ((lists.remove h.config d).remove h.config c).insert h.config below (d.join c)
              above⟩ := by
        simp [Focus.joinBelow, hd]
      have hchunks : (Focus.mk (below ++ [d]) c above lists).chunks =
          below ++ d :: c :: above := by simp [Focus.chunks]
      have C₀ : h.Consistent (below ++ d :: c :: above) lists := hchunks ▸ C
      obtain ⟨h', hrun, C', W⟩ := C₀.merge hd hfree
      rw [hjoin, hchunks]
      refine ⟨h', ?_, C', W⟩
      apply Action.Runs.bind (Action.runs_read (by exact hbelow))
      simp only [hd]
      exact Action.Runs.bind hrun (Action.runs_pure _ _)

/-- A chunk in use is freed and merged with its free neighbours. -/
theorem reclaim (C : h.Shows f) (hused : f.chunk.status = .inUse) :
    ∃ h', (Heap.reclaim f.chunk.index).Runs h (f.reclaimed h.config).chunk.index h' ∧
      h'.Shows (f.reclaimed h.config) ∧ h.Within (freeSlots (f.freed h.config).chunks) h' := by
  have hfiled := (filed_of_inUse hused).mp C.filed
  obtain ⟨hbelow, hunits, habove⟩ := tiles_split.mp C.tiles
  have M : h.Midway h.config (f.below ++ f.chunk :: f.above) (f.below ++ f.above) f.lists :=
    ⟨rfl, C.holds, hfiled⟩
  obtain ⟨h₁, hrun₁, M₁, W₁⟩ := M.enroll hbelow C.ascending
  have htiles₁ : Tiles 0 (f.freed h.config).chunks h₁.arena.slots.size := by
    rw [W₁.size]; exact tiles_split.mpr ⟨hbelow, hunits, habove⟩
  have C₁ : h₁.Shows (f.freed h.config) := ⟨M₁.holds, htiles₁, by rw [W₁.config]; exact M₁.filed⟩
  obtain ⟨h₂, hrun₂, C₂, W₂⟩ := C₁.mergeAbove rfl
  rw [W₁.config] at C₂
  have hfree : ((f.freed h.config).joinAbove h.config).chunk.isFree :=
    Focus.isFree_joinAbove h.config rfl
  obtain ⟨h₃, hrun₃, C₃, W₃⟩ := C₂.mergeBelow hfree
  have W₁₂ := W₁.trans W₂
  rw [W₁₂.config, Focus.index_joinAbove] at hrun₃
  rw [W₁₂.config] at C₃
  refine ⟨h₃, ?_, C₃, W₁₂.trans (W₃.mono ?_)⟩
  · apply Action.Runs.bind hrun₁
    rw [coalesce_eq]
    exact Action.Runs.bind hrun₂ hrun₃
  · exact Focus.freeSlots_joinAbove h.config rfl htiles₁

end Consistent

end Heap

end BoundaryTag
