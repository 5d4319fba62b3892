import BoundaryTag.Proofs.Filing

/-!
# Consistent heaps

A heap is consistent with a sequence of chunks and with free lists when the
chunks tile the arena, their tags stand in memory, and the lists are filed and
threaded. Free neighbours are allowed: this is the state between two steps of an
operation. Within a step, some chunks are in no list and the chunks need not
tile; `Midway` is what is left then. Operations write to free chunks only, so
their frame is the set of the slots of free chunks, tags and data alike.

Results:

* `Holds.withdraw`, `Midway.withdraw`, `Midway.enroll`: a free chunk leaves and enters
  its list.
* `Midway.resizeListed`: a free chunk is resized where it stands in its list.
* `Midway.forget`, `Midway.mark`, `Midway.resize`: what is done to a chunk in no
  list.
* `Consistent.freeAbove_eq`, `Consistent.freeBelow_eq`: the free neighbours.
-/

namespace BoundaryTag

variable {G : Type} {pre post chunks l : List Chunk} {lists : FreeLists} {a b c d : Chunk}

/-! ## Slots of free chunks -/

/-- The slots that free chunks cover. -/
def freeSlots (chunks : List Chunk) : Set Nat :=
  {i | ∃ c ∈ chunks, c.isFree ∧ c.index ≤ i ∧ i < c.stop}

theorem mem_freeSlots_of_tag {i : Nat} (hl : ∀ c ∈ l, c ∈ chunks ∧ c.isFree)
    (hi : i ∈ tagSlots l) : i ∈ freeSlots chunks := by
  obtain ⟨c, hc, hi⟩ := mem_tagSlots.mp hi
  have := c.index_lt_footer
  have := c.footer_lt_stop
  exact ⟨c, (hl c hc).1, (hl c hc).2, by omega, by omega⟩

theorem index_mem_freeSlots (hc : c ∈ chunks) (hfree : c.isFree) : c.index ∈ freeSlots chunks :=
  ⟨c, hc, hfree, Nat.le_refl _, c.index_lt_stop⟩

theorem footer_mem_freeSlots (hc : c ∈ chunks) (hfree : c.isFree) :
    c.footer ∈ freeSlots chunks :=
  ⟨c, hc, hfree, Nat.le_of_lt c.index_lt_footer, c.footer_lt_stop⟩

theorem freeSlots_append (pre post : List Chunk) :
    freeSlots (pre ++ post) = freeSlots pre ∪ freeSlots post := by
  ext i
  simp only [freeSlots, Set.mem_ofPred_eq, Set.mem_union, List.mem_append]
  constructor
  · rintro ⟨c, hc | hc, h⟩
    · exact .inl ⟨c, hc, h⟩
    · exact .inr ⟨c, hc, h⟩
  · rintro (⟨c, hc, h⟩ | ⟨c, hc, h⟩)
    · exact ⟨c, .inl hc, h⟩
    · exact ⟨c, .inr hc, h⟩

/-- Replacing chunks in the middle by chunks that cover no further free slots. -/
theorem freeSlots_middle {m m' : List Chunk} (h : freeSlots m' ⊆ freeSlots m) :
    freeSlots (pre ++ (m' ++ post)) ⊆ freeSlots (pre ++ (m ++ post)) := by
  rw [freeSlots_append, freeSlots_append, freeSlots_append, freeSlots_append]
  exact Set.union_subset_union_right _ (Set.union_subset_union_left _ h)

namespace Heap

variable {h h' h'' : Heap G}

/-! ## Frames -/

/-- The heap `h'` differs from `h` in its heads and in slots of `S` only. -/
def Within (h : Heap G) (S : Set Nat) (h' : Heap G) : Prop := h.Alters S S S h'

namespace Within

variable {S T : Set Nat}

theorem refl (h : Heap G) (S : Set Nat) : h.Within S h := Alters.refl h S S S

theorem mono (W : h.Within S h') (hS : S ⊆ T) : h.Within T h' := Alters.mono W hS hS hS

theorem trans (W : h.Within S h') (W' : h'.Within S h'') : h.Within S h'' := Alters.trans W W'

theorem of_alters {L U V : Set Nat} (A : h.Alters L U V h') (hL : L ⊆ S) (hU : U ⊆ S)
    (hV : V ⊆ S) : h.Within S h' := A.mono hL hU hV

theorem config (W : h.Within S h') : h'.config = h.config := Alters.config W

theorem arena (W : h.Within S h') : h.arena.Alters S S S h'.arena := Alters.arena W

theorem size (W : h.Within S h') : h'.arena.slots.size = h.arena.slots.size := W.arena.size

theorem getElem?_eq (W : h.Within S h') {i : Nat} (hi : i ∉ S) :
    h'.arena.slots[i]? = h.arena.slots[i]? := W.arena.getElem?_eq hi hi hi

end Within

/-- A listed chunk leaves the list of its class. -/
theorem Holds.withdraw (H : h.Holds chunks lists) (hc : c ∈ lists (h.config.classOf c.units)) :
    ∃ h', (Heap.unlink c.index).Runs h () h' ∧ h'.Holds chunks (lists.remove h.config c) ∧
      h.Alters {i | i ∈ tagSlots (lists (h.config.classOf c.units))} ∅ ∅ h' := by
  obtain ⟨l₁, l₂, hl, hl₁⟩ := List.eq_append_cons_of_mem hc
  obtain ⟨h', hrun, H', A, -, -⟩ := H.unlink hl
  have hlists : lists.remove h.config c =
      Function.update lists (h.config.classOf c.units) (l₁ ++ l₂) := by
    unfold FreeLists.remove
    rw [hl, List.erase_append_right _ hl₁, List.erase_cons_head]
  exact ⟨h', hrun, hlists ▸ H', A⟩

/-! ## In the middle of a step -/

/-- The tags of `chunks` stand in memory, and the free lists are those of the chunks `listed`. -/
structure Midway (h : Heap G) (config : Config) (chunks listed : List Chunk)
    (lists : FreeLists) : Prop where
  config_eq : h.config = config
  holds : h.Holds chunks lists
  filed : Filed config listed lists

namespace Midway

variable {config : Config} {listed : List Chunk}

theorem tags_subset_freeSlots (M : h.Midway config chunks listed lists) (k : SizeClass) :
    {i | i ∈ tagSlots (lists k)} ⊆ freeSlots chunks := fun _ hi =>
  mem_freeSlots_of_tag (fun c hc => ⟨(M.holds.listed k c hc).1, (M.holds.listed k c hc).2.1⟩) hi

/-- A listed chunk leaves the list of its class. -/
theorem withdraw (M : h.Midway config chunks (pre ++ c :: post) lists) (hfree : c.isFree)
    (hout : c ∉ pre ++ post) :
    ∃ h', (Heap.unlink c.index).Runs h () h' ∧
      h'.Midway config chunks (pre ++ post) (lists.remove config c) ∧
      h.Within (freeSlots chunks) h' := by
  obtain ⟨rfl, H, F⟩ := M
  obtain ⟨h', hrun, H', A⟩ := H.withdraw (F.mem_iff.mpr ⟨by simp, hfree, rfl⟩)
  refine ⟨h', hrun, ⟨A.config, H', F.remove hfree hout⟩, ?_⟩
  have hsubset := tags_subset_freeSlots ⟨rfl, H, F⟩ (h.config.classOf c.units)
  exact Within.of_alters A hsubset (Set.empty_subset _) (Set.empty_subset _)

/-- A chunk in no list becomes free and enters the list of its class. -/
theorem enroll (M : h.Midway config (pre ++ c :: post) (pre ++ post) lists)
    (htiles : Tiles 0 pre c.index) (hasc : Ascending (pre ++ c :: post)) :
    ∃ h', (Heap.file c.index).Runs h () h' ∧
      h'.Midway config (pre ++ c.withStatus .free :: post) (pre ++ c.withStatus .free :: post)
        (lists.insert config pre (c.withStatus .free) post) ∧
      h.Within (freeSlots (pre ++ c.withStatus .free :: post)) h' := by
  obtain ⟨rfl, H, F⟩ := M
  obtain ⟨h', hrun, H', A⟩ := H.file F htiles hasc
  refine ⟨h', hrun, ⟨A.config, H', F.insert rfl⟩, Within.of_alters A ?_ (Set.empty_subset _) ?_⟩
  · rintro i (hi : i ∈ tagSlots (c.withStatus .free :: lists (h.config.classOf c.units)))
    refine mem_freeSlots_of_tag ?_ hi
    intro d hd
    rcases List.mem_cons.mp hd with rfl | hd
    · exact ⟨by simp, rfl⟩
    · have hd' := F.mem_iff.mp hd
      exact ⟨List.perm_middle.mem_iff.mpr (List.mem_cons_of_mem _ hd'.1), hd'.2.1⟩
  · rintro i rfl
    exact index_mem_freeSlots (c := c.withStatus .free) (by simp) rfl

/-- A chunk in no list is left out. -/
theorem forget (M : h.Midway config (pre ++ c :: post) listed lists) (hout : c ∉ listed) :
    h.Midway config (pre ++ post) listed lists :=
  ⟨M.config_eq, M.holds.drop (M.filed.notMem fun hc => hout hc.1), M.filed⟩

/-- A chunk in no list is marked. -/
theorem mark (M : h.Midway config (pre ++ c :: post) listed lists) (hout : c ∉ listed)
    (s : Status) :
    ∃ h', (onArena (Arena.setStatus c.index s)).Runs h () h' ∧
      h'.Midway config (pre ++ c.withStatus s :: post) listed lists ∧
      h.Within {c.index} h' := by
  obtain ⟨h', hrun, H', A⟩ := M.holds.setStatus (M.filed.notMem fun hc => hout hc.1) s
  refine ⟨h', hrun, ⟨A.config.trans M.config_eq, H', M.filed⟩, ?_⟩
  exact Within.of_alters A (Set.empty_subset _) (Set.empty_subset _) (Set.Subset.refl _)

/-- A chunk in no list is resized. -/
theorem resize (M : h.Midway config (pre ++ c :: post) listed lists) (hout : c ∉ listed) {n : Nat}
    (hlt : (c.withUnits n).footer < h.arena.slots.size)
    (hfooter : (c.withUnits n).footer ∉ tagSlots (pre ++ post)) :
    ∃ h', (onArena (Arena.setUnits c.index n)).Runs h () h' ∧
      h'.Midway config (pre ++ c.withUnits n :: post) listed lists ∧
      h.Within {c.index, (c.withUnits n).footer} h' := by
  obtain ⟨h', hrun, H', A⟩ :=
    M.holds.setUnits (M.filed.notMem fun hc => hout hc.1) hlt hfooter
  refine ⟨h', hrun, ⟨A.config.trans M.config_eq, H', M.filed⟩, ?_⟩
  exact Within.of_alters A (Set.empty_subset _) (Set.Subset.refl _) (Set.empty_subset _)

/-- A listed chunk is resized within its class, where it stands in its list. -/
theorem resizeListed (M : h.Midway config (pre ++ c :: post) (pre ++ c :: post) lists)
    (hfree : c.isFree) {n : Nat} (hn : config.classOf n = config.classOf c.units)
    (hlt : (c.withUnits n).footer < h.arena.slots.size)
    (hfooter : (c.withUnits n).footer ∉ tagSlots (pre ++ post)) :
    ∃ h', (onArena (Arena.resizeInPlace c.index n)).Runs h () h' ∧
      h'.Midway config (pre ++ c.withUnits n :: post) (pre ++ c.withUnits n :: post)
        (lists.resize config c n) ∧
      h.Alters {(c.withUnits n).footer} {c.index, (c.withUnits n).footer} ∅ h' := by
  obtain ⟨rfl, H, F⟩ := M
  have hc : c ∈ lists (h.config.classOf c.units) := F.mem_iff.mpr ⟨by simp, hfree, rfl⟩
  obtain ⟨l₁, l₂, hl, hl₁⟩ := List.eq_append_cons_of_mem hc
  obtain ⟨h', hrun, H', A⟩ := H.resizeInPlace hl hn hlt hfooter
  have hlists : lists.resize h.config c n =
      Function.update lists (h.config.classOf c.units) (l₁ ++ c.withUnits n :: l₂) := by
    unfold FreeLists.resize
    rw [hl, List.replace_append_right hl₁, List.replace_cons_self]
  exact ⟨h', hrun, ⟨A.config, hlists ▸ H', F.resize hfree (nodup_middle H.apart) hn⟩, A⟩

end Midway

/-! ## Consistency -/

/-- The chunks tile the arena, and the lists are the free lists of the heap. -/
structure Consistent (h : Heap G) (chunks : List Chunk) (lists : FreeLists) : Prop where
  holds : h.Holds chunks lists
  tiles : Tiles 0 chunks h.arena.slots.size
  filed : Filed h.config chunks lists

namespace Consistent

theorem midway (C : h.Consistent chunks lists) : h.Midway h.config chunks chunks lists :=
  ⟨rfl, C.holds, C.filed⟩

theorem ascending (C : h.Consistent chunks lists) : Ascending chunks := C.tiles.ascending

theorem notMem_others (C : h.Consistent (pre ++ c :: post) lists) : c ∉ pre ++ post :=
  nodup_middle C.holds.apart

/-! ## Free neighbours -/

theorem freeAbove_eq (C : h.Consistent (pre ++ c :: post) lists) :
    h.arena.freeAbove c.index =
      .ok ((post.head?.filter Chunk.isFree).map Chunk.index) := by
  have hnext := (tiles_split.mp C.tiles).2.2.nextAdjacent_eq (C.holds.tagged c (by simp))
    C.holds.short
  unfold Arena.freeAbove
  rw [hnext]
  cases post with
  | nil => rfl
  | cons d post =>
    have hd := (C.holds.tagged d (by simp)).isFree_eq
    simp only [List.head?_cons, Option.map_some, bind, Except.bind, hd, Option.filter]
    cases d.isFree <;> rfl

theorem freeBelow_eq (C : h.Consistent (pre ++ c :: post) lists) :
    h.arena.freeBelow c.index =
      .ok ((pre.getLast?.filter Chunk.isFree).map Chunk.index) := by
  have hprev := (tiles_split.mp C.tiles).1.prevAdjacent_eq fun d hd =>
    C.holds.tagged d (List.mem_append_left _ hd)
  unfold Arena.freeBelow
  rw [hprev]
  rcases List.eq_nil_or_concat' pre with rfl | ⟨pre, d, rfl⟩
  · rfl
  · have hd := (C.holds.tagged d (by simp)).isFree_eq
    simp only [List.getLast?_concat, Option.map_some, bind, Except.bind, hd, Option.filter]
    cases d.isFree <;> rfl

end Consistent

end Heap

end BoundaryTag
