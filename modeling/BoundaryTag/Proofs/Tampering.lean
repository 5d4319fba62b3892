import BoundaryTag.Proofs.Verdict

/-!
# Tampering

The fields of the tags and the heads bear each other out: a size stands in the header
and in the footer, a list is linked both ways, and the number of its entries is known.
So the inspection notices when a single one of them is another than it was: a status,
the size in a footer, a back link, or a link or head that leads nowhere, out of the
arena or to any header. A link that leads into the data of a chunk is not among them,
for what stands there may look like a free chunk.

Results:

* `Tiles.exists_span`: the sizes in the headers determine where the chunks are.
* `WellFormed.not_inspected_of_misled`: no list goes on elsewhere than it did.
* `exists_finding_of_tampered`: one field that was changed is found out.
-/

namespace BoundaryTag

variable {G : Type} {chunks chunks' l m l₁ l₂ rest : List Chunk} {lists lists' : FreeLists}
  {c d : Chunk} {k : SizeClass} {v : Option Nat} {i j : Nat}

/-! ## Fields overwritten -/

namespace Arena

/-- The arena with any status word in slot `i`. -/
def overwriteStatus (a : Arena G) (i : Nat) (w : UInt32) : Arena G :=
  a.modified i fun tag => { tag with status := w }

/-- The arena with any unit count in slot `i`. -/
def overwriteUnits (a : Arena G) (i : Nat) (n : UInt32) : Arena G :=
  a.modified i fun tag => { tag with units := n }

/-- The arena with any link word in slot `i`. -/
def overwriteLink (a : Arena G) (i : Nat) (w : UInt64) : Arena G :=
  a.modified i fun tag => { tag with link := w }

section Overwrite

variable (a : Arena G) (i : Nat)

theorem getElem?_modified_of_ne (g : Slot → Slot) {j : Nat} (hj : j ∉ ({i} : Set Nat)) :
    (a.modified i g).slots[j]? = a.slots[j]? := by
  rw [getElem?_modified, if_neg fun h => hj h.symm]

theorem alters_overwriteStatus (w : UInt32) : a.Alters ∅ ∅ {i} (a.overwriteStatus i w) where
  start := rfl
  size := size_modified ..
  grower := rfl
  links j _ := congrFun (linkAt_modified a i _ (by intro t; rfl)) j
  units j _ := map_modified a i _ _ (by intro t; rfl) j
  words j hj := by rw [wordAt, overwriteStatus, getElem?_modified_of_ne a i _ hj, wordAt]

theorem alters_overwriteUnits (n : UInt32) : a.Alters ∅ {i} ∅ (a.overwriteUnits i n) where
  start := rfl
  size := size_modified ..
  grower := rfl
  links j _ := congrFun (linkAt_modified a i _ (by intro t; rfl)) j
  units j hj := by rw [unitsAt, overwriteUnits, getElem?_modified_of_ne a i _ hj, unitsAt]
  words j _ := map_modified a i _ _ (by intro t; rfl) j

theorem alters_overwriteLink (w : UInt64) : a.Alters {i} ∅ ∅ (a.overwriteLink i w) where
  start := rfl
  size := size_modified ..
  grower := rfl
  links j hj := by rw [linkAt, overwriteLink, getElem?_modified_of_ne a i _ hj, linkAt]
  units j _ := map_modified a i _ _ (by intro t; rfl) j
  words j _ := map_modified a i _ _ (by intro t; rfl) j

variable {a i} (hi : i < a.slots.size)

include hi

theorem wordAt_overwriteStatus (w : UInt32) : (a.overwriteStatus i w).wordAt i = some w := by
  rw [wordAt, overwriteStatus, getElem?_modified, if_pos rfl, Array.getElem?_eq_getElem hi]
  rfl

theorem unitsAt_overwriteUnits (n : UInt32) :
    (a.overwriteUnits i n).unitsAt i = some n.toNat := by
  rw [unitsAt, overwriteUnits, getElem?_modified, if_pos rfl, Array.getElem?_eq_getElem hi]
  rfl

theorem linkAt_overwriteLink (w : UInt64) :
    (a.overwriteLink i w).linkAt = Function.update a.linkAt i (Link.decode w) := by
  funext j
  by_cases hj : j = i
  · subst hj
    rw [linkAt, overwriteLink, getElem?_modified, if_pos rfl, Array.getElem?_eq_getElem hi,
      Function.update_self]
    rfl
  · rw [(a.alters_overwriteLink i w).links j hj, Function.update_of_ne hj]

end Overwrite

end Arena

/-! ## Sizes and order -/

/-- Where the sizes in the headers agree, so do the places of the chunks. -/
theorem Tiles.exists_span (hl : Tiles i l j) (hm : Tiles i m j)
    (hsize : ∀ c ∈ l, ∀ d ∈ m, c.index = d.index → c.units = d.units) :
    ∀ c ∈ l, ∃ d ∈ m, d.index = c.index ∧ d.units = c.units := by
  induction l generalizing i m with
  | nil => simp
  | cons c l ih =>
    obtain ⟨rfl, -, hl⟩ := hl
    cases m with
    | nil =>
      have hij : c.index = j := hm
      have := hl.le
      have := c.index_lt_stop
      omega
    | cons d m =>
      obtain ⟨hindex, -, hm⟩ := hm
      have hunits : c.units = d.units := hsize c (by simp) d (by simp) hindex.symm
      have hstop : d.stop = c.stop := by rw [Chunk.stop, Chunk.stop, hindex, hunits]
      rw [hstop] at hm
      intro e he
      rcases List.mem_cons.mp he with rfl | he
      · exact ⟨d, by simp, hindex, hunits.symm⟩
      · obtain ⟨f, hf, hspan⟩ := ih hl hm
          (fun c hc d hd => hsize c (by simp [hc]) d (by simp [hd])) e he
        exact ⟨f, by simp [hf], hspan⟩

/-- Two beginnings of a list with the same last chunk are the same. -/
theorem eq_nil_of_exit_eq (hnodup : ((l ++ m).map Chunk.index).Nodup)
    (h : exit none (l ++ m) = exit none l) : m = [] := by
  rcases List.eq_nil_or_concat' m with rfl | ⟨m, c, rfl⟩
  · rfl
  · rw [← List.append_assoc, exit_concat] at h
    obtain ⟨d, hd, hindex⟩ := mem_exit h.symm
    rw [List.map_append] at hnodup
    have hdisjoint := List.disjoint_of_nodup_append hnodup
    refine absurd (List.mem_map_of_mem hd) fun hd' => hdisjoint hd' ?_
    rw [hindex]
    exact List.mem_map_of_mem (by simp)

/-- The entry whose back link names the last chunk of a beginning comes right behind it. -/
theorem Threaded.entry_eq_of_back {link : Nat → Option Nat}
    (h : Threaded link none (l₁ ++ l₂) none) (hnodup : ((l₁ ++ l₂).map Chunk.index).Nodup)
    (hd : d ∈ l₁ ++ l₂) (hback : link d.footer = exit none l₁) :
    entry l₂ none = some d.index := by
  obtain ⟨pre, post, hsplit⟩ := List.append_of_mem hd
  rw [hsplit] at h
  have hexit : exit none pre = exit none l₁ := (threaded_append.mp h).2.1.symm.trans hback
  rcases List.append_eq_append_iff.mp hsplit with ⟨m, rfl, rfl⟩ | ⟨m, rfl, hpost⟩
  · rw [← List.append_assoc, List.map_append] at hnodup
    obtain rfl := eq_nil_of_exit_eq hnodup.of_append_left hexit
    rfl
  · have hnodup' := hnodup
    rw [List.map_append] at hnodup'
    obtain rfl := eq_nil_of_exit_eq hnodup'.of_append_left hexit.symm
    rw [List.nil_append] at hpost
    rw [← hpost]
    rfl

/-- What has fewer entries in one list and no more in the others has fewer in all. -/
theorem FreeLists.length_entries_lt (hle : ∀ j, (lists' j).length ≤ (lists j).length)
    (hlt : (lists' k).length < (lists k).length) :
    lists'.entries.length < lists.entries.length := by
  rw [length_entries, length_entries, ← Fin.sum_univ_def, ← Fin.sum_univ_def]
  exact Finset.sum_lt_sum (fun j _ => hle j) ⟨k, Finset.mem_univ k, hlt⟩

namespace Heap

variable {h h' : Heap G}

/-! ## Readings of a tampered heap -/

/-- A link to nothing, out of the arena, or to the header of a chunk: not to a shadow. -/
def NoShadow (h : Heap G) (chunks : List Chunk) (v : Option Nat) : Prop :=
  ∀ i ∈ v, h.arena.slots.size ≤ i ∨ ∃ c ∈ chunks, i = c.index

/-- The heap `h'` is `h` with one field replaced by another value: the status of a chunk, its size
in the footer, the link back or the link on of a free chunk, or the head of a list. -/
inductive Tampered (h : Heap G) (chunks : List Chunk) : Heap G → Prop where
  | status {c : Chunk} {w : UInt32} (hc : c ∈ chunks) (hw : w ≠ c.status.word) :
    Tampered h chunks (h.withArena (h.arena.overwriteStatus c.index w))
  | footerUnits {c : Chunk} {n : UInt32} (hc : c ∈ chunks) (hn : n.toNat ≠ c.units) :
    Tampered h chunks (h.withArena (h.arena.overwriteUnits c.footer n))
  /-- Link words are told apart by the chunks they name. -/
  | backLink {c : Chunk} {w : UInt64} (hc : c ∈ chunks) (hfree : c.isFree)
    (hw : Link.decode w ≠ h.arena.linkAt c.footer) :
    Tampered h chunks (h.withArena (h.arena.overwriteLink c.footer w))
  | nextLink {c : Chunk} {w : UInt64} (hc : c ∈ chunks) (hfree : c.isFree)
    (hw : Link.decode w ≠ h.arena.linkAt c.index) (hv : h.NoShadow chunks (Link.decode w)) :
    Tampered h chunks (h.withArena (h.arena.overwriteLink c.index w))
  | head {k : SizeClass} {v : Option Nat} (hne : v ≠ h.head k) (hv : h.NoShadow chunks v) :
    Tampered h chunks (h.withHead k v)

theorem Tampered.size_eq (T : h.Tampered chunks h') :
    h'.arena.slots.size = h.arena.slots.size := by
  cases T with
  | head => rfl
  | _ => exact Arena.size_modified ..

/-- A list whose links on are those of a thread from its head. -/
theorem Inspected.exists_rest {link : Nat → Option Nat} (I : h'.Inspected chunks' lists')
    (hl : Threaded link none l v) (hnext : ∀ c ∈ l, h'.arena.linkAt c.index = link c.index)
    (hhead : h'.head k = entry l v)
    (hsame : ∀ c ∈ l, ∀ d : Chunk, d.TaggedIn h'.arena → d.isFree → c.index = d.index → c = d) :
    ∃ rest, lists' k = l ++ rest ∧ entry rest none = v := by
  refine hl.exists_rest (I.enlisted k).threaded hnext (hhead.symm.trans (I.heads k)) ?_
  intro c hc d hd
  have hentry := I.entry_of_mem hd
  exact hsame c hc d hentry.tagged hentry.free

/-- A list whose links on are as they were. -/
theorem Inspected.eq_of_threaded {link : Nat → Option Nat} (I : h'.Inspected chunks' lists')
    (hl : Threaded link none l none) (hnext : ∀ c ∈ l, h'.arena.linkAt c.index = link c.index)
    (hhead : h'.head k = entry l none)
    (hsame : ∀ c ∈ l, ∀ d : Chunk, d.TaggedIn h'.arena → d.isFree → c.index = d.index → c = d) :
    lists' k = l := by
  obtain ⟨rest, hrest, hentry⟩ := I.exists_rest hl hnext hhead hsame
  cases rest with
  | nil => rw [hrest, List.append_nil]
  | cons d rest => cases hentry

/-- Where no tag was changed the chunks are those that were there. -/
theorem Inspected.chunks_eq {L : Set Nat} (I : h'.Inspected chunks' lists')
    (W : h.WellFormed chunks lists) (A : h.arena.Alters L ∅ ∅ h'.arena) : chunks' = chunks := by
  have htiles := W.tiles
  rw [← A.size] at htiles
  refine I.tiles.unique htiles I.tagged fun c hc => ?_
  exact (W.tagged c hc).alters A (by simp) (by simp) (by simp)

namespace WellFormed

theorem nodup_index (W : h.WellFormed chunks lists) (k : SizeClass) :
    ((lists k).map Chunk.index).Nodup := by
  refine (W.filed.nodup W.nodup k).map_on fun c hc d hd hindex => ?_
  exact (W.entry_of_listed hc).tagged.unique (W.entry_of_listed hd).tagged hindex

/-! ## Links and heads -/

/-- No list goes on elsewhere than it did: the chunk there would be a free chunk of the class, and
those have back links to their places; at the end of the list the others would be missing. -/
theorem not_inspected_of_misled (W : h.WellFormed chunks lists) (I : h'.Inspected chunks lists')
    (hconfig : h'.config = h.config)
    (hback : ∀ c ∈ chunks, h'.arena.linkAt c.footer = h.arena.linkAt c.footer)
    (hold : lists k = l₁ ++ l₂) (hnew : lists' k = l₁ ++ rest)
    (hother : ∀ j ≠ k, lists' j = lists j) (hv : h.NoShadow chunks (entry rest none))
    (hne : entry rest none ≠ entry l₂ none) : False := by
  cases rest with
  | nil =>
    have hl₂ : l₂ ≠ [] := fun hnil => hne (by rw [hnil])
    have hshort : (lists' k).length < (lists k).length := by
      rw [hold, hnew, List.length_append, List.length_append, List.length_nil]
      exact Nat.add_lt_add_left (List.length_pos_iff.mpr hl₂) _
    have hle : ∀ j, (lists' j).length ≤ (lists j).length := by
      intro j
      by_cases hj : j = k
      · exact hj ▸ Nat.le_of_lt hshort
      · rw [hother j hj]
    have hcount := FreeLists.length_entries_lt hle hshort
    rw [I.count, W.length_entries] at hcount
    exact Nat.lt_irrefl _ hcount
  | cons d rest =>
    have hentry : h'.Entry k d := I.entry_of_mem (by rw [hnew]; simp)
    -- what comes next is a chunk of the tiling
    have hd : d ∈ chunks := by
      rcases hv d.index rfl with houtside | ⟨c, hc, hindex⟩
      · have hsize := I.tiles.stop_unique W.tiles
        have := hentry.tagged.index_lt
        omega
      · rwa [hentry.tagged.unique (I.tagged c hc) hindex]
    have hclass := hentry.classOf_eq
    rw [hconfig] at hclass
    have hlisted : d ∈ l₁ ++ l₂ := hold ▸ W.filed.mem_iff.mpr ⟨hd, hentry.free, hclass⟩
    have hthread := W.threaded k
    have hnodup := W.nodup_index k
    have hthread' := (I.enlisted k).threaded
    rw [hold] at hthread hnodup
    rw [hnew] at hthread'
    have hexit := (threaded_append.mp hthread').2.1
    rw [hback d hd] at hexit
    exact hne (hthread.entry_eq_of_back hnodup hlisted hexit).symm

section Fields

variable (W : h.WellFormed chunks lists)

include W

theorem index_ne_footer (hc : c ∈ chunks) (hd : d ∈ chunks) : c.index ≠ d.footer := by
  by_cases hcd : c = d
  · exact hcd ▸ Nat.ne_of_lt c.index_lt_footer
  · exact (tagSlots_apart (nodup_tagSlots W.tiles.ascending) hc hd hcd).2.1

/-- The tags in a heap that differs by links are those of its chunks. -/
theorem eq_of_tagged {L : Set Nat} (A : h.arena.Alters L ∅ ∅ h'.arena) (hc : c ∈ chunks)
    (hd : d.TaggedIn h'.arena) (hindex : c.index = d.index) : c = d :=
  ((W.tagged c hc).alters A (by simp) (by simp) (by simp)).unique hd hindex

/-- A head that leads elsewhere. -/
theorem not_inspected_withHead (hne : v ≠ h.head k) (hv : h.NoShadow chunks v)
    (I : (h.withHead k v).Inspected chunks' lists') : False := by
  have A : h.arena.Alters ∅ ∅ ∅ (h.withHead k v).arena := Arena.Alters.refl ..
  obtain rfl := I.chunks_eq W A
  have hlisted : ∀ j, ∀ c ∈ lists j, c ∈ chunks' := fun j c hc => (W.filed.mem_iff.mp hc).1
  have hhead : (h.withHead k v).head k = entry [] v := by
    rw [head_withHead, if_pos rfl]
    rfl
  obtain ⟨rest, hrest, hentry⟩ := I.exists_rest
    (show Threaded h.arena.linkAt none [] v from trivial) (by simp) hhead (by simp)
  refine W.not_inspected_of_misled I rfl (fun _ _ => rfl) (List.nil_append _).symm hrest ?_
    (hentry ▸ hv) ?_
  · intro j hj
    refine I.eq_of_threaded (W.threaded j) (fun _ _ => rfl) ?_ ?_
    · rw [head_withHead, if_neg hj, W.heads]
    · exact fun c hc d hd _ hindex => W.eq_of_tagged A (hlisted j c hc) hd hindex
  · rw [hentry, ← W.heads]
    exact hne

/-- A link on that leads elsewhere. -/
theorem not_inspected_nextLink {w : UInt64} (hc : c ∈ chunks) (hfree : c.isFree)
    (hw : Link.decode w ≠ h.arena.linkAt c.index) (hv : h.NoShadow chunks (Link.decode w))
    (I : (h.withArena (h.arena.overwriteLink c.index w)).Inspected chunks' lists') : False := by
  have A : h.arena.Alters {c.index} ∅ ∅ (h.withArena (h.arena.overwriteLink c.index w)).arena :=
    h.arena.alters_overwriteLink c.index w
  obtain rfl := I.chunks_eq W A
  have hlinks := Arena.linkAt_overwriteLink (W.tagged c hc).index_lt w
  have hlisted : ∀ j, ∀ d ∈ lists j, d ∈ chunks' := fun j d hd => (W.filed.mem_iff.mp hd).1
  have hsame : ∀ j, ∀ d ∈ lists j, ∀ e : Chunk, e.TaggedIn (h.arena.overwriteLink c.index w) →
      e.isFree → d.index = e.index → d = e :=
    fun j d hd e he _ hindex => W.eq_of_tagged A (hlisted j d hd) he hindex
  obtain ⟨l₁, l₂, hsplit⟩ := List.append_of_mem (W.filed.mem_iff.mpr ⟨hc, hfree, rfl⟩)
  rw [List.append_cons] at hsplit
  have htags := nodup_tagSlots_of_subset (nodup_tagSlots W.tiles.ascending)
    (W.filed.nodup W.nodup _) (hlisted (h.config.classOf c.units))
  have hthread := W.threaded (h.config.classOf c.units)
  rw [hsplit] at hthread htags
  rw [tagSlots_append] at htags
  have hfront := (threaded_append.mp hthread).1
  -- the walk along the list of the chunk comes as far as before, and goes on where the link leads
  obtain ⟨rest, hrest, hentry⟩ := I.exists_rest (k := h.config.classOf c.units)
    (hfront.relinkLast htags.of_append_left (Link.decode w))
    (by
      intro d _
      rw [arena_withArena, hlinks, relinkLast, List.getLast?_concat])
    (by
      rw [head_withArena, W.heads, hsplit]
      simp)
    (fun d hd => hsame _ d (hsplit ▸ List.mem_append_left _ hd))
  refine W.not_inspected_of_misled I rfl ?_ hsplit hrest ?_ (hentry ▸ hv) ?_
  · exact fun d hd => A.links _ (Ne.symm (W.index_ne_footer hc hd))
  · intro j hj
    refine I.eq_of_threaded (W.threaded j) ?_ (W.heads j) (hsame j)
    intro d hd
    have hdc : d ≠ c := by
      rintro rfl
      exact hj (W.filed.mem_iff.mp hd).2.2.symm
    exact A.links _ (tagSlots_apart (nodup_tagSlots W.tiles.ascending) (hlisted j d hd) hc hdc).1
  · rw [hentry, ← (threaded_concat.mp hfront).2.2]
    exact hw

/-- A link back to another chunk than the one before. -/
theorem not_inspected_backLink {w : UInt64} (hc : c ∈ chunks) (hfree : c.isFree)
    (hw : Link.decode w ≠ h.arena.linkAt c.footer)
    (I : (h.withArena (h.arena.overwriteLink c.footer w)).Inspected chunks' lists') : False := by
  have A := h.arena.alters_overwriteLink c.footer w
  obtain rfl := I.chunks_eq W A
  have hlisted : c ∈ lists (h.config.classOf c.units) := W.filed.mem_iff.mpr ⟨hc, hfree, rfl⟩
  have hlist : lists' (h.config.classOf c.units) = lists (h.config.classOf c.units) := by
    refine I.eq_of_threaded (W.threaded _) ?_ (W.heads _) ?_
    · exact fun d hd => A.links _ (W.index_ne_footer (W.filed.mem_iff.mp hd).1 hc)
    · exact fun d hd e he _ hindex => W.eq_of_tagged A (W.filed.mem_iff.mp hd).1 he hindex
  obtain ⟨l₁, l₂, hsplit⟩ := List.append_of_mem hlisted
  have hthread := W.threaded (h.config.classOf c.units)
  have hthread' := (I.enlisted (h.config.classOf c.units)).threaded
  rw [hlist, hsplit] at hthread'
  rw [hsplit] at hthread
  have hback := (threaded_append.mp hthread').2.1
  rw [arena_withArena, Arena.linkAt_overwriteLink (W.tagged c hc).footer_lt,
    Function.update_self] at hback
  exact hw (hback.trans (threaded_append.mp hthread).2.1.symm)

/-! ## Sizes and statuses -/

/-- Where the headers have the sizes that they had, each chunk is at its place. -/
theorem exists_span {L U S : Set Nat} (I : h'.Inspected chunks' lists')
    (A : h.arena.Alters L U S h'.arena) (hheaders : ∀ d ∈ chunks, d.index ∉ U) (hc : c ∈ chunks) :
    ∃ d ∈ chunks', d.index = c.index ∧ d.units = c.units := by
  have htiles := W.tiles
  rw [← A.size] at htiles
  refine htiles.exists_span I.tiles (fun e he d hd hindex => ?_) c hc
  have hheader := (I.tagged d hd).units
  rw [← hindex, A.units _ (hheaders e he), (W.tagged e he).units] at hheader
  exact Option.some.inj hheader

/-- A footer with another size than the header. -/
theorem not_inspected_footerUnits {n : UInt32} (hc : c ∈ chunks) (hn : n.toNat ≠ c.units)
    (I : (h.withArena (h.arena.overwriteUnits c.footer n)).Inspected chunks' lists') : False := by
  have A := h.arena.alters_overwriteUnits c.footer n
  obtain ⟨d, hd, hindex, hunits⟩ := W.exists_span I A (fun e he => W.index_ne_footer he hc) hc
  have hfooter := (I.tagged d hd).footer
  rw [show d.footer = c.footer by rw [Chunk.footer, Chunk.footer, hindex, hunits], arena_withArena,
    Arena.unitsAt_overwriteUnits (W.tagged c hc).footer_lt, hunits] at hfooter
  exact hn (Option.some.inj hfooter)

end Fields

section Status

variable {pre post : List Chunk} (W : h.WellFormed (pre ++ c :: post) lists)

include W

/-- Where one chunk is another one of the same size, and the others are tagged as before, these are
all chunks. -/
theorem chunks_eq_middle (I : h'.Inspected chunks' lists')
    (hsize : h'.arena.slots.size = h.arena.slots.size)
    (hothers : ∀ e ∈ pre ++ c :: post, e ≠ c → e.TaggedIn h'.arena) (hd : d ∈ chunks')
    (hindex : d.index = c.index) (hunits : d.units = c.units) : chunks' = pre ++ d :: post := by
  have htiles := W.tiles
  rw [← hsize] at htiles
  obtain ⟨hpre, hu, hpost⟩ := tiles_split.mp htiles
  have hstop : d.stop = c.stop := by rw [Chunk.stop, Chunk.stop, hindex, hunits]
  refine I.tiles.unique (tiles_split.mpr ⟨hindex ▸ hpre, hunits ▸ hu, hstop ▸ hpost⟩) I.tagged ?_
  intro e he
  rcases List.mem_cons.mp (List.perm_middle.mem_iff.mp he) with rfl | he
  · exact I.tagged e hd
  · refine hothers e (List.perm_middle.mem_iff.mpr (List.mem_cons_of_mem _ he)) ?_
    rintro rfl
    exact W.consistent.notMem_others he

/-- A chunk with another status. -/
theorem not_inspected_status {w : UInt32} (hw : w ≠ c.status.word)
    (I : (h.withArena (h.arena.overwriteStatus c.index w)).Inspected chunks' lists') : False := by
  have A := h.arena.alters_overwriteStatus c.index w
  have hc : c ∈ pre ++ c :: post := by simp
  obtain ⟨d, hd, hindex, hunits⟩ := W.exists_span I A (by simp) hc
  -- the chunk that is read there has a status, another one than before
  have hstatus : d.status ≠ c.status := by
    have hword := (I.tagged d hd).word
    rw [hindex, arena_withArena, Arena.wordAt_overwriteStatus (W.tagged c hc).index_lt,
      Option.some.injEq] at hword
    exact fun hsame => hw (hword.trans (congrArg Status.word hsame))
  have hothers : ∀ e ∈ pre ++ c :: post, e ≠ c →
      e.TaggedIn (h.arena.overwriteStatus c.index w) := by
    intro e he hne
    have hapart := tagSlots_apart (nodup_tagSlots W.tiles.ascending) he hc hne
    exact (W.tagged e he).alters A (by simp) (by simp) hapart.1
  obtain rfl := W.chunks_eq_middle I A.size hothers hd hindex hunits
  -- the lists are as before, but there is one free chunk more or less
  obtain rfl : lists' = lists := by
    funext k
    refine I.eq_of_threaded (W.threaded k) (fun e _ => A.links _ (by simp)) (W.heads k) ?_
    intro e he f hf hfree hsame
    obtain ⟨hmem, hfree', -⟩ := W.filed.mem_iff.mp he
    by_cases hec : e = c
    · subst hec
      obtain rfl := (I.tagged d hd).unique hf (hindex.trans hsame)
      rw [Chunk.isFree_iff] at hfree hfree'
      exact absurd (hfree.trans hfree'.symm) hstatus
    · exact (hothers e hmem hec).unique hf hsame
  have hcount := I.count
  rw [W.length_entries] at hcount
  simp only [freeCount, List.countP_append, List.countP_cons, Nat.add_left_cancel_iff] at hcount
  cases hcs : c.status <;> cases hds : d.status
  · exact hstatus (hds.trans hcs.symm)
  · simp [Chunk.isFree, hcs, hds] at hcount
  · simp [Chunk.isFree, hcs, hds] at hcount
  · exact hstatus (hds.trans hcs.symm)

end Status

end WellFormed

/-! ## The verdict -/

/-- From every well-formed heap, with any data in its blocks: where one field is replaced by another
value, the inspection finds something. -/
theorem exists_finding_of_tampered (W : h.WellFormed chunks lists) (T : h.Tampered chunks h') :
    ∃ v, h'.check = .ok (some v) := by
  have hshort := W.short
  rw [← T.size_eq] at hshort
  rcases check_cases hshort with ⟨v, hv, -⟩ | ⟨chunks', lists', I⟩
  · exact ⟨v, hv⟩
  exfalso
  cases T with
  | status hc hw =>
    obtain ⟨pre, post, rfl⟩ := List.append_of_mem hc
    exact W.not_inspected_status hw I
  | footerUnits hc hn => exact W.not_inspected_footerUnits hc hn I
  | backLink hc hfree hw => exact W.not_inspected_backLink hc hfree hw I
  | nextLink hc hfree hw hv => exact W.not_inspected_nextLink hc hfree hw hv I
  | head hne hv => exact W.not_inspected_withHead hne hv I

/-- A heap in use whose overflow list comes to begin at a chunk in use, and the same heap with zero
for the status of that chunk. -/
theorem exists_finding_of_tampered_small :
    ∃ s, Session.Reachable Session.smallBins Session.smallBuffer s ∧
      s.live = [⟨4304, 40⟩, ⟨4112, 20⟩] ∧ ∃ chunks lists, s.heap.WellFormed chunks lists ∧
      ∃ c ∈ used chunks, s.heap.arena.blockAddress c = 4112 ∧
        (∃ v, (s.heap.withHead SizeClass.overflow (some c.index)).check = .ok (some v)) ∧
        ∃ v, (s.heap.withArena (s.heap.arena.overwriteStatus c.index 0)).check = .ok (some v) := by
  obtain ⟨s, hs, hlive⟩ := Session.reachable_small
  obtain ⟨chunks, lists, S, -⟩ := Session.sound_of_reachable hs
  have W := S.wellFormed
  obtain ⟨c, hc, haddress⟩ := S.exists_chunk (b := ⟨4112, 20⟩) (by rw [hlive]; decide)
  obtain ⟨hmem, hused⟩ := mem_used.mp hc
  refine ⟨s, hs, hlive, chunks, lists, W, c, hc, haddress.symm, ?_, ?_⟩
  · refine exists_finding_of_tampered W (.head ?_ ?_)
    · intro hhead
      rw [W.heads] at hhead
      obtain ⟨d, hd, hindex⟩ := mem_entry hhead.symm
      have hentry := W.entry_of_listed hd
      rw [hentry.tagged.unique (W.tagged c hmem) hindex] at hentry
      exact absurd (Chunk.isFree_iff.mp hentry.free) (by rw [hused]; decide)
    · rintro i ⟨⟩
      exact .inr ⟨c, hmem, rfl⟩
  · exact exists_finding_of_tampered W (.status hmem (by rw [hused]; decide))

end Heap

end BoundaryTag
