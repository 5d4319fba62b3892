import BoundaryTag.Proofs.RoundTrip

/-!
# Two ways to split

The rest of a split chunk keeps its place in the list while its class is the same: its
size is written anew, and its back link moves to the new footer. The plain way takes the
chunk out of its list and files the rest like a chunk that has just become free. Both
give the same chunks and the same lists but for the place of the rest, which the plain
way puts at the front of its bin. The overflow list ascends, so that there is no other
place, and then the two ways leave one and the same heap.

Results:

* `Divided.alters_of_divided`, `Divided.eq`: the heap with a divided chunk is determined
  by its lists.
* `exists_split_divided`, `exists_splitAnew_divided`: either way divides the chunk.
* `split_agrees_with_splitAnew`: the comparison.
-/

namespace BoundaryTag

variable {G : Type} {config : Config} {pre post chunks : List Chunk}
  {lists lists' lists₁ lists₂ : FreeLists} {c d r : Chunk} {n : Nat}

/-- What is left of `c` when the uppermost `n` units are split off. -/
abbrev Chunk.rest (c : Chunk) (n : Nat) : Chunk := c.withUnits (c.units - (n + 2))

/-- Lists with the same entries that are equal without `r` are equal if `r` is an overflow chunk. -/
theorem Filed.eq_of_remove_eq (F₁ : Filed config chunks lists₁) (F₂ : Filed config chunks lists₂)
    (hremove : lists₁.remove config r = lists₂.remove config r)
    (hover : config.classOf r.units = SizeClass.overflow) : lists₁ = lists₂ := by
  funext k
  by_cases hk : k = SizeClass.overflow
  · rw [hk, F₁.ordered, F₂.ordered]
  · have hothers := congrFun hremove k
    unfold FreeLists.remove at hothers
    rwa [hover, Function.update_of_ne hk, Function.update_of_ne hk] at hothers

namespace Heap

variable {h h' h₁ h₂ : Heap G}

/-- Carves an in-use chunk of `n` units off the top of the free chunk `c`. The rest is filed anew
even if it stays in its class. -/
def splitAnew (c n : Nat) : Action (Heap G) Nat := do
  let total ← Action.read (·.arena.units c)
  let needed ← Action.ofExcept (Word.add n 2)
  refile c (total - needed)
  onArena (Arena.carve c n)

/-! ## A divided chunk -/

/-- In `h'` a free chunk of `h` is divided into the free chunk `r` and the chunk `d` in use. Only
the tags of the two and the links in the list of `r` are written. -/
structure Divided (h : Heap G) (r d : Chunk) (chunks : List Chunk) (lists' : FreeLists)
    (h' : Heap G) : Prop where
  parts : r ∈ chunks ∧ d ∈ chunks
  holds : h'.Holds chunks lists'
  filed : Filed h.config chunks lists'
  unlinked : h'.arena.linkAt d.index = none ∧ h'.arena.linkAt d.footer = none
  alters : h.Alters {i | i ∈ tagSlots (d :: lists' (h.config.classOf r.units))}
    {i | i ∈ tagSlots [r, d]} {r.index, d.index} h'

namespace Divided

/-- A chunk divided in two ways into the same parts: only links in one list may differ. -/
theorem alters_of_divided (D₁ : h.Divided r d chunks lists₁ h₁)
    (D₂ : h.Divided r d chunks lists₂ h₂) :
    h₁.Alters {i | i ∈ tagSlots (lists₁ (h.config.classOf r.units))} ∅ ∅ h₂ := by
  have hmem : ∀ e ∈ lists₂ (h.config.classOf r.units), e ∈ lists₁ (h.config.classOf r.units) :=
    fun e he => D₁.filed.mem_iff.mpr (D₂.filed.mem_iff.mp he)
  have hparts : ∀ e ∈ [r, d], e.TaggedIn h₁.arena ∧ e.TaggedIn h₂.arena := by
    intro e he
    have he' : e ∈ chunks := by
      simp only [List.mem_cons, List.not_mem_nil, or_false] at he
      rcases he with rfl | rfl
      · exact D₁.parts.1
      · exact D₁.parts.2
    exact ⟨D₁.holds.tagged e he', D₂.holds.tagged e he'⟩
  have A₁ := D₁.alters.arena
  have A₂ := D₂.alters.arena
  refine ⟨D₂.alters.config.trans D₁.alters.config.symm, A₂.start.trans A₁.start.symm,
    A₂.size.trans A₁.size.symm, A₂.grower.trans A₁.grower.symm, ?links, ?units, ?words⟩
  case links =>
    intro i hi
    by_cases hd : i ∈ tagSlots [d]
    · simp only [tagSlots_cons, tagSlots_nil, List.mem_cons, List.not_mem_nil, or_false] at hd
      rcases hd with rfl | rfl
      · exact D₂.unlinked.1.trans D₁.unlinked.1.symm
      · exact D₂.unlinked.2.trans D₁.unlinked.2.symm
    · have hout₁ : i ∉ tagSlots (d :: lists₁ (h.config.classOf r.units)) := by
        rw [← List.singleton_append, tagSlots_append, List.mem_append]
        exact fun hin => hin.elim hd hi
      have hout₂ : i ∉ tagSlots (d :: lists₂ (h.config.classOf r.units)) := by
        rw [← List.singleton_append, tagSlots_append, List.mem_append]
        exact fun hin => hin.elim hd fun hin => hi (tagSlots_subset hmem hin)
      exact (A₂.links i hout₂).trans (A₁.links i hout₁).symm
  case units =>
    intro i _
    by_cases hi : i ∈ tagSlots [r, d]
    · obtain ⟨e, he, rfl | rfl⟩ := mem_tagSlots.mp hi
      · exact (hparts e he).2.units.trans (hparts e he).1.units.symm
      · exact (hparts e he).2.footer.trans (hparts e he).1.footer.symm
    · exact (A₂.units i hi).trans (A₁.units i hi).symm
  case words =>
    intro i _
    by_cases hi : i ∈ ({r.index, d.index} : Set Nat)
    · rcases hi with rfl | rfl
      · exact (hparts r (by simp)).2.word.trans (hparts r (by simp)).1.word.symm
      · exact (hparts d (by simp)).2.word.trans (hparts d (by simp)).1.word.symm
    · exact (A₂.words i hi).trans (A₁.words i hi).symm

/-- The lists determine the heap. -/
theorem eq (D₁ : h.Divided r d chunks lists' h₁) (D₂ : h.Divided r d chunks lists' h₂) :
    h₂ = h₁ := by
  refine (D₁.alters_of_divided D₂).eq_of_links ?_ fun k =>
    (D₂.holds.heads k).trans (D₁.holds.heads k).symm
  exact (D₁.holds.threaded _).links_eq (D₂.holds.threaded _)

/-- A divided chunk in a well-formed heap leaves a well-formed heap. -/
theorem wellFormed (W : h.WellFormed (pre ++ c :: post) lists) (hn : 1 ≤ n)
    (hlt : n + 2 < c.units)
    (D : h.Divided (c.rest n) (c.top n) (pre ++ c.rest n :: c.top n :: post) lists' h') :
    h'.WellFormed (pre ++ c.rest n :: c.top n :: post) lists' := by
  have hsettled := @Focus.settled_taken h.config ⟨pre, c, post, lists⟩ n W.settled
  rw [Focus.taken_of_lt h.config ⟨pre, c, post, lists⟩ hlt, Focus.chunks,
    List.append_assoc] at hsettled
  refine WellFormed.of_consistent ⟨D.holds, ?_, ?_⟩ hsettled
    (W.placed.congr D.alters.arena.start D.alters.arena.size)
  · rw [D.alters.arena.size]
    exact W.tiles.split_top hlt hn
  · rw [D.alters.config]
    exact D.filed

end Divided

/-! ## Two ways to divide -/

section Ways

variable (W : h.WellFormed (pre ++ c :: post) lists) (hfree : c.isFree) (hlt : n + 2 < c.units)
  (hclass : h.config.classOf (c.units - (n + 2)) = h.config.classOf c.units)

include W hlt

/-- When the rest is in its list, carving the upper part off divides the chunk. -/
theorem exists_carve_divided
    (M : h₁.Midway h.config (pre ++ c.rest n :: post) (pre ++ c.rest n :: post) lists')
    (A : h.Alters {i | i ∈ tagSlots (c.top n :: lists' (h.config.classOf (c.units - (n + 2))))}
      {c.index, (c.rest n).footer} {c.index} h₁) :
    ∃ h₂, (onArena (Arena.carve c.index n)).Runs h₁ (c.top n).index h₂ ∧
      h.Divided (c.rest n) (c.top n) (pre ++ c.rest n :: c.top n :: post) lists' h₂ := by
  have hsize : (c.top n).footer < h₁.arena.slots.size := by
    rw [Chunk.footer_top hlt, A.arena.size]
    exact (W.tagged c (by simp)).footer_lt
  obtain ⟨h₂, hrun, H, hnext, hprev, A'⟩ :=
    M.holds.carve rfl rfl hsize (W.tiles.notMem_tagSlots_top hlt)
  have hfiled : Filed h.config (pre ++ c.rest n :: c.top n :: post) lists' := by
    have hfiled := M.filed
    rw [List.append_cons] at hfiled ⊢
    exact (filed_of_inUse rfl).mpr hfiled
  refine ⟨h₂, hrun, ⟨by simp, by simp⟩, H, hfiled, ⟨hnext, hprev⟩, ?_⟩
  refine (A.mono (Set.Subset.refl _) ?_ ?_).trans (A'.mono ?_ ?_ ?_)
  · rintro i (rfl | rfl) <;> simp
  · simp
  · rintro i (rfl | rfl) <;> simp
  · rintro i (rfl | rfl) <;> simp
  · simp

include hfree hclass

/-- The rest keeps its place. -/
theorem exists_split_divided : ∃ h', (Heap.split c.index n).Runs h (c.top n).index h' ∧
    h.Divided (c.rest n) (c.top n) (pre ++ c.rest n :: c.top n :: post)
      (lists.resize h.config c (c.units - (n + 2))) h' := by
  have C := W.consistent
  have hless : c.units - (n + 2) < c.units := by omega
  obtain ⟨-, hsize, hfooter⟩ := C.footer_smaller hless
  obtain ⟨h₁, hrun₁, M, A⟩ := C.midway.resizeListed hfree hclass hsize hfooter
  have hlisted := M.filed.mem_iff.mpr ⟨show c.rest n ∈ _ by simp, hfree, rfl⟩
  have hlinks : (c.rest n).footer ∈ tagSlots (c.top n :: lists.resize h.config c
      (c.units - (n + 2)) (h.config.classOf (c.units - (n + 2)))) :=
    mem_tagSlots.mpr ⟨_, List.mem_cons_of_mem _ hlisted, .inr rfl⟩
  obtain ⟨h₂, hrun₂, D⟩ := exists_carve_divided W hlt M
    (A.mono (Set.singleton_subset_iff.mpr hlinks) (Set.Subset.refl _) (Set.empty_subset _))
  refine ⟨h₂, runs_split W.short (W.tagged c (by simp)) hfree hlt ?_ hrun₂, D⟩
  apply Action.Runs.bind (Action.runs_read (by exact rfl))
  simp only [hclass, beq_self_eq_true, if_true]
  exact hrun₁

/-- The rest is filed anew. -/
theorem exists_splitAnew_divided : ∃ h', (Heap.splitAnew c.index n).Runs h (c.top n).index h' ∧
    h.Divided (c.rest n) (c.top n) (pre ++ c.rest n :: c.top n :: post)
      ((lists.remove h.config c).insert h.config pre (c.rest n) post) h' := by
  have C := W.consistent
  have htc := W.tagged c (by simp)
  have hless : c.units - (n + 2) < c.units := by omega
  obtain ⟨h₁, hrun₁, M, A⟩ := C.refile hless hfree
  have F := C.filed.remove hfree C.notMem_others
  have hlisted := M.filed.mem_iff.mpr ⟨show c.rest n ∈ _ by simp, hfree, rfl⟩
  have hothers : ∀ e ∈ pre ++ post, e.isFree → h.config.classOf e.units =
      h.config.classOf (c.units - (n + 2)) →
      e ∈ (lists.remove h.config c).insert h.config pre (c.rest n) post
        (h.config.classOf (c.units - (n + 2))) := fun e he hfree' hk =>
    M.filed.mem_iff.mpr ⟨List.perm_middle.mem_iff.mpr (List.mem_cons_of_mem _ he), hfree', hk⟩
  have hlinks : ∀ i ∈ tagSlots (lists (h.config.classOf c.units) ++ c.rest n ::
      lists.remove h.config c (h.config.classOf (c.units - (n + 2)))),
      i ∈ tagSlots (c.top n :: (lists.remove h.config c).insert h.config pre (c.rest n) post
        (h.config.classOf (c.units - (n + 2)))) := by
    intro i hi
    obtain ⟨e, he, hie⟩ := mem_tagSlots.mp hi
    by_cases hec : e = c
    · -- the old header is that of the rest, the old footer that of the upper part
      subst hec
      rcases hie with rfl | rfl
      · exact mem_tagSlots.mpr ⟨_, List.mem_cons_of_mem _ hlisted, .inl rfl⟩
      · exact mem_tagSlots.mpr ⟨_, List.mem_cons_self, .inr (Chunk.footer_top hlt).symm⟩
    · refine mem_tagSlots.mpr ⟨e, List.mem_cons_of_mem _ ?_, hie⟩
      rcases List.mem_append.mp he with he | he
      · obtain ⟨-, hfree', hk⟩ := C.filed.mem_iff.mp he
        exact hothers e (C.holds.mem_others he hec) hfree' (hk.trans hclass.symm)
      rcases List.mem_cons.mp he with rfl | he
      · exact hlisted
      · obtain ⟨hmem, hfree', hk⟩ := F.mem_iff.mp he
        exact hothers e hmem hfree' hk
  obtain ⟨h₂, hrun₂, D⟩ := exists_carve_divided W hlt M
    (A.mono hlinks (Set.Subset.refl _) (Set.Subset.refl _))
  refine ⟨h₂, ?_, D⟩
  apply Action.Runs.bind (Action.runs_read (by exact htc.units_eq))
  apply Action.Runs.bind (Action.runs_ofExcept (htc.add_two_eq W.short (by omega)) _)
  exact Action.Runs.bind hrun₁ hrun₂

/-- Without the rest the lists are the same both ways. -/
theorem remove_resize_eq :
    (lists.resize h.config c (c.units - (n + 2))).remove h.config (c.rest n) =
      ((lists.remove h.config c).insert h.config pre (c.rest n) post).remove h.config
        (c.rest n) := by
  have hfree' : (c.rest n).isFree := hfree
  have hshort : (c.rest n).stop ≤ c.stop := by
    have hspan := Chunk.span_top hlt _ (show (c.top n).index ∈ tagSlots [c.top n] by simp)
    exact hspan.1.trans (Nat.le_of_lt hspan.2)
  have hout : c.rest n ∉ pre ++ post :=
    nodup_middle (nodup_tagSlots (W.tiles.ascending.shorten rfl hshort))
  have hless : c.units - (n + 2) < c.units := by omega
  have hshrunk := @Focus.remove_shrunk h.config ⟨pre, c, post, lists⟩ _ W.filed W.tiles.ascending
    hfree hless
  rw [Focus.shrunk, if_pos hclass] at hshrunk
  rw [hshrunk]
  exact ((W.filed.remove hfree W.consistent.notMem_others).remove_insert hfree' hout).symm

end Ways

/-! ## The comparison -/

/-- The two heaps have the same chunks, and the same entries in their lists, in the same order but
for `r`. In memory only links in the list of `r` differ. -/
structure AgreesBut (h₁ : Heap G) (r : Chunk) (chunks : List Chunk) (lists₁ lists₂ : FreeLists)
    (h₂ : Heap G) : Prop where
  wellFormed₁ : h₁.WellFormed chunks lists₁
  wellFormed₂ : h₂.WellFormed chunks lists₂
  entries : ∀ k, (lists₁ k).Perm (lists₂ k)
  others : lists₁.remove h₁.config r = lists₂.remove h₁.config r
  heads : ∀ k ≠ h₁.config.classOf r.units, h₂.head k = h₁.head k
  alters : h₁.Alters {i | i ∈ tagSlots (lists₁ (h₁.config.classOf r.units))} ∅ ∅ h₂

theorem Divided.agreesBut (D₁ : h.Divided r d chunks lists₁ h₁)
    (D₂ : h.Divided r d chunks lists₂ h₂) (W₁ : h₁.WellFormed chunks lists₁)
    (W₂ : h₂.WellFormed chunks lists₂)
    (hremove : lists₁.remove h.config r = lists₂.remove h.config r) :
    h₁.AgreesBut r chunks lists₁ lists₂ h₂ := by
  have hconfig := D₁.alters.config
  refine ⟨W₁, W₂, fun k => (D₁.filed.perm k).trans (D₂.filed.perm k).symm, ?_, ?_, ?_⟩
  · rw [hconfig]
    exact hremove
  · intro k hk
    rw [hconfig] at hk
    have hlists := congrFun hremove k
    unfold FreeLists.remove at hlists
    rw [Function.update_of_ne hk, Function.update_of_ne hk] at hlists
    rw [W₁.heads, W₂.heads, hlists]
  · rw [hconfig]
    exact D₁.alters_of_divided D₂

/-- In any well-formed heap, split a free chunk so that the rest is of the same class, once in place
and once by filing the rest anew. Both succeed and carve the same chunk. The heaps agree in all but
the place of the rest in its list, and if that is the overflow list they are equal. -/
theorem split_agrees_with_splitAnew (W : h.WellFormed (pre ++ c :: post) lists)
    (hfree : c.isFree) (hn : 1 ≤ n) (hlt : n + 2 < c.units)
    (hclass : h.config.classOf (c.units - (n + 2)) = h.config.classOf c.units) :
    ∃ h₁ h₂ lists₁ lists₂, (Heap.split c.index n).Runs h (c.top n).index h₁ ∧
      (Heap.splitAnew c.index n).Runs h (c.top n).index h₂ ∧
      h₁.AgreesBut (c.rest n) (pre ++ c.rest n :: c.top n :: post) lists₁ lists₂ h₂ ∧
      (h.config.classOf c.units = SizeClass.overflow → h₂ = h₁) := by
  obtain ⟨h₁, hrun₁, D₁⟩ := exists_split_divided W hfree hlt hclass
  obtain ⟨h₂, hrun₂, D₂⟩ := exists_splitAnew_divided W hfree hlt hclass
  have hremove := remove_resize_eq W hfree hlt hclass
  refine ⟨h₁, h₂, _, _, hrun₁, hrun₂,
    D₁.agreesBut D₂ (D₁.wellFormed W hn hlt) (D₂.wellFormed W hn hlt) hremove, ?_⟩
  intro hover
  rw [← D₁.filed.eq_of_remove_eq D₂.filed hremove (hclass.trans hover)] at D₂
  exact D₁.eq D₂

/-- A buffer of sixty slots. -/
def roomyBuffer : Region :=
  { Session.smallBuffer with
    capacity := 960
    stop_lt := by decide
    used_le := by decide }

/-- Three free chunks, all too large for the bins of `Session.smallBins`, and a block above each. -/
def alternating : List Chunk :=
  [⟨0, 11, .free⟩, ⟨13, 4, .inUse⟩, ⟨19, 14, .free⟩, ⟨35, 4, .inUse⟩, ⟨41, 11, .free⟩,
    ⟨54, 4, .inUse⟩]

theorem reachable_alternating : ∃ s lists, Session.Reachable Session.smallBins roomyBuffer s ∧
    s.heap.config = Session.smallBins ∧ s.heap.WellFormed alternating lists := by
  have hplay : ((Session.start Session.smallBins roomyBuffer).play [.allocate 176, .allocate 20,
      .allocate 224, .allocate 20, .allocate 176, .allocate 20, .release 4112, .release 4416,
      .release 4768]).map (fun s => (s.heap.arena.slots.size, alternating.map fun c =>
        (s.heap.arena.unitsAt c.index, s.heap.arena.wordAt c.index,
          s.heap.arena.unitsAt c.footer))) =
      some (60, alternating.map fun c => (some c.units, some c.status.word, some c.units)) := by
    decide +kernel
  obtain ⟨s, hreach, hseen⟩ := Session.exists_reachable_of_play hplay
  obtain ⟨hsize, htags⟩ := Prod.mk.inj hseen
  obtain ⟨chunks, lists, S, hconfig⟩ := Session.sound_of_reachable hreach
  have W := S.wellFormed
  have htagged : ∀ c ∈ alternating, c.TaggedIn s.heap.arena := by
    intro c hc
    obtain ⟨hunits, hword, hfooter⟩ := by
      simpa only [Prod.mk.injEq] using List.map_inj_left.mp htags c hc
    exact ⟨hunits, hword, hfooter⟩
  have htiles : Tiles 0 alternating s.heap.arena.slots.size := by
    rw [hsize]
    simp [alternating, Tiles, Chunk.stop]
  rw [W.tiles.unique htiles W.tagged htagged] at W
  exact ⟨s, lists, hreach, hconfig, W⟩

/-- One unit is split off the second of three chunks in the overflow list. What is left of it stays
between the other two. -/
theorem split_agrees_with_splitAnew_between :
    ∃ (s : Session Region) (lists lists' : FreeLists) (h' : Heap Region),
      Session.Reachable Session.smallBins roomyBuffer s ∧
      s.heap.WellFormed alternating lists ∧
      lists SizeClass.overflow = [⟨0, 11, .free⟩, ⟨19, 14, .free⟩, ⟨41, 11, .free⟩] ∧
      (Heap.split 19 1).Runs s.heap 32 h' ∧ (Heap.splitAnew 19 1).Runs s.heap 32 h' ∧
      h'.WellFormed [⟨0, 11, .free⟩, ⟨13, 4, .inUse⟩, ⟨19, 11, .free⟩, ⟨32, 1, .inUse⟩,
        ⟨35, 4, .inUse⟩, ⟨41, 11, .free⟩, ⟨54, 4, .inUse⟩] lists' ∧
      lists' SizeClass.overflow = [⟨0, 11, .free⟩, ⟨19, 11, .free⟩, ⟨41, 11, .free⟩] := by
  obtain ⟨s, lists, hreach, hconfig, W⟩ := reachable_alternating
  have hover : s.heap.config.classOf 14 = SizeClass.overflow := by
    rw [hconfig]
    decide
  have hclass : s.heap.config.classOf (14 - (1 + 2)) = s.heap.config.classOf 14 := by
    rw [hconfig]
    decide
  have W' : s.heap.WellFormed ([⟨0, 11, .free⟩, ⟨13, 4, .inUse⟩] ++ ⟨19, 14, .free⟩ ::
      [⟨35, 4, .inUse⟩, ⟨41, 11, .free⟩, ⟨54, 4, .inUse⟩]) lists := W
  obtain ⟨h₁, h₂, lists₁, lists₂, hrun₁, hrun₂, hsame, heq⟩ :=
    split_agrees_with_splitAnew W' rfl (Nat.le_refl 1) (by decide) hclass
  obtain rfl := heq hover
  -- the configuration stays
  obtain ⟨h', hrun, D⟩ := exists_split_divided W' rfl (show 1 + 2 < 14 by decide) hclass
  obtain ⟨log, hlog⟩ := hrun₁ #[]
  obtain ⟨-, rfl⟩ := hrun.unique hlog
  have hlist := W.filed.ordered
  have hlist' := hsame.wellFormed₁.filed.ordered
  rw [hconfig] at hlist
  rw [D.alters.config, hconfig] at hlist'
  exact ⟨s, lists, lists₁, h₂, hreach, W, hlist, hrun₁, hrun₂, hsame.wellFormed₁, hlist'⟩

end Heap

end BoundaryTag
