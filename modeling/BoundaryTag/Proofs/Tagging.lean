import BoundaryTag.Heap.Surgery
import BoundaryTag.Proofs.FreeLists

/-!
# Writing tags

Statuses and sizes are written to chunks that are in no list, and tags are laid
out where no chunk of the family stands. The exception is the free chunk that is
shrunk where it stands in its list.

Results:

* `Holds.frame`: what a heap holds survives every change outside its tags.
* `Holds.setStatus`, `Holds.setUnits`, `Holds.layOut`, `Holds.resizeInPlace`:
  each write succeeds and changes one chunk of the family.
-/

namespace BoundaryTag

/-- Moving one chunk of a family to its front. -/
theorem nodup_tagSlots_middle {pre post : List Chunk} {c : Chunk} :
    (tagSlots (pre ++ c :: post)).Nodup ↔
      (tagSlots (pre ++ post)).Nodup ∧ ∀ i ∈ tagSlots [c], i ∉ tagSlots (pre ++ post) := by
  have hperm : (tagSlots (pre ++ c :: post)).Perm (tagSlots [c] ++ tagSlots (pre ++ post)) := by
    rw [← tagSlots_append]
    exact (List.perm_middle (a := c)).flatMap_right _
  have hc := c.index_lt_footer
  have hself : (tagSlots [c]).Nodup := by simp; omega
  rw [hperm.nodup_iff, List.nodup_append]
  constructor
  · rintro ⟨-, h, hdisj⟩; exact ⟨h, fun i hi hi' => hdisj i hi i hi' rfl⟩
  · rintro ⟨h, hdisj⟩; exact ⟨hself, h, fun i hi j hj hij => hdisj i hi (hij ▸ hj)⟩

theorem nodup_middle {pre post : List Chunk} {c : Chunk} (h : (tagSlots (pre ++ c :: post)).Nodup) :
    c ∉ pre ++ post := by
  intro hc
  apply (nodup_tagSlots_middle.mp h).2 c.index (by simp)
  exact mem_tagSlots.mpr ⟨c, hc, .inl rfl⟩

namespace Arena

variable {G : Type} {a : Arena G} {c d : Chunk}

/-- Header and footer are given a size. -/
theorem exists_setUnits {n : Nat} (hs : a.slots.size ≤ maxUnits)
    (hlt : (c.withUnits n).footer < a.slots.size) :
    ∃ b, (setUnits c.index n).Runs a () b ∧ b.unitsAt c.index = some n ∧
      b.unitsAt (c.withUnits n).footer = some n ∧
      a.Alters ∅ {c.index, (c.withUnits n).footer} ∅ b := by
  have hf : (c.withUnits n).footer = c.index + n + 1 := rfl
  have hc : c.index < a.slots.size := by omega
  have hn : n ≤ maxUnits := by omega
  have hlimit : c.index + n + 1 < Word.limit := by
    have : c.index + n + 1 < maxUnits := by omega
    unfold maxUnits at this
    unfold Word.limit
    omega
  have hlt' : c.index + n + 1 < (a.withUnits c.index n).slots.size := by
    rw [size_withUnits]; exact hlt
  have hu₁ := unitsAt_withUnits hc hn
  have hu₂ := unitsAt_withUnits hlt' hn
  refine ⟨_, runs_setUnits hn hlt hlimit, ?_, ?_, ?_⟩
  · rw [hu₂, hu₁, Function.update_of_ne (by omega), Function.update_self]
  · rw [hf, hu₂, Function.update_self]
  · have h₁ := a.alters_withUnits hc hn
    have h₂ := (a.withUnits c.index n).alters_withUnits hlt' hn
    rw [hf]
    refine (h₁.mono ?_ ?_ ?_).trans (h₂.mono ?_ ?_ ?_) <;> simp

/-- A chunk that is in use and in no list is laid out over whatever stood there. -/
theorem exists_layOut (hs : a.slots.size ≤ maxUnits) (hlt : d.footer < a.slots.size)
    (hd : d.status = .inUse) :
    ∃ b, (layOut d.index d.units).Runs a () b ∧ d.TaggedIn b ∧ b.linkAt d.index = none ∧
      b.linkAt d.footer = none ∧
      a.Alters {d.index, d.footer} {d.index, d.footer} {d.index} b := by
  have hne := d.index_lt_footer
  obtain ⟨a₁, hrun₁, hu₁, hf₁, hA₁⟩ := exists_setUnits (n := d.units) hs hlt
  have hlt₁ : d.index < a₁.slots.size := by rw [hA₁.size]; omega
  let a₂ := a₁.withStatus d.index .inUse
  have hA₂ : a₁.Alters ∅ ∅ {d.index} a₂ := a₁.alters_withStatus hlt₁ .inUse
  have ht₂ : d.TaggedIn a₂ := by
    refine ⟨?_, ?_, ?_⟩
    · rw [unitsAt_withStatus]; exact hu₁
    · rw [wordAt_withStatus _ hlt₁, Function.update_self, hd]
    · rw [unitsAt_withStatus]; exact hf₁
  have hs₂ : a₂.slots.size ≤ maxUnits := by rw [hA₂.size, hA₁.size]; exact hs
  obtain ⟨a₃, hrun₃, R₃⟩ := exists_relinkSelf (v := none) (w := none)
    (lt_limit_of_le_maxUnits hs₂) ht₂.sized (by simp) (by simp)
  have hA₃ : a₂.Alters {d.index, d.footer} ∅ ∅ a₃ := R₃.alters fun i hi =>
    relinkSelf_of_notMem _ _ _ (by simpa using hi)
  refine ⟨a₃, ?_, R₃.taggedIn ht₂, ?_, ?_, ?_⟩
  · exact Action.Runs.bind hrun₁ (Action.Runs.bind (runs_setStatus hlt₁ _) hrun₃)
  · rw [R₃.links, relinkSelf_index]
  · rw [R₃.links, relinkSelf_footer]
  · have h₁ : a.Alters {d.index, d.footer} {d.index, d.footer} {d.index} a₁ :=
      hA₁.mono (by simp) (Set.Subset.refl _) (by simp)
    have h₂ := h₁.trans (hA₂.mono (by simp) (by simp) (Set.Subset.refl _))
    exact h₂.trans (hA₃.mono (Set.Subset.refl _) (by simp) (by simp))

/-- A listed chunk is resized with its back link. -/
theorem exists_resizeInPlace {n : Nat} (hs : a.slots.size ≤ maxUnits) (hc : c.TaggedIn a)
    (hlt : (c.withUnits n).footer < a.slots.size)
    (hprev : ∀ i ∈ a.linkAt c.footer, i < a.slots.size) :
    ∃ b, (resizeInPlace c.index n).Runs a () b ∧ (c.withUnits n).TaggedIn b ∧
      b.linkAt (c.withUnits n).footer = a.linkAt c.footer ∧
      a.Alters {(c.withUnits n).footer} {c.index, (c.withUnits n).footer} ∅ b := by
  obtain ⟨b, hrun, hu, hf, hA⟩ := exists_setUnits (n := n) hs hlt
  have htb : (c.withUnits n).TaggedIn b := ⟨hu, (hA.words _ (by simp)).trans hc.word, hf⟩
  have hsb : b.slots.size ≤ maxUnits := by rw [hA.size]; exact hs
  have R := relinked_withLink (lt_limit_of_le_maxUnits hsb) htb.footer_lt (v := a.linkAt c.footer)
    (by rw [hA.size]; exact hprev)
  have hB : b.Alters {(c.withUnits n).footer} ∅ ∅ _ := R.alters fun i hi =>
    Function.update_of_ne (by simpa using hi) _ _
  refine ⟨b.withLink (c.withUnits n).footer (a.linkAt c.footer), ?_, R.taggedIn htb, ?_, ?_⟩
  · apply Action.Runs.bind (Action.runs_read (by exact hc.prevFree_eq hs))
    exact Action.Runs.bind hrun (runs_setPrevFree (htb.footerOf_eq hsb) htb.footer_lt _)
  · rw [R.links, Function.update_self]
  · have hA' : a.Alters {(c.withUnits n).footer} {c.index, (c.withUnits n).footer} ∅ b :=
      hA.mono (by simp) (Set.Subset.refl _) (Set.Subset.refl _)
    exact hA'.trans (hB.mono (Set.Subset.refl _) (by simp) (Set.Subset.refl _))

end Arena

namespace Heap

variable {G : Type} {h h' : Heap G} {chunks pre post : List Chunk} {lists : FreeLists} {c : Chunk}

namespace Holds

/-! ## The family of chunks -/

/-- A change that touches no tag of the family and no head. -/
theorem frame (H : h.Holds chunks lists) {L U W : Set Nat} (A : h.Alters L U W h')
    (hheads : ∀ k, h'.head k = h.head k) (hL : ∀ i ∈ tagSlots chunks, i ∉ L)
    (hU : ∀ i ∈ tagSlots chunks, i ∉ U) (hW : ∀ i ∈ tagSlots chunks, i ∉ W) :
    h'.Holds chunks lists where
  short := by rw [A.arena.size]; exact H.short
  tagged c hc := by
    have hindex : c.index ∈ tagSlots chunks := mem_tagSlots.mpr ⟨c, hc, .inl rfl⟩
    have hfooter : c.footer ∈ tagSlots chunks := mem_tagSlots.mpr ⟨c, hc, .inr rfl⟩
    exact (H.tagged c hc).alters A.arena (hU _ hindex) (hU _ hfooter) (hW _ hindex)
  apart := H.apart
  listed k c hc := by rw [A.config]; exact H.listed k c hc
  nodup := H.nodup
  heads k := (hheads k).trans (H.heads k)
  threaded k := (H.threaded k).congr fun i hi =>
    A.arena.links i (hL i (tagSlots_subset (fun c hc => (H.listed k c hc).1) hi))

/-- A chunk in no list may be left out of the family. -/
theorem drop (H : h.Holds (pre ++ c :: post) lists) (hc : ∀ k, c ∉ lists k) :
    h.Holds (pre ++ post) lists :=
  { H with
    tagged := fun d hd => H.tagged d (by
      simp only [List.mem_append, List.mem_cons] at hd ⊢; tauto)
    apart := (nodup_tagSlots_middle.mp H.apart).1
    listed := fun k d hd => by
      obtain ⟨hm, hfree⟩ := H.listed k d hd
      have hne : d ≠ c := by rintro rfl; exact hc k hd
      simp only [List.mem_append, List.mem_cons] at hm ⊢
      exact ⟨by tauto, hfree⟩ }

/-- A chunk whose tags stand apart from the family may join it. -/
theorem add (H : h.Holds (pre ++ post) lists) (hc : c.TaggedIn h.arena)
    (hout : ∀ i ∈ tagSlots [c], i ∉ tagSlots (pre ++ post)) :
    h.Holds (pre ++ c :: post) lists :=
  { H with
    tagged := fun d hd => by
      by_cases hdc : d = c
      · rw [hdc]; exact hc
      · apply H.tagged d
        simp only [List.mem_append, List.mem_cons] at hd ⊢
        tauto
    apart := nodup_tagSlots_middle.mpr ⟨H.apart, hout⟩
    listed := fun k d hd => by
      obtain ⟨hm, hfree⟩ := H.listed k d hd
      simp only [List.mem_append, List.mem_cons] at hm ⊢
      exact ⟨by tauto, hfree⟩ }

/-- The tags of a resized chunk stand apart if the old header and the new footer do. -/
theorem notMem_tagSlots_withUnits {n : Nat} (hindex : c.index ∉ tagSlots chunks)
    (hfooter : (c.withUnits n).footer ∉ tagSlots chunks) :
    ∀ i ∈ tagSlots [c.withUnits n], i ∉ tagSlots chunks := by
  intro i hi
  simp only [tagSlots_cons, tagSlots_nil, List.mem_cons, List.not_mem_nil, or_false] at hi
  rcases hi with rfl | rfl
  · exact hindex
  · exact hfooter

/-! ## Chunks in no list -/

/-- An unlisted chunk is marked. -/
theorem setStatus (H : h.Holds (pre ++ c :: post) lists) (hc : ∀ k, c ∉ lists k) (s : Status) :
    ∃ h', (onArena (Arena.setStatus c.index s)).Runs h () h' ∧
      h'.Holds (pre ++ c.withStatus s :: post) lists ∧ h.Alters ∅ ∅ {c.index} h' := by
  have htc := H.tagged c (by simp)
  have hout := (nodup_tagSlots_middle.mp H.apart).2
  have hA := Alters.of_arena (Arena.alters_withStatus h.arena htc.index_lt s)
  refine ⟨_, runs_onArena (Arena.runs_setStatus htc.index_lt s), ?_, hA⟩
  refine Holds.add ((H.drop hc).frame hA (fun _ => rfl) (by simp) (by simp) ?_)
    ⟨?_, ?_, ?_⟩ hout
  · intro i hi hw
    rw [Set.mem_singleton_iff] at hw
    exact hout c.index (by simp) (hw ▸ hi)
  · simpa using htc.units
  · simp [Arena.wordAt_withStatus s htc.index_lt]
  · simpa using htc.footer

/-- An unlisted chunk is resized; its new footer has to be apart from the other tags. -/
theorem setUnits (H : h.Holds (pre ++ c :: post) lists) (hc : ∀ k, c ∉ lists k) {n : Nat}
    (hlt : (c.withUnits n).footer < h.arena.slots.size)
    (hfooter : (c.withUnits n).footer ∉ tagSlots (pre ++ post)) :
    ∃ h', (onArena (Arena.setUnits c.index n)).Runs h () h' ∧
      h'.Holds (pre ++ c.withUnits n :: post) lists ∧
      h.Alters ∅ {c.index, (c.withUnits n).footer} ∅ h' := by
  have htc := H.tagged c (by simp)
  have hindex := (nodup_tagSlots_middle.mp H.apart).2 c.index (by simp)
  obtain ⟨b, hrun, hu, hf, hA⟩ := Arena.exists_setUnits H.short hlt
  refine ⟨_, runs_onArena hrun, ?_, Alters.of_arena hA⟩
  refine Holds.add ((H.drop hc).frame (Alters.of_arena hA) (fun _ => rfl) (by simp)
    ?_ (by simp)) ⟨hu, ?_, hf⟩ ?_
  · intro i hi hu
    rcases hu with rfl | rfl
    · exact hindex hi
    · exact hfooter hi
  · exact (hA.words _ (by simp)).trans htc.word
  · exact notMem_tagSlots_withUnits hindex hfooter

/-- A chunk in use is laid out where the family has no tags. -/
theorem layOut (H : h.Holds (pre ++ post) lists) {d : Chunk} (hd : d.status = .inUse)
    (hlt : d.footer < h.arena.slots.size) (hout : ∀ i ∈ tagSlots [d], i ∉ tagSlots (pre ++ post)) :
    ∃ h', (onArena (Arena.layOut d.index d.units)).Runs h () h' ∧
      h'.Holds (pre ++ d :: post) lists ∧ h'.arena.linkAt d.index = none ∧
      h'.arena.linkAt d.footer = none ∧
      h.Alters {d.index, d.footer} {d.index, d.footer} {d.index} h' := by
  obtain ⟨b, hrun, ht, hnext, hprev, hA⟩ := Arena.exists_layOut H.short hlt hd
  have hindex := hout d.index (by simp)
  have hfooter := hout d.footer (by simp)
  have hboth : ∀ i ∈ tagSlots (pre ++ post), i ∉ ({d.index, d.footer} : Set Nat) := by
    rintro i hi (rfl | rfl)
    · exact hindex hi
    · exact hfooter hi
  refine ⟨_, runs_onArena hrun, ?_, hnext, hprev, Alters.of_arena hA⟩
  refine Holds.add (H.frame (Alters.of_arena hA) (fun _ => rfl) hboth hboth ?_) ht hout
  intro i hi hw
  rw [Set.mem_singleton_iff] at hw
  exact hindex (hw ▸ hi)

/-! ## A chunk in its list -/

/-- The entries of the lists but `c` are among the other chunks. -/
theorem mem_others (H : h.Holds (pre ++ c :: post) lists) {k : SizeClass} {d : Chunk}
    (hd : d ∈ lists k) (hdc : d ≠ c) : d ∈ pre ++ post := by
  have := (H.listed k d hd).1
  simp only [List.mem_append, List.mem_cons] at this ⊢
  tauto

/-- The tags of the other chunks stand when one is replaced apart from them. -/
theorem taggedIn_replaced (H : h.Holds (pre ++ c :: post) lists) {d : Chunk} {b : Arena G}
    (hd : d.TaggedIn b) (hout : ∀ i ∈ tagSlots [d], i ∉ tagSlots (pre ++ post))
    (hA : h.arena.Alters {d.footer} {d.index, d.footer} ∅ b) :
    ∀ e ∈ pre ++ d :: post, e.TaggedIn b := by
  intro e he
  rcases List.mem_cons.mp (List.perm_middle.mem_iff.mp he) with rfl | he
  · exact hd
  have hapart : ∀ i ∈ tagSlots [e], i ∉ ({d.index, d.footer} : Set Nat) := by
    intro i hi
    have hi' : i ∈ tagSlots (pre ++ post) := tagSlots_subset (by simpa using he) hi
    rintro (rfl | rfl)
    · exact hout d.index (by simp) hi'
    · exact hout d.footer (by simp) hi'
  refine (H.tagged e ?_).alters hA (hapart _ (by simp)) (hapart _ (by simp)) (by simp)
  exact List.perm_middle.mem_iff.mpr (List.mem_cons_of_mem _ he)

section Listed

variable {k : SizeClass} {l₁ l₂ : List Chunk} (H : h.Holds (pre ++ c :: post) lists)
  (hlist : lists k = l₁ ++ c :: l₂)

include H hlist

theorem mem_of_sides : ∀ d ∈ l₁ ++ l₂, d ∈ lists k ∧ d ∈ pre ++ post := by
  intro d hd
  have hnodup := H.nodup k
  rw [hlist, List.perm_middle.nodup_iff, List.nodup_cons] at hnodup
  have hdc : d ≠ c := by
    rintro rfl
    exact hnodup.1 hd
  have hdk : d ∈ lists k := by
    rw [hlist]
    simp only [List.mem_append, List.mem_cons] at hd ⊢
    tauto
  exact ⟨hdk, H.mem_others hdk hdc⟩

theorem mem_of_other_list : ∀ j ≠ k, ∀ d ∈ lists j, d ∈ pre ++ post := by
  intro j hj d hd
  apply H.mem_others hd
  rintro rfl
  have hk := (H.listed k d (by rw [hlist]; simp)).2.2
  exact hj ((H.listed j d hd).2.2.symm.trans hk)

/-- Another chunk at the same index takes the place of `c` in its list, with the links of `c`. -/
theorem replace {d : Chunk} {b : Arena G} (hindex : d.index = c.index) (hfree : d.isFree)
    (hk : h.config.classOf d.units = k) (hd : d.TaggedIn b)
    (hout : ∀ i ∈ tagSlots [d], i ∉ tagSlots (pre ++ post))
    (hA : h.arena.Alters {d.footer} {d.index, d.footer} ∅ b)
    (hlink : b.linkAt d.footer = h.arena.linkAt c.footer) :
    (h.withArena b).Holds (pre ++ d :: post) (Function.update lists k (l₁ ++ d :: l₂)) := by
  have hsides := H.mem_of_sides hlist
  have hforeign := H.mem_of_other_list hlist
  have hin : ∀ e ∈ pre ++ post, e ∈ pre ++ d :: post := fun e he =>
    List.perm_middle.mem_iff.mpr (List.mem_cons_of_mem _ he)
  have hkeep : ∀ l : List Chunk, (∀ e ∈ l, e ∈ pre ++ post) → ∀ i ∈ tagSlots l,
      b.linkAt i = h.arena.linkAt i := by
    intro l hl i hi
    apply hA.links i
    rintro rfl
    exact hout d.footer (by simp) (tagSlots_subset hl hi)
  refine ⟨?_, H.taggedIn_replaced hd hout hA, ?_, ?_, ?_, ?_, ?_⟩
  · rw [arena_withArena, hA.size]; exact H.short
  · exact nodup_tagSlots_middle.mpr ⟨(nodup_tagSlots_middle.mp H.apart).1, hout⟩
  · intro j e he
    by_cases hj : j = k
    · subst hj
      rw [Function.update_self] at he
      rcases List.mem_cons.mp (List.perm_middle.mem_iff.mp he) with rfl | he
      · exact ⟨by simp, hfree, hk⟩
      · exact ⟨hin e (hsides e he).2, (H.listed j e (hsides e he).1).2⟩
    · rw [Function.update_of_ne hj] at he
      exact ⟨hin e (hforeign j hj e he), (H.listed j e he).2⟩
  · intro j
    by_cases hj : j = k
    · subst hj
      have hnodup := H.nodup j
      rw [hlist, List.perm_middle.nodup_iff, List.nodup_cons] at hnodup
      rw [Function.update_self, List.perm_middle.nodup_iff, List.nodup_cons]
      refine ⟨?_, hnodup.2⟩
      intro he
      exact hout d.index (by simp) (mem_tagSlots.mpr ⟨_, (hsides _ he).2, .inl rfl⟩)
    · rw [Function.update_of_ne hj]; exact H.nodup j
  · intro j
    rw [head_withArena, H.heads]
    by_cases hj : j = k
    · subst hj
      rw [Function.update_self, hlist, entry_append, entry_append, entry_cons, entry_cons, hindex]
    · rw [Function.update_of_ne hj]
  · intro j
    by_cases hj : j = k
    · subst hj
      have hthread := H.threaded j
      rw [hlist] at hthread
      rw [Function.update_self]
      refine hthread.replace hindex hlink ?_ (hkeep _ fun e he => (hsides e he).2)
      exact hA.links _ (hindex ▸ Nat.ne_of_lt d.index_lt_footer)
    · rw [Function.update_of_ne hj]
      exact (H.threaded j).congr (hkeep _ (hforeign j hj))

/-- A free chunk is resized where it stands in its list; its back link goes along. -/
theorem resizeInPlace {n : Nat} (hn : h.config.classOf n = k)
    (hlt : (c.withUnits n).footer < h.arena.slots.size)
    (hfooter : (c.withUnits n).footer ∉ tagSlots (pre ++ post)) :
    ∃ h', (onArena (Arena.resizeInPlace c.index n)).Runs h () h' ∧
      h'.Holds (pre ++ c.withUnits n :: post)
        (Function.update lists k (l₁ ++ c.withUnits n :: l₂)) ∧
      h.Alters {(c.withUnits n).footer} {c.index, (c.withUnits n).footer} ∅ h' := by
  obtain ⟨-, hfree, -⟩ := H.listed k c (by rw [hlist]; simp)
  have hthread := H.threaded k
  rw [hlist] at hthread
  obtain ⟨-, hback, -, -⟩ := threaded_append.mp hthread
  have hprev : ∀ i ∈ h.arena.linkAt c.footer, i < h.arena.slots.size := by
    rw [hback]
    exact Arena.lt_of_mem_exit fun d hd =>
      (H.taggedIn_of_listed d (H.mem_of_sides hlist d (by simp [hd])).1).sized
  obtain ⟨b, hrun, htb, hlink, hA⟩ :=
    Arena.exists_resizeInPlace H.short (H.tagged c (by simp)) hlt hprev
  have hindex := (nodup_tagSlots_middle.mp H.apart).2 c.index (by simp)
  have hout := notMem_tagSlots_withUnits hindex hfooter
  refine ⟨h.withArena b, runs_onArena hrun, ?_, Alters.of_arena hA⟩
  exact H.replace hlist rfl hfree hn htb hout hA hlink

end Listed

end Holds

end Heap

end BoundaryTag
