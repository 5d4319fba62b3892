import BoundaryTag.Heap.Links
import BoundaryTag.Proofs.Thread

/-!
# The free lists as sequences

An edit of a free list works on that list alone. `h.Lists k l` says of one list what an edit
relies on: the chunks `l` are linked both ways from the head, their headers give their sizes,
and no two of their tags share a slot. Status words and the sizes in the footers are not looked
at. `h.Alters L U W h'` is the frame of an operation.

`h.Holds chunks lists` says that the tags of `chunks` stand in the memory of
`h`, and that its free lists, followed from the heads, are the sequences
`lists`. Nothing is said about how the chunks lie to each other but that no two
tags share a slot: the lists are edited while the arena is not tiled, and while
free chunks are in no list.

Results:

* `Lists.pushFront`, `Lists.insertAfter`, `Lists.unlink`: each edit succeeds, does to the
  sequence what its name says, and writes nothing but links in the tags of the list.
* `Holds.pushFront`, `Holds.insertAfter`, `Holds.unlink`: so no other sequence, no
  size and no status changes.
-/

namespace BoundaryTag

/-- The chunks of each free list, in their order. -/
abbrev FreeLists := SizeClass → List Chunk

/-- A sequence in which `c` was put behind `p`. -/
theorem perm_insert_behind {α : Type} (l₁ l₂ : List α) (p c : α) :
    (l₁ ++ p :: c :: l₂).Perm (c :: (l₁ ++ p :: l₂)) := by
  rw [List.append_cons, List.append_cons l₁ p l₂]
  exact List.perm_middle

namespace Arena

variable {G : Type}

/-! ## Links along a sequence -/

/-- The arena `b` is `a` but for its links, which are `link`. -/
structure Relinked (a : Arena G) (link : Nat → Option Nat) (b : Arena G) : Prop where
  links : b.linkAt = link
  size : b.slots.size = a.slots.size
  units : b.unitsAt = a.unitsAt
  words : b.wordAt = a.wordAt
  start : b.start = a.start
  grower : b.grower = a.grower

namespace Relinked

variable {a b b' : Arena G} {link link' : Nat → Option Nat}

theorem refl (a : Arena G) : a.Relinked a.linkAt a := ⟨rfl, rfl, rfl, rfl, rfl, rfl⟩

theorem trans (R : a.Relinked link b) (R' : b.Relinked link' b') : a.Relinked link' b' :=
  ⟨R'.links, R'.size.trans R.size, R'.units.trans R.units, R'.words.trans R.words,
    R'.start.trans R.start, R'.grower.trans R.grower⟩

theorem short (R : a.Relinked link b) (hs : a.slots.size < Word.limit) :
    b.slots.size < Word.limit := by
  rw [R.size]
  exact hs

theorem lt (R : a.Relinked link b) {v : Option Nat} (hv : ∀ i ∈ v, i < a.slots.size) :
    ∀ i ∈ v, i < b.slots.size := by
  rw [R.size]
  exact hv

theorem taggedIn (R : a.Relinked link b) {c : Chunk} (hc : c.TaggedIn a) : c.TaggedIn b :=
  hc.congr R.units R.words

theorem sizedIn (R : a.Relinked link b) {c : Chunk} (hc : c.SizedIn a) : c.SizedIn b :=
  hc.congr R.units R.size

/-- A change of links is a frame without unit counts and status words. -/
theorem alters (R : a.Relinked link b) {L : Set Nat} (hl : ∀ i ∉ L, link i = a.linkAt i) :
    a.Alters L ∅ ∅ b := by
  refine ⟨R.start, R.size, R.grower, ?_, ?_, ?_⟩
  · intro i hi
    rw [R.links, hl i hi]
  · intro i _
    rw [R.units]
  · intro i _
    rw [R.words]

end Relinked

section Links

variable {a : Arena G} {l : List Chunk} {c : Chunk} {v w : Option Nat}

theorem lt_of_mem_entry (hl : ∀ c ∈ l, c.SizedIn a) : ∀ i ∈ entry l none, i < a.slots.size := by
  intro i hi
  obtain ⟨c, hc, rfl⟩ := mem_entry hi
  exact (hl c hc).index_lt

theorem lt_of_mem_exit (hl : ∀ c ∈ l, c.SizedIn a) : ∀ i ∈ exit none l, i < a.slots.size := by
  intro i hi
  obtain ⟨c, hc, rfl⟩ := mem_exit hi
  exact (hl c hc).index_lt

variable (hs : a.slots.size < Word.limit)

include hs

/-- The index of a slot is no link word that stands for nothing. -/
theorem fits_of_lt (hv : ∀ i ∈ v, i < a.slots.size) : ∀ i ∈ v, i < Word.top := by
  intro i hi
  have := hv i hi
  unfold Word.limit at hs
  unfold Word.top
  omega

theorem relinked_withLink {i : Nat} (hi : i < a.slots.size) (hv : ∀ j ∈ v, j < a.slots.size) :
    a.Relinked (Function.update a.linkAt i v) (a.withLink i v) := by
  refine ⟨linkAt_withLink hi (fits_of_lt hs hv), ?_, ?_, ?_, ?_, ?_⟩ <;> simp

/-- The first chunk of a sequence is linked back, if there is one. -/
theorem exists_linkBack (hl : ∀ c ∈ l, c.SizedIn a) (hv : ∀ i ∈ v, i < a.slots.size) :
    ∃ b, (linkBack (entry l none) v).Runs a () b ∧ a.Relinked (relinkFirst a.linkAt l v) b := by
  cases l with
  | nil => exact ⟨a, Action.runs_pure _ _, Relinked.refl a⟩
  | cons c l =>
    have hc := hl c (by simp)
    refine ⟨_, runs_setPrevFree (hc.footerOf_eq hs) hc.footer_lt v, ?_⟩
    exact relinked_withLink hs hc.footer_lt hv

/-- The last chunk of a sequence is linked on. -/
theorem exists_linkOn (hc : c.SizedIn a) (hv : ∀ i ∈ v, i < a.slots.size) :
    ∃ b, (setNextFree c.index v).Runs a () b ∧
      a.Relinked (relinkLast a.linkAt (l ++ [c]) v) b := by
  refine ⟨_, runs_setNextFree hc.index_lt v, ?_⟩
  unfold relinkLast
  rw [List.getLast?_concat]
  exact relinked_withLink hs hc.index_lt hv

/-- Both links of a chunk are set. -/
theorem exists_relinkSelf (hc : c.SizedIn a) (hv : ∀ i ∈ v, i < a.slots.size)
    (hw : ∀ i ∈ w, i < a.slots.size) :
    ∃ b, (do setNextFree c.index v; setPrevFree c.index w : Action (Arena G) Unit).Runs a () b ∧
      a.Relinked (relinkSelf a.linkAt c v w) b := by
  have R₁ := relinked_withLink hs hc.index_lt hv
  have hs₁ := R₁.short hs
  have hc₁ := R₁.sizedIn hc
  have R₂ := relinked_withLink hs₁ hc₁.footer_lt (R₁.lt hw)
  rw [R₁.links] at R₂
  refine ⟨_, ?_, R₁.trans R₂⟩
  apply Action.Runs.bind (runs_setNextFree hc.index_lt v)
  exact runs_setPrevFree (hc₁.footerOf_eq hs₁) hc₁.footer_lt w

/-- A chunk is linked to a sequence that is to follow it. -/
theorem exists_linkAhead (hc : c.SizedIn a) (hl : ∀ d ∈ l, d.SizedIn a)
    (hw : ∀ i ∈ w, i < a.slots.size) :
    ∃ b, (do
        setNextFree c.index (entry l none)
        setPrevFree c.index w
        linkBack (entry l none) (some c.index) : Action (Arena G) Unit).Runs a () b ∧
      a.Relinked (relinkFirst (relinkSelf a.linkAt c (entry l none) w) l (some c.index)) b := by
  have hindex : ∀ i ∈ some c.index, i < a.slots.size := by
    intro i hi; cases hi; exact hc.index_lt
  obtain ⟨a₁, hrun₁, R₁⟩ := exists_relinkSelf hs hc (lt_of_mem_entry hl) hw
  obtain ⟨a₂, hrun₂, R₂⟩ := exists_linkBack (R₁.short hs) (fun d hd => R₁.sizedIn (hl d hd))
    (R₁.lt hindex)
  rw [R₁.links] at R₂
  refine ⟨a₂, ?_, R₁.trans R₂⟩
  simpa using hrun₁.bind (f := fun _ => linkBack (entry l none) (some c.index)) hrun₂

end Links

end Arena

namespace Heap

variable {G : Type}

/-! ## Frames -/

/-- The heap `h'` differs from `h` in the heads of its lists and in the given fields of slots. -/
structure Alters (h : Heap G) (L U W : Set Nat) (h' : Heap G) : Prop where
  config : h'.config = h.config
  arena : h.arena.Alters L U W h'.arena

namespace Alters

variable {h h' h'' : Heap G} {L U W L' U' W' : Set Nat}

theorem refl (h : Heap G) (L U W : Set Nat) : h.Alters L U W h := ⟨rfl, Arena.Alters.refl _ _ _ _⟩

theorem mono (H : h.Alters L U W h') (hL : L ⊆ L') (hU : U ⊆ U') (hW : W ⊆ W') :
    h.Alters L' U' W' h' := ⟨H.config, H.arena.mono hL hU hW⟩

theorem trans (H : h.Alters L U W h') (H' : h'.Alters L U W h'') : h.Alters L U W h'' :=
  ⟨H'.config.trans H.config, H.arena.trans H'.arena⟩

theorem of_arena {a : Arena G} (H : h.arena.Alters L U W a) : h.Alters L U W (h.withArena a) :=
  ⟨rfl, H⟩

/-- A change of heads and links that leaves all of them as they were is none. -/
theorem eq_of_links (H : h.Alters L ∅ ∅ h')
    (hl : ∀ i ∈ L, h'.arena.linkAt i = h.arena.linkAt i) (hheads : ∀ k, h'.head k = h.head k) :
    h' = h := by
  have harena := H.arena.eq_of_links hl
  have hconfig := H.config
  have hvector : h'.heads = h.heads := Vector.ext fun i hi => hheads ⟨i, hi⟩
  cases h
  cases h'
  simp only at harena hconfig hvector
  rw [harena, hconfig, hvector]

end Alters

/-! ## One list -/

/-- The chunks `l`, no two of whose tags share a slot, are the free list `k`. They are linked both
ways in their order. -/
structure Lists (h : Heap G) (k : SizeClass) (l : List Chunk) : Prop where
  sized : ∀ c ∈ l, c.SizedIn h.arena
  classes : ∀ c ∈ l, h.config.classOf c.units = k
  apart : (tagSlots l).Nodup
  head : h.head k = entry l none
  threaded : Threaded h.arena.linkAt none l none

/-- The class of a chunk is read from its header. -/
theorem classAt_eq_of_sized {h : Heap G} {c : Chunk} (hc : c.SizedIn h.arena) :
    h.classAt c.index = .ok (h.config.classOf c.units) := by
  simp [classAt, hc.units_eq, bind, Except.bind, pure, Except.pure]

namespace Lists

variable {h h' : Heap G} {k j : SizeClass} {l l₁ l₂ : List Chunk} {c p : Chunk}

/-- A list whose head and tags are left alone. -/
theorem frame (S : h.Lists k l) {L W : Set Nat} (A : h.Alters L ∅ W h')
    (hhead : h'.head k = h.head k) (hL : ∀ i ∈ tagSlots l, i ∉ L) : h'.Lists k l where
  sized c hc := (S.sized c hc).congr A.arena.unitsAt_eq A.arena.size
  classes c hc := by
    rw [A.config]
    exact S.classes c hc
  apart := S.apart
  head := hhead.trans S.head
  threaded := S.threaded.congr fun i hi => A.arena.links i (hL i hi)

/-- A list that is threaded anew, from a new head. -/
theorem of_relinked {link : Nat → Option Nat} (R : h.arena.Relinked link h'.arena)
    (hconfig : h'.config = h.config)
    (hmem : ∀ d ∈ l, d.SizedIn h.arena ∧ h.config.classOf d.units = k) (hl : (tagSlots l).Nodup)
    (hhead : h'.head k = entry l none) (hthread : Threaded link none l none) : h'.Lists k l where
  sized d hd := R.sizedIn (hmem d hd).1
  classes d hd := by
    rw [hconfig]
    exact (hmem d hd).2
  apart := hl
  head := hhead
  threaded := by
    rw [R.links]
    exact hthread

/-- A list with one more chunk of its class, wherever that was put. -/
theorem mem_of_perm (S : h.Lists k l) (hc : c.SizedIn h.arena) (hk : h.config.classOf c.units = k)
    {m : List Chunk} (hm : m.Perm (c :: l)) :
    ∀ d ∈ m, d.SizedIn h.arena ∧ h.config.classOf d.units = k := by
  intro d hd
  rcases List.mem_cons.mp (hm.mem_iff.mp hd) with rfl | hd
  · exact ⟨hc, hk⟩
  · exact ⟨S.sized d hd, S.classes d hd⟩

/-! ### Edits -/

variable (hs : h.arena.slots.size < Word.limit)

include hs

/-- A chunk enters its list at the front. -/
theorem pushFront (S : h.Lists k l) (hc : c.SizedIn h.arena) (hk : h.config.classOf c.units = k)
    (hapart : (tagSlots (c :: l)).Nodup) :
    ∃ h', (Heap.pushFront c.index).Runs h () h' ∧ h'.Lists k (c :: l) ∧
      h.Alters {i | i ∈ tagSlots (c :: l)} ∅ ∅ h' ∧ ∀ j ≠ k, h'.head j = h.head j := by
  obtain ⟨a, hrun, R⟩ := Arena.exists_linkAhead (w := none) hs hc S.sized (by simp)
  have hrun' : (Heap.pushFront c.index).Runs h () ((h.withArena a).withHead k (some c.index)) := by
    apply Action.Runs.bind (Action.runs_read (by exact classAt_eq_of_sized hc))
    apply Action.Runs.bind (Action.runs_read (by exact rfl))
    rw [hk, S.head]
    exact Action.Runs.bind (runs_onArena hrun) (runs_setHead _ _ _)
  have hlinks : ∀ i ∉ tagSlots (c :: l), relinkFirst (relinkSelf h.arena.linkAt c
      (entry l none) none) l (some c.index) i = h.arena.linkAt i := by
    intro i hi
    simp only [tagSlots_cons, List.mem_cons, not_or] at hi
    rw [relinkFirst_of_notMem _ _ hi.2.2, relinkSelf_of_notMem _ _ _ (by simp; tauto)]
  refine ⟨_, hrun', ?_, ⟨rfl, R.alters hlinks⟩, ?_⟩
  · refine of_relinked R rfl (S.mem_of_perm hc hk (List.Perm.refl _)) hapart ?_
      (S.threaded.cons hapart)
    rw [head_withHead, if_pos rfl, entry_cons]
  · intro j hj
    rw [head_withHead, if_neg hj, head_withArena]

/-- A chunk enters its list behind a chunk below it. -/
theorem insertAfter (S : h.Lists k (l₁ ++ p :: l₂)) (hc : c.SizedIn h.arena)
    (hk : h.config.classOf c.units = k) (hapart : (tagSlots (c :: (l₁ ++ p :: l₂))).Nodup)
    (hlt : p.index < c.index) :
    ∃ h', (Heap.insertAfter p.index c.index).Runs h () h' ∧ h'.Lists k (l₁ ++ p :: c :: l₂) ∧
      h.Alters {i | i ∈ tagSlots (c :: (l₁ ++ p :: l₂))} ∅ ∅ h' ∧ ∀ j, h'.head j = h.head j := by
  have hp : p.SizedIn h.arena := S.sized p (by simp)
  have hl₂ : ∀ d ∈ l₂, d.SizedIn h.arena := fun d hd => S.sized d (by simp [hd])
  have hthread := S.threaded
  rw [List.append_cons] at hthread
  have hnext : h.arena.linkAt p.index = entry l₂ none :=
    (threaded_concat.mp (threaded_append.mp hthread).1).2.2
  have hindex : ∀ i ∈ some c.index, i < h.arena.slots.size := by
    intro i hi; cases hi; exact hc.index_lt
  have hpindex : ∀ i ∈ some p.index, i < h.arena.slots.size := by
    intro i hi; cases hi; exact hp.index_lt
  obtain ⟨a₁, hrun₁, R₁⟩ := Arena.exists_linkAhead hs hc hl₂ hpindex
  obtain ⟨a₂, hrun₂, R₂⟩ := Arena.exists_linkOn (l := l₁) (R₁.short hs) (R₁.sizedIn hp)
    (R₁.lt hindex)
  rw [R₁.links] at R₂
  have R := R₁.trans R₂
  have hrun : (Heap.insertAfter p.index c.index).Runs h () (h.withArena a₂) := by
    refine Action.Runs.bind (Action.runs_require _ (by simpa using hlt) _) (runs_onArena ?_)
    apply Action.Runs.bind (Action.runs_read (by exact hp.nextFree_eq))
    rw [hnext]
    simpa using hrun₁.bind (f := fun _ => Arena.setNextFree p.index (some c.index)) hrun₂
  have hlinks : ∀ i ∉ tagSlots (c :: (l₁ ++ p :: l₂)), relinkLast (relinkFirst
      (relinkSelf h.arena.linkAt c (entry l₂ none) (some p.index)) l₂ (some c.index)) (l₁ ++ [p])
        (some c.index) i = h.arena.linkAt i := by
    intro i hi
    simp only [tagSlots_cons, tagSlots_append, List.mem_cons, List.mem_append, not_or] at hi
    rw [relinkLast_of_notMem _ _ (by simp; tauto), relinkFirst_of_notMem _ _ (by tauto),
      relinkSelf_of_notMem _ _ _ (by simp; tauto)]
  have hperm := perm_insert_behind l₁ l₂ p c
  have htags := (hperm.flatMap_right fun c : Chunk => [c.index, c.footer]).nodup_iff.mpr hapart
  refine ⟨_, hrun, ?_, ⟨rfl, R.alters hlinks⟩, fun j => rfl⟩
  refine of_relinked R rfl (S.mem_of_perm hc hk hperm) htags ?_ ?_
  · rw [head_withArena, S.head, entry_append, entry_append]; rfl
  · rw [List.append_cons l₁ p (c :: l₂)] at htags ⊢
    rw [← exit_concat none l₁ p]
    exact hthread.insert htags

/-- The link from the predecessor of a chunk, or the head of its list, leads past it. -/
theorem runs_bypass (S : h.Lists k (l₁ ++ c :: l₂)) :
    ∃ h', (Heap.bypass c.index (exit none l₁) (entry l₂ none)).Runs h () h' ∧
      h.arena.Relinked (relinkLast h.arena.linkAt l₁ (entry l₂ none)) h'.arena ∧
      h'.config = h.config ∧ h'.head k = entry (l₁ ++ l₂) none ∧
      ∀ j ≠ k, h'.head j = h.head j := by
  have hc : c.SizedIn h.arena := S.sized c (by simp)
  have hk : h.config.classOf c.units = k := S.classes c (by simp)
  rcases List.eq_nil_or_concat' l₁ with rfl | ⟨l, p, rfl⟩
  · refine ⟨h.withHead k (entry l₂ none), ?_, Arena.Relinked.refl _, rfl, ?_, ?_⟩
    · apply Action.Runs.bind (Action.runs_read (by exact classAt_eq_of_sized hc))
      apply Action.Runs.bind (Action.runs_read (by exact rfl))
      have hhead : h.head k = some c.index := S.head
      rw [hk, hhead]
      exact Action.Runs.bind (Action.runs_require _ (by simp) _) (runs_setHead _ _ _)
    · rw [head_withHead, if_pos rfl, List.nil_append]
    · intro j hj
      rw [head_withHead, if_neg hj]
  · have hl₂ : ∀ d ∈ l₂, d.SizedIn h.arena := fun d hd => S.sized d (by simp [hd])
    obtain ⟨a, hrun, R⟩ := Arena.exists_linkOn (l := l) hs (S.sized p (by simp))
      (Arena.lt_of_mem_entry hl₂)
    refine ⟨h.withArena a, ?_, R, rfl, ?_, fun j _ => rfl⟩
    · rw [exit_concat]
      exact runs_onArena hrun
    · rw [head_withArena, S.head]; simp

/-- A free chunk leaves its list from any place. -/
theorem unlink (S : h.Lists k (l₁ ++ c :: l₂)) (hfree : h.arena.isFree c.index = .ok true) :
    ∃ h', (Heap.unlink c.index).Runs h () h' ∧ h'.Lists k (l₁ ++ l₂) ∧
      h.Alters {i | i ∈ tagSlots (l₁ ++ c :: l₂)} ∅ ∅ h' ∧ (∀ j ≠ k, h'.head j = h.head j) ∧
      h'.arena.linkAt c.index = none ∧ h'.arena.linkAt c.footer = none := by
  have hc : c.SizedIn h.arena := S.sized c (by simp)
  have hl₁ : ∀ d ∈ l₁, d.SizedIn h.arena := fun d hd => S.sized d (by simp [hd])
  have hl₂ : ∀ d ∈ l₂, d.SizedIn h.arena := fun d hd => S.sized d (by simp [hd])
  obtain ⟨-, hback, hnext, -⟩ := threaded_append.mp S.threaded
  obtain ⟨h₁, hbypass, R₁, hconfig, hhead, hheads⟩ := S.runs_bypass hs
  obtain ⟨a₂, hrun₂, R₂⟩ := Arena.exists_linkBack (R₁.short hs) (fun d hd => R₁.sizedIn (hl₂ d hd))
    (R₁.lt (Arena.lt_of_mem_exit hl₁))
  rw [R₁.links] at R₂
  have R₁₂ := R₁.trans R₂
  obtain ⟨a₃, hrun₃, R₃⟩ := Arena.exists_relinkSelf (v := none) (w := none) (R₁₂.short hs)
    (R₁₂.sizedIn hc) (by simp) (by simp)
  rw [R₂.links] at R₃
  have R := R₁₂.trans R₃
  have hrun : (Heap.unlink c.index).Runs h () (h₁.withArena a₃) := by
    unfold Heap.unlink
    apply Action.Runs.bind (Action.runs_read (by exact hfree))
    apply Action.Runs.bind (Action.runs_require _ rfl _)
    apply Action.Runs.bind (Action.runs_read (by exact hc.prevFree_eq hs))
    apply Action.Runs.bind (Action.runs_read (by exact hc.nextFree_eq))
    rw [hback, hnext]
    exact Action.Runs.bind hbypass (runs_onArena (Action.Runs.bind hrun₂ hrun₃))
  have hlinks : ∀ i ∉ tagSlots (l₁ ++ c :: l₂), relinkSelf (relinkFirst (relinkLast h.arena.linkAt
      l₁ (entry l₂ none)) l₂ (exit none l₁)) c none none i = h.arena.linkAt i := by
    intro i hi
    simp only [tagSlots_cons, tagSlots_append, List.mem_cons, List.mem_append, not_or] at hi
    rw [relinkSelf_of_notMem _ _ _ (by simp; tauto), relinkFirst_of_notMem _ _ (by tauto),
      relinkLast_of_notMem _ _ hi.1]
  have hsub : (l₁ ++ l₂).Sublist (l₁ ++ c :: l₂) := (List.sublist_cons_self c l₂).append_left l₁
  have hmem : ∀ d ∈ l₁ ++ l₂, d.SizedIn h.arena ∧ h.config.classOf d.units = k := fun d hd =>
    ⟨S.sized d (hsub.mem hd), S.classes d (hsub.mem hd)⟩
  have htags : (tagSlots (l₁ ++ l₂)).Nodup := S.apart.sublist (hsub.flatMap _)
  refine ⟨_, hrun, ?_, ⟨hconfig, R.alters hlinks⟩, hheads, ?_, ?_⟩
  · exact of_relinked R hconfig hmem htags hhead (S.threaded.remove S.apart)
  · rw [arena_withArena, R.links, relinkSelf_index]
  · rw [arena_withArena, R.links, relinkSelf_footer]

end Lists

/-! ## What a heap holds -/

/-- The tags of `chunks` stand in memory, and `lists` are the free lists. -/
structure Holds (h : Heap G) (chunks : List Chunk) (lists : FreeLists) : Prop where
  short : h.arena.slots.size ≤ maxUnits
  tagged : ∀ c ∈ chunks, c.TaggedIn h.arena
  apart : (tagSlots chunks).Nodup
  /-- Every entry is a free chunk, in the list of its class. -/
  listed : ∀ k, ∀ c ∈ lists k, c ∈ chunks ∧ c.isFree ∧ h.config.classOf c.units = k
  nodup : ∀ k, (lists k).Nodup
  heads : ∀ k, h.head k = entry (lists k) none
  threaded : ∀ k, Threaded h.arena.linkAt none (lists k) none

namespace Holds

variable {h h' : Heap G} {chunks l : List Chunk} {lists : FreeLists} {c : Chunk} {k : SizeClass}

theorem taggedIn_of_listed (H : h.Holds chunks lists) : ∀ c ∈ lists k, c.TaggedIn h.arena :=
  fun c hc => H.tagged c (H.listed k c hc).1

theorem classAt_eq (H : h.Holds chunks lists) (hc : c ∈ chunks) :
    h.classAt c.index = .ok (h.config.classOf c.units) := classAt_eq_of_sized (H.tagged c hc).sized

theorem short_lt (H : h.Holds chunks lists) : h.arena.slots.size < Word.limit :=
  lt_limit_of_le_maxUnits H.short

theorem list (H : h.Holds chunks lists) (k : SizeClass) : h.Lists k (lists k) where
  sized c hc := (H.taggedIn_of_listed c hc).sized
  classes c hc := (H.listed k c hc).2.2
  apart := nodup_tagSlots_of_subset H.apart (H.nodup k) fun c hc => (H.listed k c hc).1
  head := H.heads k
  threaded := H.threaded k

/-- The tags of a list and of one more chunk of its class are no tags of another list. -/
theorem notMem_of_ne (H : h.Holds chunks lists) (hc : c ∈ chunks)
    (hk : h.config.classOf c.units = k) {j : SizeClass} (hj : j ≠ k) :
    ∀ i ∈ tagSlots (lists j), i ∉ tagSlots (c :: lists k) := by
  intro i hi hi'
  obtain ⟨d, hd, hid⟩ := mem_tagSlots.mp hi
  obtain ⟨e, he, hie⟩ := mem_tagSlots.mp hi'
  obtain ⟨hdm, -, hdk⟩ := H.listed j d hd
  have hem : e ∈ chunks ∧ h.config.classOf e.units = k := by
    rcases List.mem_cons.mp he with rfl | he
    · exact ⟨hc, hk⟩
    · exact ⟨(H.listed k e he).1, (H.listed k e he).2.2⟩
  have hne : d ≠ e := by
    rintro rfl
    exact hj (hdk.symm.trans hem.2)
  have := tagSlots_apart H.apart hdm hem.1 hne
  omega

/-- One list is edited. Its tags, and those of one chunk more, are not tags of another list. -/
theorem relist (H : h.Holds chunks lists) (hc : c ∈ chunks) (hk : h.config.classOf c.units = k)
    (S : h'.Lists k l) (A : h.Alters {i | i ∈ tagSlots (c :: lists k)} ∅ ∅ h')
    (hheads : ∀ j ≠ k, h'.head j = h.head j) (hmem : ∀ d ∈ l, d ∈ chunks ∧ d.isFree) :
    h'.Holds chunks (Function.update lists k l) := by
  have hlists : ∀ j, h'.Lists j (Function.update lists k l j) := by
    intro j
    by_cases hj : j = k
    · subst hj
      rw [Function.update_self]
      exact S
    · rw [Function.update_of_ne hj]
      exact (H.list j).frame A (hheads j hj) (H.notMem_of_ne hc hk hj)
  refine ⟨?_, ?_, H.apart, ?_, fun j => nodup_of_nodup_tagSlots (hlists j).apart,
    fun j => (hlists j).head, fun j => (hlists j).threaded⟩
  · rw [A.arena.size]
    exact H.short
  · exact fun d hd => (H.tagged d hd).alters A.arena (by simp) (by simp) (by simp)
  · intro j d hd
    refine ⟨?_, ?_, (hlists j).classes d hd⟩ <;>
    · by_cases hj : j = k
      · subst hj
        rw [Function.update_self] at hd
        have := hmem d hd
        tauto
      · rw [Function.update_of_ne hj] at hd
        have := H.listed j d hd
        tauto

/-! ### Edits -/

/-- The tags of a list and of a chunk outside it are apart. -/
theorem nodup_tagSlots_cons (H : h.Holds chunks lists) (hc : c ∈ chunks) (hnew : c ∉ lists k) :
    (tagSlots (c :: lists k)).Nodup := by
  refine nodup_tagSlots_of_subset H.apart (List.nodup_cons.mpr ⟨hnew, H.nodup k⟩) fun d hd => ?_
  rcases List.mem_cons.mp hd with rfl | hd
  · exact hc
  · exact (H.listed k d hd).1

/-- The entries of a list with one more free chunk, wherever that was put. -/
theorem mem_of_perm (H : h.Holds chunks lists) (hc : c ∈ chunks) (hfree : c.isFree)
    (hl : l.Perm (c :: lists k)) : ∀ d ∈ l, d ∈ chunks ∧ d.isFree := by
  intro d hd
  rcases List.mem_cons.mp (hl.mem_iff.mp hd) with rfl | hd
  · exact ⟨hc, hfree⟩
  · exact ⟨(H.listed k d hd).1, (H.listed k d hd).2.1⟩

/-- A chunk enters its list at the front. -/
theorem pushFront (H : h.Holds chunks lists) (hc : c ∈ chunks) (hfree : c.isFree)
    (hk : h.config.classOf c.units = k) (hnew : c ∉ lists k) :
    ∃ h', (Heap.pushFront c.index).Runs h () h' ∧
      h'.Holds chunks (Function.update lists k (c :: lists k)) ∧
      h.Alters {i | i ∈ tagSlots (c :: lists k)} ∅ ∅ h' := by
  obtain ⟨h', hrun, S, A, hheads⟩ := (H.list k).pushFront H.short_lt (H.tagged c hc).sized hk
    (H.nodup_tagSlots_cons hc hnew)
  exact ⟨h', hrun, H.relist hc hk S A hheads (H.mem_of_perm hc hfree (List.Perm.refl _)), A⟩

/-- A chunk enters its list behind a chunk below it. -/
theorem insertAfter {p : Chunk} {l₁ l₂ : List Chunk} (H : h.Holds chunks lists) (hc : c ∈ chunks)
    (hfree : c.isFree) (hk : h.config.classOf c.units = k) (hlist : lists k = l₁ ++ p :: l₂)
    (hnew : c ∉ lists k) (hlt : p.index < c.index) :
    ∃ h', (Heap.insertAfter p.index c.index).Runs h () h' ∧
      h'.Holds chunks (Function.update lists k (l₁ ++ p :: c :: l₂)) ∧
      h.Alters {i | i ∈ tagSlots (c :: lists k)} ∅ ∅ h' := by
  have hapart := H.nodup_tagSlots_cons hc hnew
  have S := H.list k
  rw [hlist] at hapart S
  obtain ⟨h', hrun, S', A, hheads⟩ := S.insertAfter H.short_lt (H.tagged c hc).sized hk hapart hlt
  rw [← hlist] at A
  have hperm := perm_insert_behind l₁ l₂ p c
  rw [← hlist] at hperm
  exact ⟨h', hrun, H.relist hc hk S' A (fun j _ => hheads j) (H.mem_of_perm hc hfree hperm), A⟩

/-- A chunk leaves its list from any place. -/
theorem unlink {l₁ l₂ : List Chunk} (H : h.Holds chunks lists) (hlist : lists k = l₁ ++ c :: l₂) :
    ∃ h', (Heap.unlink c.index).Runs h () h' ∧
      h'.Holds chunks (Function.update lists k (l₁ ++ l₂)) ∧
      h.Alters {i | i ∈ tagSlots (lists k)} ∅ ∅ h' ∧
      h'.arena.linkAt c.index = none ∧ h'.arena.linkAt c.footer = none := by
  obtain ⟨hc, hfree, hk⟩ := H.listed k c (by rw [hlist]; simp)
  have hisFree := (H.tagged c hc).isFree_eq
  rw [hfree] at hisFree
  have S := H.list k
  rw [hlist] at S
  obtain ⟨h', hrun, S', A, hheads, hnone⟩ := S.unlink H.short_lt hisFree
  rw [← hlist] at A
  have hmem : ∀ d ∈ l₁ ++ l₂, d ∈ chunks ∧ d.isFree := by
    intro d hd
    obtain ⟨hdc, hdfree, -⟩ := H.listed k d (by
      rw [hlist]
      simp only [List.mem_append, List.mem_cons] at hd ⊢
      tauto)
    exact ⟨hdc, hdfree⟩
  have hsub : ∀ i ∈ tagSlots (lists k), i ∈ tagSlots (c :: lists k) := fun i hi => by simp [hi]
  exact ⟨h', hrun, H.relist hc hk S' (A.mono hsub (Set.Subset.refl _) (Set.Subset.refl _)) hheads
    hmem, A, hnone⟩

end Holds

end Heap

end BoundaryTag
