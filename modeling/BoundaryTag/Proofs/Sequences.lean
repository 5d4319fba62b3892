import BoundaryTag.Proofs.FreeLists
import BoundaryTag.Proofs.Paving

/-!
# What an edit of a list needs

The edits of the free lists read links, unit counts in headers and, on leaving, one status word.
Here their results are stated in these terms only: a list is a sequence of headers through which
the next links lead from the head, and the back links lead back. What the footers say of the
size, and whether the chunks of the list are free, does not matter; nor does it matter how the
chunks lie, as long as no two of them share the slot of a header or a footer.

Results:

* `lists_iff`: that a list is such a sequence is what `Lists` says.
* `Sequence.pushFront`, `Sequence.insertAfter`, `Sequence.unlink`: the edits of one list.
* `Sequences.edits_exact`: the edits among all lists.
-/

namespace BoundaryTag

variable {G : Type}

namespace Arena

variable {a b : Arena G} {l m : List Nat} {c d f : Nat} {before cursor : Option Nat}

/-! ## Links and slots -/

/-- The next links lead from `cursor` through `l` and end there. -/
def Leads (a : Arena G) : Option Nat → List Nat → Prop
  | cursor, [] => cursor = none
  | cursor, c :: l => cursor = some c ∧ ∃ next, a.nextFree c = .ok next ∧ a.Leads next l

/-- Every chunk of `l` links back to the one before it, and the first one to `before`. -/
def LeadsBack (a : Arena G) : Option Nat → List Nat → Prop
  | _, [] => True
  | before, c :: l => a.prevFree c = .ok before ∧ a.LeadsBack (some c) l

/-- The headers of `l` and their footers lie in the arena, and no two share a slot. -/
structure Apart (a : Arena G) (l : List Nat) : Prop where
  inside : ∀ c ∈ l, ∃ f, a.footerOf c = .ok f ∧ f < a.length
  distinct : l.Pairwise fun c d => ∀ f g, a.footerOf c = .ok f → a.footerOf d = .ok g →
    c ≠ d ∧ c ≠ g ∧ f ≠ d ∧ f ≠ g

/-- The slots of the headers of `l` and of their footers. -/
def tags (a : Arena G) (l : List Nat) : Set Nat := {i | ∃ c ∈ l, i = c ∨ a.footerOf c = .ok i}

namespace Apart

theorem sublist (h : a.Apart l) (hm : m.Sublist l) : a.Apart m :=
  ⟨fun c hc => h.inside c (hm.mem hc), h.distinct.sublist hm⟩

theorem ne (h : a.Apart l) (hc : c ∈ l) (hd : d ∈ l) (hcd : c ≠ d) :
    ∀ f g, a.footerOf c = .ok f → a.footerOf d = .ok g → c ≠ g ∧ f ≠ d ∧ f ≠ g := by
  have hsymm : Std.Symm fun c d => ∀ f g, a.footerOf c = .ok f → a.footerOf d = .ok g →
      c ≠ d ∧ c ≠ g ∧ f ≠ d ∧ f ≠ g := ⟨fun c d hcd f g hf hg => by
    have := hcd g f hg hf
    omega⟩
  intro f g hf hg
  exact (h.distinct.forall hc hd hcd f g hf hg).2

/-- A part of the chunks, in any order. -/
theorem subset (h : a.Apart l) (hm : m.Nodup) (hsub : ∀ c ∈ m, c ∈ l) : a.Apart m := by
  refine ⟨fun c hc => h.inside c (hsub c hc), ?_⟩
  exact hm.imp_of_mem fun {c d} hc hd hcd f g hf hg =>
    ⟨hcd, h.ne (hsub c hc) (hsub d hd) hcd f g hf hg⟩

/-- Different chunks have different tags. -/
theorem notMem_tags {n : List Nat} (h : a.Apart l) (hm : ∀ c ∈ m, c ∈ l) (hn : ∀ c ∈ n, c ∈ l)
    (hdisjoint : ∀ c ∈ m, c ∉ n) : ∀ i ∈ a.tags m, i ∉ a.tags n := by
  rintro i ⟨c, hc, hic⟩ ⟨d, hd, hid⟩
  have hcd : c ≠ d := by
    rintro rfl
    exact hdisjoint c hc hd
  obtain ⟨f, hf, -⟩ := h.inside c (hm c hc)
  obtain ⟨g, hg, -⟩ := h.inside d (hn d hd)
  have := h.ne (hm c hc) (hn d hd) hcd f g hf hg
  rw [hf, Except.ok.injEq] at hic
  rw [hg, Except.ok.injEq] at hid
  omega

end Apart

/-! ## Headers as chunks -/

/-- The chunk behind a header, as far as the header tells its size. -/
def chunkOf (a : Arena G) (c : Nat) : Chunk := ⟨c, (a.unitsAt c).getD 0, .free⟩

@[simp] theorem index_chunkOf (a : Arena G) (c : Nat) : (a.chunkOf c).index = c := rfl

theorem chunkOf_congr (h : b.unitsAt = a.unitsAt) : b.chunkOf = a.chunkOf := by
  funext c
  rw [chunkOf, chunkOf, h]

/-- A footer is where the unit count in the header puts it. -/
theorem footerOf_eq_ok_iff : a.footerOf c = .ok f ↔
    ∃ n, a.unitsAt c = some n ∧ f = c + n + 1 ∧ c + n + 1 < Word.limit := by
  constructor
  · intro h
    unfold footerOf at h
    cases hn : a.units c with
    | error e =>
      rw [hn] at h
      cases h
    | ok n =>
      cases hsum : Word.add c n with
      | error e =>
        simp only [hn, hsum, bind, Except.bind] at h
        cases h
      | ok sum =>
        simp only [hn, hsum, bind, Except.bind] at h
        obtain ⟨rfl, -⟩ := Word.add_eq_ok_iff.mp hsum
        obtain ⟨hf, hlt⟩ := Word.add_eq_ok_iff.mp h
        exact ⟨n, units_eq_ok_iff.mp hn, hf, hlt⟩
  · rintro ⟨n, hn, rfl, hlt⟩
    exact footerOf_eq_ok hn hlt

theorem footerOf_congr (h : b.unitsAt = a.unitsAt) :
    b.footerOf c = .ok f ↔ a.footerOf c = .ok f := by
  rw [footerOf_eq_ok_iff, footerOf_eq_ok_iff, h]

theorem tags_congr (h : b.unitsAt = a.unitsAt) : b.tags l = a.tags l := by
  simp only [tags, footerOf_congr h]

/-- Headers and footers are found by the unit counts only. -/
theorem Apart.congr (h : a.Apart l) (hu : b.unitsAt = a.unitsAt)
    (hsize : b.slots.size = a.slots.size) : b.Apart l := by
  refine ⟨fun c hc => ?_, ?_⟩
  · obtain ⟨f, hf, hlt⟩ := h.inside c hc
    refine ⟨f, (footerOf_congr hu).mpr hf, ?_⟩
    show f < b.slots.size
    rw [hsize]
    exact hlt
  · simp only [footerOf_congr hu]
    exact h.distinct

/-- A footer that is found is that of the chunk. -/
theorem footerOf_chunkOf (h : a.footerOf c = .ok f) : (a.chunkOf c).footer = f := by
  obtain ⟨n, hn, rfl, -⟩ := footerOf_eq_ok_iff.mp h
  show c + (a.unitsAt c).getD 0 + 1 = _
  rw [hn]
  rfl

section Short

variable (hs : a.length < Word.limit)

include hs

/-- There is room for the footer if and only if it is found inside the arena. -/
theorem sizedIn_chunkOf_iff :
    (a.chunkOf c).SizedIn a ↔ ∃ f, a.footerOf c = .ok f ∧ f < a.length := by
  constructor
  · intro h
    exact ⟨_, h.footerOf_eq hs, h.footer_lt⟩
  · rintro ⟨f, hf, hlt⟩
    have hfooter := footerOf_chunkOf hf
    obtain ⟨n, hn, -⟩ := footerOf_eq_ok_iff.mp hf
    refine ⟨?_, by rw [hfooter]; exact hlt⟩
    show a.unitsAt c = some ((a.unitsAt c).getD 0)
    rw [hn]
    rfl

theorem apart_iff : a.Apart l ↔
    (∀ c ∈ l, (a.chunkOf c).SizedIn a) ∧ (tagSlots (l.map a.chunkOf)).Nodup := by
  unfold tagSlots
  rw [List.nodup_flatMap, List.pairwise_map]
  constructor
  · rintro ⟨hinside, hdistinct⟩
    have hl : ∀ c ∈ l, (a.chunkOf c).SizedIn a := fun c hc =>
      (sizedIn_chunkOf_iff hs).mpr (hinside c hc)
    refine ⟨hl, ?_, ?_⟩
    · intro c _
      have := c.index_lt_footer
      simp
      omega
    · refine hdistinct.imp_of_mem fun {c d} hc hd hcd => ?_
      have := hcd _ _ ((hl c hc).footerOf_eq hs) ((hl d hd).footerOf_eq hs)
      simp [Function.onFun, List.Disjoint]
      tauto
  · rintro ⟨hl, -, hdisjoint⟩
    refine ⟨fun c hc => (sizedIn_chunkOf_iff hs).mp (hl c hc), ?_⟩
    refine hdisjoint.imp fun {c d} hcd f g hf hg => ?_
    rw [← footerOf_chunkOf hf, ← footerOf_chunkOf hg]
    simp [Function.onFun, List.Disjoint] at hcd
    tauto

theorem tags_eq (hl : ∀ c ∈ l, (a.chunkOf c).SizedIn a) :
    a.tags l = {i | i ∈ tagSlots (l.map a.chunkOf)} := by
  ext i
  show (∃ c ∈ l, i = c ∨ a.footerOf c = .ok i) ↔ i ∈ tagSlots (l.map a.chunkOf)
  simp only [mem_tagSlots, List.mem_map, exists_exists_and_eq_and, index_chunkOf]
  refine exists_congr fun c => and_congr_right fun hc => or_congr_right ?_
  have hfooter : a.footerOf c = .ok (a.chunkOf c).footer := (hl c hc).footerOf_eq hs
  rw [hfooter, Except.ok.injEq, eq_comm]

/-- Links that lead through chunks and back are a thread. -/
theorem leads_iff (hl : ∀ c ∈ l, (a.chunkOf c).SizedIn a) :
    a.Leads cursor l ∧ a.LeadsBack before l ↔
      cursor = entry (l.map a.chunkOf) none ∧
        Threaded a.linkAt before (l.map a.chunkOf) none := by
  induction l generalizing before cursor with
  | nil => simp [Leads, LeadsBack, Threaded]
  | cons c l ih =>
    have hc := hl c (by simp)
    have hnext : a.nextFree c = .ok (a.linkAt c) := hc.nextFree_eq
    have hprev : a.prevFree c = .ok (a.linkAt (a.chunkOf c).footer) := hc.prevFree_eq hs
    have ih := @ih (some c) (a.linkAt c) fun d hd => hl d (by simp [hd])
    simp only [Leads, LeadsBack, List.map_cons, entry_cons, Threaded, hnext, hprev,
      Except.ok.injEq, exists_eq_left', index_chunkOf]
    tauto

end Short

end Arena

namespace Heap

variable {h h' : Heap G} {k j : SizeClass} {l l₁ l₂ members : List Nat} {c p : Nat}
  {lists : SizeClass → List Nat}

/-! ## One list -/

/-- The free list `k` is the sequence `l`, linked both ways from its head to its end, and the chunks
in it are of its class. -/
structure Sequence (h : Heap G) (k : SizeClass) (l : List Nat) : Prop where
  leads : h.arena.Leads (h.head k) l
  back : h.arena.LeadsBack none l
  classes : ∀ c ∈ l, h.classAt c = .ok k

/-- The class of a chunk is that of the size in its header. -/
theorem classAt_eq_ok_iff (hc : (h.arena.chunkOf c).SizedIn h.arena) :
    h.classAt c = .ok k ↔ h.config.classOf (h.arena.chunkOf c).units = k := by
  have hclass : h.classAt c = .ok (h.config.classOf (h.arena.chunkOf c).units) :=
    classAt_eq_of_sized hc
  rw [hclass, Except.ok.injEq]

/-- The sequences are the free lists in memory. -/
theorem lists_iff (hs : h.arena.length < Word.limit) :
    h.Lists k (l.map h.arena.chunkOf) ↔ h.Sequence k l ∧ h.arena.Apart l := by
  rw [Arena.apart_iff hs]
  constructor
  · intro S
    have hl : ∀ c ∈ l, (h.arena.chunkOf c).SizedIn h.arena := by simpa using S.sized
    obtain ⟨hleads, hback⟩ := (Arena.leads_iff hs hl).mpr ⟨S.head, S.threaded⟩
    refine ⟨⟨hleads, hback, fun c hc => (classAt_eq_ok_iff (hl c hc)).mpr ?_⟩, hl, S.apart⟩
    exact S.classes _ (List.mem_map_of_mem hc)
  · rintro ⟨S, hl, hnodup⟩
    obtain ⟨hhead, hthread⟩ := (Arena.leads_iff hs hl).mp ⟨S.leads, S.back⟩
    refine ⟨by simpa using hl, ?_, hnodup, hhead, hthread⟩
    simp only [List.mem_map, forall_exists_index, and_imp, forall_apply_eq_imp_iff₂]
    exact fun c hc => (classAt_eq_ok_iff (hl c hc)).mp (S.classes c hc)

/-- Lists in another heap with the same unit counts. -/
theorem sequence_of_lists (hs : h.arena.length < Word.limit)
    (S : h'.Lists k (l.map h.arena.chunkOf)) {L W : Set Nat} (A : h.Alters L ∅ W h') :
    h'.Sequence k l := by
  have hs' : h'.arena.length < Word.limit := by
    rw [A.arena.length_eq]
    exact hs
  rw [← Arena.chunkOf_congr A.arena.unitsAt_eq] at S
  exact ((lists_iff hs').mp S).1

namespace Sequence

section Edits

variable (hs : h.arena.length < Word.limit)

include hs

/-- A list whose head and tags are left alone. -/
theorem frame (S : h.Sequence k l) (hapart : h.arena.Apart l) {L W : Set Nat}
    (A : h.Alters L ∅ W h') (hhead : h'.head k = h.head k) (hL : ∀ i ∈ h.arena.tags l, i ∉ L) :
    h'.Sequence k l := by
  have hlists := (lists_iff hs).mpr ⟨S, hapart⟩
  rw [Arena.tags_eq hs ((Arena.apart_iff hs).mp hapart).1] at hL
  exact sequence_of_lists hs (hlists.frame A hhead hL) A

/-- What the edits of a chunk outside the list rely on. -/
theorem lists_of_apart (S : h.Sequence k l) (hk : h.classAt c = .ok k)
    (hapart : h.arena.Apart (c :: l)) :
    (h.arena.chunkOf c).SizedIn h.arena ∧ h.config.classOf (h.arena.chunkOf c).units = k ∧
      h.Lists k (l.map h.arena.chunkOf) := by
  have hc := ((Arena.apart_iff hs).mp hapart).1 c (by simp)
  refine ⟨hc, (classAt_eq_ok_iff hc).mp hk, (lists_iff hs).mpr ⟨S, ?_⟩⟩
  exact hapart.sublist (List.sublist_cons_self c l)

/-- A chunk enters its list at the front. -/
theorem pushFront (S : h.Sequence k l) (hk : h.classAt c = .ok k)
    (hapart : h.arena.Apart (c :: l)) :
    ∃ h', (Heap.pushFront c).Runs h () h' ∧ h'.Sequence k (c :: l) ∧
      h.Alters (h.arena.tags (c :: l)) ∅ ∅ h' ∧ ∀ j ≠ k, h'.head j = h.head j := by
  obtain ⟨hc, hclass, hlists⟩ := S.lists_of_apart hs hk hapart
  obtain ⟨hsized, hnodup⟩ := (Arena.apart_iff hs).mp hapart
  obtain ⟨h', hrun, hlists', A, hheads⟩ := hlists.pushFront hs hc hclass hnodup
  refine ⟨h', hrun, sequence_of_lists hs hlists' A, ?_, hheads⟩
  rw [Arena.tags_eq hs hsized]
  exact A

/-- A chunk enters its list behind a lower chunk. -/
theorem insertAfter (S : h.Sequence k (l₁ ++ p :: l₂)) (hk : h.classAt c = .ok k)
    (hapart : h.arena.Apart (c :: (l₁ ++ p :: l₂))) (hlt : p < c) :
    ∃ h', (Heap.insertAfter p c).Runs h () h' ∧ h'.Sequence k (l₁ ++ p :: c :: l₂) ∧
      h.Alters (h.arena.tags (c :: (l₁ ++ p :: l₂))) ∅ ∅ h' ∧ ∀ j, h'.head j = h.head j := by
  obtain ⟨hc, hclass, hlists⟩ := S.lists_of_apart hs hk hapart
  obtain ⟨hsized, hnodup⟩ := (Arena.apart_iff hs).mp hapart
  rw [Arena.tags_eq hs hsized]
  simp only [List.map_append, List.map_cons] at hlists hnodup ⊢
  obtain ⟨h', hrun, hlists', A, hheads⟩ := hlists.insertAfter hs hc hclass hnodup hlt
  refine ⟨h', hrun, sequence_of_lists hs ?_ A, A, hheads⟩
  rw [List.map_append]
  exact hlists'

/-- A free chunk leaves its list from any place. -/
theorem unlink (S : h.Sequence k (l₁ ++ c :: l₂)) (hapart : h.arena.Apart (l₁ ++ c :: l₂))
    (hfree : h.arena.isFree c = .ok true) :
    ∃ h', (Heap.unlink c).Runs h () h' ∧ h'.Sequence k (l₁ ++ l₂) ∧
      h.Alters (h.arena.tags (l₁ ++ c :: l₂)) ∅ ∅ h' ∧ ∀ j ≠ k, h'.head j = h.head j := by
  have hlists := (lists_iff hs).mpr ⟨S, hapart⟩
  rw [Arena.tags_eq hs ((Arena.apart_iff hs).mp hapart).1]
  simp only [List.map_append, List.map_cons] at hlists ⊢
  obtain ⟨h', hrun, hlists', A, hheads, -⟩ := hlists.unlink hs hfree
  refine ⟨h', hrun, sequence_of_lists hs ?_ A, A, hheads⟩
  rw [List.map_append]
  exact hlists'

end Edits

end Sequence

/-! ## All lists -/

/-- The free lists are the sequences `lists`. Their chunks are among `members`, no two of which share
the slot of a tag; there may be more of these. -/
structure Sequences (h : Heap G) (members : List Nat) (lists : SizeClass → List Nat) : Prop where
  /-- The length is a word, and so is the index of every slot. -/
  short : h.arena.length < Word.limit
  apart : h.arena.Apart members
  listed : ∀ k, ∀ c ∈ lists k, c ∈ members
  nodup : ∀ k, (lists k).Nodup
  sequence : ∀ k, h.Sequence k (lists k)

namespace Sequences

/-- The chunks of a list with one more of the members, wherever that was put. -/
theorem mem_of_perm (H : h.Sequences members lists) (hc : c ∈ members) (hnew : c ∉ lists k)
    (hl : l.Perm (c :: lists k)) : (∀ d ∈ l, d ∈ members) ∧ l.Nodup := by
  refine ⟨fun d hd => ?_, hl.nodup_iff.mpr (List.nodup_cons.mpr ⟨hnew, H.nodup k⟩)⟩
  rcases List.mem_cons.mp (hl.mem_iff.mp hd) with rfl | hd
  · exact hc
  · exact H.listed k d hd

theorem apart_cons (H : h.Sequences members lists) (hc : c ∈ members) (hnew : c ∉ lists k) :
    h.arena.Apart (c :: lists k) := by
  obtain ⟨hmem, hnodup⟩ := H.mem_of_perm hc hnew (List.Perm.refl _)
  exact H.apart.subset hnodup hmem

/-- One list is edited, and no slot is written but the tags of its chunks and of one more of its
class. -/
theorem relist (H : h.Sequences members lists) (hc : c ∈ members) (hk : h.classAt c = .ok k)
    (S : h'.Sequence k l) (A : h.Alters (h.arena.tags (c :: lists k)) ∅ ∅ h')
    (hheads : ∀ j ≠ k, h'.head j = h.head j) (hmem : ∀ d ∈ l, d ∈ members) (hnodup : l.Nodup) :
    h'.Sequences members (Function.update lists k l) where
  short := by
    rw [A.arena.length_eq]
    exact H.short
  apart := H.apart.congr A.arena.unitsAt_eq A.arena.size
  listed j d hd := by
    by_cases hj : j = k
    · subst hj
      rw [Function.update_self] at hd
      exact hmem d hd
    · rw [Function.update_of_ne hj] at hd
      exact H.listed j d hd
  nodup j := by
    by_cases hj : j = k
    · subst hj
      rwa [Function.update_self]
    · rw [Function.update_of_ne hj]
      exact H.nodup j
  sequence j := by
    by_cases hj : j = k
    · subst hj
      rwa [Function.update_self]
    · rw [Function.update_of_ne hj]
      have hmembers : ∀ d ∈ c :: lists k, d ∈ members ∧ h.classAt d = .ok k := by
        intro d hd
        rcases List.mem_cons.mp hd with rfl | hd
        · exact ⟨hc, hk⟩
        · exact ⟨H.listed k d hd, (H.sequence k).classes d hd⟩
      refine (H.sequence j).frame H.short (H.apart.subset (H.nodup j) (H.listed j)) A
        (hheads j hj) ?_
      refine H.apart.notMem_tags (H.listed j) (fun d hd => (hmembers d hd).1) fun d hd hd' => ?_
      have hclass := (hmembers d hd').2
      rw [(H.sequence j).classes d hd, Except.ok.injEq] at hclass
      exact hj hclass

/-- An unlisted chunk enters the list of its class at the front, or right behind a lower chunk of
that list; a free chunk leaves its list from any place. The other lists are the same sequences as
before, and of the memory only links in the tags of the list change. -/
theorem edits_exact (H : h.Sequences members lists) :
    (∀ c ∈ members, (∀ k, c ∉ lists k) → ∃ k, h.classAt c = .ok k ∧
      ∃ h', (Heap.pushFront c).Runs h () h' ∧
        h'.Sequences members (Function.update lists k (c :: lists k)) ∧
        h.Alters (h.arena.tags (c :: lists k)) ∅ ∅ h') ∧
    (∀ c ∈ members, (∀ k, c ∉ lists k) → ∀ k l₁ p l₂, lists k = l₁ ++ p :: l₂ →
      h.classAt c = .ok k → p < c →
      ∃ h', (Heap.insertAfter p c).Runs h () h' ∧
        h'.Sequences members (Function.update lists k (l₁ ++ p :: c :: l₂)) ∧
        h.Alters (h.arena.tags (c :: lists k)) ∅ ∅ h') ∧
    ∀ k l₁ c l₂, lists k = l₁ ++ c :: l₂ → h.arena.isFree c = .ok true →
      ∃ h', (Heap.unlink c).Runs h () h' ∧
        h'.Sequences members (Function.update lists k (l₁ ++ l₂)) ∧
        h.Alters (h.arena.tags (lists k)) ∅ ∅ h' := by
  refine ⟨fun c hc hnew => ?front, fun c hc hnew k l₁ p l₂ hlist hk hlt => ?after,
    fun k l₁ c l₂ hlist hfree => ?out⟩
  case front =>
    obtain ⟨f, hf, -⟩ := H.apart.inside c hc
    obtain ⟨n, hn, -⟩ := Arena.footerOf_eq_ok_iff.mp hf
    have hk : h.classAt c = .ok (h.config.classOf n) := by
      rw [classAt, Arena.units_eq_of_unitsAt hn]
      rfl
    have hapart := H.apart_cons hc (hnew (h.config.classOf n))
    obtain ⟨hmem, hnodup⟩ := H.mem_of_perm hc (hnew (h.config.classOf n)) (List.Perm.refl _)
    obtain ⟨h', hrun, S, A, hheads⟩ := (H.sequence _).pushFront H.short hk hapart
    exact ⟨_, hk, h', hrun, H.relist hc hk S A hheads hmem hnodup, A⟩
  case after =>
    have hapart := H.apart_cons hc (hnew k)
    have S := H.sequence k
    rw [hlist] at hapart S
    obtain ⟨h', hrun, S', A, hheads⟩ := S.insertAfter H.short hk hapart hlt
    rw [← hlist] at A
    have hperm := perm_insert_behind l₁ l₂ p c
    rw [← hlist] at hperm
    obtain ⟨hmem, hnodup⟩ := H.mem_of_perm hc (hnew k) hperm
    exact ⟨h', hrun, H.relist hc hk S' A (fun j _ => hheads j) hmem hnodup, A⟩
  case out =>
    have hin : c ∈ lists k := by
      rw [hlist]
      simp
    have hsub : (l₁ ++ l₂).Sublist (lists k) := by
      rw [hlist]
      exact (List.sublist_cons_self c l₂).append_left l₁
    have hapart := H.apart.subset (H.nodup k) (H.listed k)
    have S := H.sequence k
    rw [hlist] at hapart S
    obtain ⟨h', hrun, S', A, hheads⟩ := S.unlink H.short hapart hfree
    rw [← hlist] at A
    have htags : h.arena.tags (lists k) ⊆ h.arena.tags (c :: lists k) := by
      rintro i ⟨d, hd, hi⟩
      exact ⟨d, List.mem_cons_of_mem _ hd, hi⟩
    refine ⟨h', hrun, ?_, A⟩
    exact H.relist (H.listed k c hin) ((H.sequence k).classes c hin) S'
      (A.mono htags (Set.Subset.refl _) (Set.Subset.refl _)) hheads
      (fun d hd => H.listed k d (hsub.mem hd)) ((H.nodup k).sublist hsub)

end Sequences

/-- Three neighbours of one unit. The second and the first are in a list; the second has no status,
and their footers are wrong about the size. -/
def crooked : Heap Unit where
  arena := {
    start := some 4096
    slots := #[⟨Link.none, 1, Status.free.word⟩, .zero, ⟨3, 7, 0⟩,
      ⟨0, 1, 0⟩, .zero, ⟨Link.none, 8, 0⟩,
      ⟨0, 1, 0⟩, .zero, ⟨0, 9, 0⟩]
    grower := ()
    unmapped := nofun }
  config := Config.standard
  heads := #v[some 3, none, none, none, none, none, none, none, none, none, none]

/-- The sequence `l` in the lowest bin, and nothing in the other lists. -/
def lowestOnly (l : List Nat) : SizeClass → List Nat :=
  Function.update (fun _ => []) ⟨0, by decide⟩ l

@[simp] theorem lowestOnly_self (l : List Nat) : lowestOnly l ⟨0, by decide⟩ = l :=
  Function.update_self _ _ _

@[simp] theorem update_lowestOnly (l m : List Nat) :
    Function.update (lowestOnly l) ⟨0, by decide⟩ m = lowestOnly m := Function.update_idem _ _ _

theorem sequences_crooked : crooked.Sequences [0, 3, 6] (lowestOnly [3, 0]) := by
  have hs : crooked.arena.length < Word.limit := by decide
  have hempty : ∀ k : SizeClass, k ≠ ⟨0, by decide⟩ → crooked.head k = none := by decide
  have hlists : ∀ k, (∀ c ∈ lowestOnly [3, 0] k, c ∈ [0, 3, 6]) ∧ (lowestOnly [3, 0] k).Nodup ∧
      crooked.Sequence k (lowestOnly [3, 0] k) := by
    intro k
    by_cases hk : k = ⟨0, by decide⟩
    · subst hk
      rw [lowestOnly_self]
      refine ⟨by simp, by simp, ⟨rfl, _, rfl, rfl, _, rfl, rfl⟩, ⟨rfl, rfl, trivial⟩, ?_⟩
      simp only [List.mem_cons, List.not_mem_nil, or_false]
      rintro c (rfl | rfl) <;> rfl
    · rw [lowestOnly, Function.update_of_ne hk]
      exact ⟨by simp, by simp, hempty k hk, trivial, by simp⟩
  refine ⟨hs, (Arena.apart_iff hs).mpr ⟨?_, by decide⟩, fun k => (hlists k).1,
    fun k => (hlists k).2.1, fun k => (hlists k).2.2⟩
  simp only [List.mem_cons, List.not_mem_nil, or_false]
  rintro c (rfl | rfl | rfl) <;> exact ⟨rfl, by decide⟩

theorem edits_exact_crooked : crooked.Sequences [0, 3, 6] (lowestOnly [3, 0]) ∧
    (∃ h', (pushFront 6).Runs crooked () h' ∧ h'.Sequences [0, 3, 6] (lowestOnly [6, 3, 0])) ∧
    (∃ h', (insertAfter 3 6).Runs crooked () h' ∧
      h'.Sequences [0, 3, 6] (lowestOnly [3, 6, 0])) ∧
    ∃ h', (unlink 0).Runs crooked () h' ∧ h'.Sequences [0, 3, 6] (lowestOnly [3]) := by
  have hclass : crooked.classAt 6 = .ok ⟨0, by decide⟩ := rfl
  have hnew : ∀ k, 6 ∉ lowestOnly [3, 0] k := by decide
  obtain ⟨hfront, hafter, hout⟩ := sequences_crooked.edits_exact
  refine ⟨sequences_crooked, ?_, ?_, ?_⟩
  · obtain ⟨k, hk, h', hrun, S, -⟩ := hfront 6 (by simp) hnew
    rw [hclass] at hk
    cases hk
    exact ⟨h', hrun, by simpa using S⟩
  · obtain ⟨h', hrun, S, -⟩ := hafter 6 (by simp) hnew _ [] 3 [0] (lowestOnly_self _) hclass
      (by decide)
    exact ⟨h', hrun, by simpa using S⟩
  · obtain ⟨h', hrun, S, -⟩ := hout _ [3] 0 [] (lowestOnly_self _) rfl
    exact ⟨h', hrun, by simpa using S⟩

end Heap

end BoundaryTag
