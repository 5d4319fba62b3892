import BoundaryTag.Proofs.LegalUse

/-!
# The verdict on any memory

The inspection takes nothing on trust. Whatever stands in the slots and in the heads,
it ends, looks at no slot outside the arena and never leaves the 64-bit words, because
every index is tested before it is followed and every entry is counted. What it
accepts it has seen whole: the tags it met are the only reading of the memory. That no
chunk is met twice is nowhere tested; it follows from the back links within a list and
from the classes across the lists.

Results:

* `tallyFrom_cases`, `walkList_cases`: either walk names a chunk, or has seen all.
* `check_eq_none_iff`: the heaps in which nothing is found.
* `Inspected.nodup_entries`: no chunk is met twice.
* `exists_verdict`: the inspection of any memory.
-/

namespace BoundaryTag

variable {G : Type} {a : Arena G} {pre l chunks : List Chunk} {lists : FreeLists} {c : Chunk}
  {k : SizeClass} {prev cursor : Option Nat} {i : Nat}

/-! ## One chunk -/

/-- A finding about a chunk is not that the chunks do not fill the arena. -/
theorem Violation.ne_tiling {v : Violation} (hv : v.chunk?.isSome) (covered length : Nat) :
    v ≠ .tiling covered length := by
  rintro rfl
  cases hv

/-- Two slots whose tags agree. -/
theorem Chunk.taggedIn_of_slots {n : Nat} {status : Status} (hi : i < a.slots.size)
    (hstatus : a.slots[i].status? = some status) (hn : n < a.slots.size)
    (hfooter : n = i + a.slots[i].units.toNat + 1) (hsame : a.slots[n].units = a.slots[i].units) :
    Chunk.TaggedIn ⟨i, a.slots[i].units.toNat, status⟩ a where
  units := by
    rw [Arena.unitsAt, Array.getElem?_eq_getElem hi]
    rfl
  word := by
    rw [Arena.wordAt, Array.getElem?_eq_getElem hi, Status.word_of_ofWord? hstatus]
    rfl
  footer := by
    subst hfooter
    show (a.slots[i + a.slots[i].units.toNat + 1]?).map _ = _
    rw [Array.getElem?_eq_getElem hn, Option.map_some, hsame]

/-- What is found wrong with a chunk is about that chunk; where nothing is, its tags stand in
memory. -/
theorem Arena.chunkViolation?_cases (hs : a.slots.size ≤ maxUnits) (i : Nat) :
    (∃ v, a.chunkViolation? i = .ok (some v) ∧ v.chunk? = some i) ∨
      ∃ c : Chunk, c.index = i ∧ 1 ≤ c.units ∧ c.TaggedIn a := by
  by_cases hi : i < a.slots.size
  · have hheader := slot_eq_ok hi
    have hunitsAt : a.unitsAt i = some a.slots[i].units.toNat := by
      rw [unitsAt, Array.getElem?_eq_getElem hi]
      rfl
    have hfooterOf : a.footerOf i = .ok (i + a.slots[i].units.toNat + 1) := by
      apply footerOf_eq_ok hunitsAt
      have := a.slots[i].units.toNat_lt
      unfold maxUnits at hs
      unfold Word.limit
      omega
    unfold chunkViolation? length
    simp only [hheader, hfooterOf, bind, Except.bind, pure, Except.pure]
    rw [if_neg (by omega)]
    by_cases hzero : a.slots[i].units = 0
    · rw [if_pos hzero]
      exact .inl ⟨_, rfl, rfl⟩
    rw [if_neg hzero]
    cases hstatus : a.slots[i].status? with
    | none => exact .inl ⟨_, rfl, rfl⟩
    | some status =>
      rw [if_neg (by simp)]
      by_cases hinside : i + a.slots[i].units.toNat + 1 < a.slots.size
      · rw [if_neg (by omega), slot_eq_ok hinside]
        by_cases hsame : a.slots[i + a.slots[i].units.toNat + 1].units = a.slots[i].units
        · have hne : a.slots[i].units.toNat ≠ 0 := fun h => hzero (UInt32.toNat_inj.mp h)
          exact .inr ⟨_, rfl, Nat.pos_of_ne_zero hne,
            Chunk.taggedIn_of_slots hi hstatus hinside rfl hsame⟩
        · simp only [ne_eq, hsame, not_false_eq_true, if_true]
          exact .inl ⟨_, rfl, rfl⟩
      · rw [if_pos (by omega)]
        exact .inl ⟨_, rfl, rfl⟩
  · refine .inl ⟨.outOfBounds i, ?_, rfl⟩
    unfold chunkViolation? length
    rw [if_pos (by omega)]
    rfl

namespace Heap

/-! ## The walk along the arena -/

theorem tallyFrom_of_violation {t : Tally} {v : Violation}
    (hv : a.chunkViolation? i = .ok (some v)) : tallyFrom a i t = .ok (.error v) := by
  rw [tallyFrom, hv]
  rfl

theorem tallyFrom_of_clash (hs : a.slots.size ≤ maxUnits) (hc : c.TaggedIn a) (hu : 1 ≤ c.units)
    {t : Tally} {lower : Nat} (hclash : t.clash? c.isFree = some lower) :
    tallyFrom a c.index t = .ok (.error (.uncoalesced lower)) := by
  rw [tallyFrom, hc.chunkViolation?_eq hs hu]
  simp only [hc.isFree_eq, hclash, bind, Except.bind]
  rfl

/-- The walk from a slot on, when the slots below are tiled: it ends at a chunk, or the rest of the
arena is tiled, too. -/
theorem tallyFrom_cases (hs : a.slots.size ≤ maxUnits) (hi : i < a.slots.size)
    (hpre : Tiles 0 pre i) (htagged : ∀ c ∈ pre, c.TaggedIn a) (hsettled : Settled pre) :
    (∃ v, tallyFrom a i ⟨i, freeCount pre, lastFree pre⟩ = .ok (.error v) ∧ v.chunk?.isSome) ∨
      ∃ chunks, Tiles 0 chunks a.slots.size ∧ (∀ c ∈ chunks, c.TaggedIn a) ∧ Settled chunks := by
  -- by induction on the slots that are left
  induction hleft : a.slots.size - i using Nat.strong_induction_on generalizing i pre with
  | _ left ih =>
    rcases a.chunkViolation?_cases hs i with ⟨v, hv, hchunk⟩ | ⟨c, rfl, hu, hc⟩
    · exact .inl ⟨v, tallyFrom_of_violation hv, by rw [hchunk]; rfl⟩
    cases hclash : Tally.clash? ⟨c.index, freeCount pre, lastFree pre⟩ c.isFree with
    | some lower => exact .inl ⟨_, tallyFrom_of_clash hs hc hu hclash, rfl⟩
    | none =>
      have hclash := clash?_eq_none_iff.mp hclash
      have htiles : Tiles 0 (pre ++ [c]) c.stop := hpre.concat hu
      have htagged : ∀ d ∈ pre ++ [c], d.TaggedIn a := by
        simpa [or_imp, forall_and] using ⟨htagged, hc⟩
      have hsettled : Settled (pre ++ [c]) :=
        settled_middle.mpr ⟨hsettled, List.IsChain.nil, hclash, by simp⟩
      rw [tallyFrom_chunk hs hpre hc hu hclash]
      by_cases hlt : c.stop < a.slots.size
      · rw [if_pos hlt]
        have := c.index_lt_stop
        exact ih (a.slots.size - c.stop) (by omega) hlt htiles htagged hsettled rfl
      · have hend : c.stop = a.slots.size := Nat.le_antisymm hc.stop_le (Nat.le_of_not_lt hlt)
        exact .inr ⟨_, hend ▸ htiles, htagged, hsettled⟩

theorem tally_cases (hs : a.slots.size ≤ maxUnits) :
    (∃ v, tally a = .ok (.error v) ∧ v.chunk?.isSome) ∨
      ∃ chunks, Tiles 0 chunks a.slots.size ∧ (∀ c ∈ chunks, c.TaggedIn a) ∧ Settled chunks := by
  unfold tally Arena.first Arena.length
  by_cases hpos : 0 < a.slots.size
  · rw [if_pos hpos]
    exact @tallyFrom_cases G a [] 0 hs hpos rfl (by simp) List.IsChain.nil
  · exact .inr ⟨[], (Nat.eq_zero_of_not_pos hpos).symm, by simp, List.IsChain.nil⟩

/-! ## The walk along the lists -/

variable {h : Heap G} {free listed : Nat}

/-- What is found wrong with the next entry is about a chunk; where nothing is, the entry follows
`prev` as it should. -/
theorem walkList_step (hs : h.arena.slots.size ≤ maxUnits) (free : Nat) (k : SizeClass)
    (prev : Option Nat) (i listed : Nat) :
    (∃ v, h.walkList free k prev (some i) listed = .ok (.error v) ∧ v.chunk?.isSome) ∨
      ∃ c, c.index = i ∧ h.Entry k c ∧ h.arena.linkAt c.footer = prev ∧
        (k = SizeClass.overflow → ∀ p ∈ prev, p < c.index) ∧ listed < free := by
  rcases h.arena.chunkViolation?_cases hs i with ⟨v, hv, hchunk⟩ | ⟨c, rfl, hu, hc⟩
  · refine .inl ⟨v, ?_, by rw [hchunk]; rfl⟩
    rw [walkList, entryViolation?, hv]
    rfl
  rw [walkList]
  simp only [entryViolation?_eq hs hc hu, bind, Except.bind]
  cases hfree : c.isFree
  · exact .inl ⟨_, rfl, rfl⟩
  by_cases hlt : listed < free
  · simp only [if_true, hlt, filingViolation?_eq hs hc]
    split_ifs with hclass hback habove hordered
    · exact .inl ⟨_, rfl, rfl⟩
    · exact .inl ⟨_, rfl, rfl⟩
    · exact .inl ⟨_, rfl, rfl⟩
    · exact .inl ⟨_, rfl, rfl⟩
    · have hentry : h.Entry k c := ⟨hc, hu, hfree, not_not.mp hclass, habove⟩
      refine .inr ⟨c, rfl, hentry, not_not.mp hback, ?_, trivial⟩
      intro hk
      by_contra hall
      exact hordered ⟨hk, by simpa [Option.all_eq_true] using hall⟩
  · simp only [if_true, hlt, if_false]
    exact .inl ⟨_, rfl, rfl⟩

/-- The walk along a list from any cursor: it ends at a chunk, or it has met all entries. -/
theorem walkList_cases (hs : h.arena.slots.size ≤ maxUnits) (k : SizeClass)
    (prev cursor : Option Nat) (hle : listed ≤ free) :
    (∃ v, h.walkList free k prev cursor listed = .ok (.error v) ∧ v.chunk?.isSome) ∨
      ∃ l, cursor = entry l none ∧ h.Enlisted k prev l ∧ listed + l.length ≤ free := by
  -- by induction on the entries that may still come
  induction hleft : free - listed generalizing listed prev cursor with
  | zero =>
    cases cursor with
    | none => exact .inr ⟨[], rfl, enlisted_nil h k prev, hle⟩
    | some i =>
      rcases walkList_step hs free k prev i listed with herror | ⟨c, -, -, -, -, hlt⟩
      · exact .inl herror
      · omega
  | succ left ih =>
    cases cursor with
    | none => exact .inr ⟨[], rfl, enlisted_nil h k prev, hle⟩
    | some i =>
      rcases walkList_step hs free k prev i listed with herror | ⟨c, rfl, hc, hback, hprev, hlt⟩
      · exact .inl herror
      rw [walkList_entry hs hc hback hprev hlt]
      rcases ih (some c.index) (h.arena.linkAt c.index) hlt (by omega)
        with herror | ⟨l, hnext, hl, hlength⟩
      · exact .inl herror
      · refine .inr ⟨c :: l, rfl, enlisted_cons.mpr ⟨hc, hback, hprev, hnext, hl⟩, ?_⟩
        rw [List.length_cons]
        omega

/-- The walk along several lists. -/
theorem walkLists_cases (hs : h.arena.slots.size ≤ maxUnits) {ks : List SizeClass}
    (hks : ks.Nodup) (hle : listed ≤ free) :
    (∃ v, h.walkLists free ks listed = .ok (.error v) ∧ v.chunk?.isSome) ∨
      ∃ lists : FreeLists,
        (∀ k ∈ ks, h.head k = entry (lists k) none ∧ h.Enlisted k none (lists k)) ∧
        listed + (ks.map fun k => (lists k).length).sum ≤ free := by
  induction ks generalizing listed with
  | nil => exact .inr ⟨fun _ => [], by simp, hle⟩
  | cons k ks ih =>
    obtain ⟨hk, hks⟩ := List.nodup_cons.mp hks
    unfold walkLists
    rcases walkList_cases hs k none (h.head k) hle with ⟨v, hv, hchunk⟩ | ⟨l, hhead, hl, hlength⟩
    · refine .inl ⟨v, ?_, hchunk⟩
      rw [hv]
      rfl
    · rw [hhead, walkList_eq hs hl hlength]
      rcases ih hks hlength with herror | ⟨lists, hlists, hsum⟩
      · exact .inl herror
      · have hother : ∀ j ∈ ks, Function.update lists k l j = lists j := fun j hj =>
          Function.update_of_ne (ne_of_mem_of_not_mem hj hk) _ _
        refine .inr ⟨Function.update lists k l, ?_, ?_⟩
        · intro j hj
          rcases List.mem_cons.mp hj with rfl | hj
          · rw [Function.update_self]
            exact ⟨hhead, hl⟩
          · rw [hother j hj]
            exact hlists j hj
        · rw [List.map_cons, List.sum_cons, Function.update_self,
            List.map_congr_left fun j hj => congrArg List.length (hother j hj), ← Nat.add_assoc]
          exact hsum

/-! ## The heap -/

/-- The inspection ends, with a finding about a chunk or about the number of entries, or the heap
is inspected. -/
theorem check_cases (hs : h.arena.slots.size ≤ maxUnits) :
    (∃ v, h.check = .ok (some v) ∧ ∀ covered length, v ≠ .tiling covered length) ∨
      ∃ chunks lists, h.Inspected chunks lists := by
  unfold check
  rcases tally_cases hs with ⟨v, hv, hchunk⟩ | ⟨chunks, htiles, htagged, hsettled⟩
  · refine .inl ⟨v, ?_, Violation.ne_tiling hchunk⟩
    rw [hv]
    rfl
  rw [tally_eq hs htiles htagged hsettled]
  simp only [bind, Except.bind, Arena.length]
  rw [if_neg (by simp)]
  rcases walkLists_cases hs (List.nodup_finRange classCount) (Nat.zero_le (freeCount chunks))
    with ⟨v, hv, hchunk⟩ | ⟨lists, hlists, hsum⟩
  · refine .inl ⟨v, ?_, Violation.ne_tiling hchunk⟩
    rw [hv]
    rfl
  have hheads := fun k => (hlists k (List.mem_finRange k)).1
  have henlisted := fun k => (hlists k (List.mem_finRange k)).2
  rw [walkLists_eq hs hheads henlisted _ 0 hsum, ← FreeLists.length_entries, Nat.zero_add]
  by_cases hcount : lists.entries.length = freeCount chunks
  · exact .inr ⟨chunks, lists, htiles, htagged, hsettled, hheads, henlisted, hcount⟩
  · refine .inl ⟨.unlisted (freeCount chunks) lists.entries.length, ?_, by simp⟩
    simp only [hcount, if_false]
    rfl

/-- Nothing is found in the inspected heaps, and only there. -/
theorem check_eq_none_iff (hs : h.arena.slots.size ≤ maxUnits) :
    h.check = .ok none ↔ ∃ chunks lists, h.Inspected chunks lists := by
  constructor
  · intro hcheck
    rcases check_cases hs with ⟨v, hv, -⟩ | hinspected
    · rw [hv] at hcheck
      cases hcheck
    · exact hinspected
  · rintro ⟨chunks, lists, I⟩
    exact I.check_eq hs

end Heap

/-! ## No entry twice -/

/-- Back links lead from a chunk of a list to the first one, so none is there twice. -/
theorem Threaded.nodup {link : Nat → Option Nat} {after : Option Nat}
    (hl : Threaded link none l after) (hinj : ∀ c ∈ l, ∀ d ∈ l, c.index = d.index → c = d) :
    l.Nodup := by
  induction l using List.reverseRecOn generalizing after with
  | nil => exact List.nodup_nil
  | append_singleton l c ih =>
    obtain ⟨hl, hback, -⟩ := threaded_concat.mp hl
    have hnodup := ih hl fun d hd e he => hinj d (by simp [hd]) e (by simp [he])
    rw [List.nodup_append_comm, List.singleton_append, List.nodup_cons]
    refine ⟨fun hc => ?_, hnodup⟩
    -- the chunk before the first occurrence would be the last of `l`
    obtain ⟨l₁, l₂, rfl⟩ := List.append_of_mem hc
    have hback₁ := (threaded_append.mp hl).2.1
    obtain ⟨l₃, d, hlast⟩ := (List.eq_nil_or_concat' (c :: l₂)).resolve_left (by simp)
    rw [hback, hlast, ← List.append_assoc, exit_concat] at hback₁
    obtain ⟨e, he, hindex⟩ := mem_exit hback₁.symm
    have hd : d ∈ c :: l₂ := by rw [hlast]; simp
    have hed : e = d := hinj e (by simp [he]) d (by
      rcases List.mem_cons.mp hd with rfl | hd <;> simp [*]) hindex
    exact List.disjoint_of_nodup_append hnodup he (hed ▸ hd)

namespace Heap.Inspected

variable {h : Heap G} {chunks' : List Chunk} {lists' : FreeLists} {j : SizeClass} {d : Chunk}

theorem entry_of_mem (I : h.Inspected chunks lists) (hc : c ∈ lists k) : h.Entry k c :=
  (I.enlisted k).entries c hc

/-- Entries at the same slot are the same, and in the same list. -/
theorem eq_of_index (I : h.Inspected chunks lists) (hc : c ∈ lists k) (hd : d ∈ lists j)
    (hindex : c.index = d.index) : c = d ∧ k = j := by
  have hentry := I.entry_of_mem hc
  have hentry' := I.entry_of_mem hd
  obtain rfl := hentry.tagged.unique hentry'.tagged hindex
  exact ⟨rfl, hentry.classOf_eq.symm.trans hentry'.classOf_eq⟩

/-- No two entries are at the same slot. -/
theorem nodup_entries (I : h.Inspected chunks lists) :
    (lists.entries.map Chunk.index).Nodup := by
  refine List.Nodup.map_on ?_ (List.nodup_flatMap.mpr ⟨?_, ?_⟩)
  · intro c hc d hd hindex
    obtain ⟨k, hc⟩ := FreeLists.mem_entries.mp hc
    obtain ⟨j, hd⟩ := FreeLists.mem_entries.mp hd
    exact (I.eq_of_index hc hd hindex).1
  · intro k _
    exact (I.enlisted k).threaded.nodup fun c hc d hd hindex => (I.eq_of_index hc hd hindex).1
  · refine (List.nodup_finRange classCount).imp fun hne => ?_
    intro c hc hd
    exact hne (I.eq_of_index hc hd rfl).2

end Heap.Inspected

/-! ## Any memory -/

namespace Heap

variable {h : Heap G}

/-- Whatever stands in the slots and the heads: the inspection ends with a verdict, which is never
that the chunks do not fill the arena. It finds nothing exactly where the memory reads as a tiling
with free lists; there is one such reading then, and the entries of the lists are at different
slots and as many as the free chunks. -/
theorem exists_verdict (hs : h.arena.slots.size ≤ maxUnits) :
    ∃ verdict, h.check = .ok verdict ∧
      (∀ covered length, verdict ≠ some (.tiling covered length)) ∧
      (verdict = none ↔ ∃! p : List Chunk × FreeLists, h.Inspected p.1 p.2 ∧
        (p.2.entries.map Chunk.index).Nodup) := by
  obtain ⟨verdict, hverdict, htiling⟩ : ∃ verdict, h.check = .ok verdict ∧
      ∀ covered length, verdict ≠ some (.tiling covered length) := by
    rcases check_cases hs with ⟨v, hv, htiling⟩ | ⟨chunks, lists, I⟩
    · exact ⟨some v, hv, fun covered length heq => htiling covered length (Option.some.inj heq)⟩
    · exact ⟨none, I.check_eq hs, by simp⟩
  refine ⟨verdict, hverdict, htiling, ?_⟩
  have hnone := check_eq_none_iff hs
  rw [hverdict, Except.ok.injEq] at hnone
  rw [hnone]
  constructor
  · rintro ⟨chunks, lists, I⟩
    refine ⟨(chunks, lists), ⟨I, I.nodup_entries⟩, ?_⟩
    rintro ⟨chunks', lists'⟩ ⟨I', -⟩
    obtain ⟨rfl, rfl⟩ := I'.unique I
    rfl
  · rintro ⟨⟨chunks, lists⟩, ⟨I, -⟩, -⟩
    exact ⟨chunks, lists, I⟩

/-- A heap in use, and the same heap with any slot overwritten in any way. -/
theorem exists_verdict_small : ∃ s, Session.Reachable Session.smallBins Session.smallBuffer s ∧
    s.live = [⟨4304, 40⟩, ⟨4112, 20⟩] ∧
    (∃! p : List Chunk × FreeLists, s.heap.Inspected p.1 p.2 ∧
      (p.2.entries.map Chunk.index).Nodup) ∧
    ∀ i f, ∃ verdict, (s.heap.withArena (s.heap.arena.modified i f)).check = .ok verdict ∧
      ∀ covered length, verdict ≠ some (.tiling covered length) := by
  obtain ⟨s, hs, hlive⟩ := Session.reachable_small
  obtain ⟨chunks, lists, S, -⟩ := Session.sound_of_reachable hs
  have W := S.wellFormed
  refine ⟨s, hs, hlive, ?_, ?_⟩
  · obtain ⟨verdict, hverdict, -, hnone⟩ := exists_verdict W.short
    rw [W.check_eq, Except.ok.injEq] at hverdict
    exact hnone.mp hverdict.symm
  · intro i f
    have hshort : (s.heap.arena.modified i f).slots.size ≤ maxUnits := by
      rw [Arena.size_modified]
      exact W.short
    obtain ⟨verdict, hverdict, htiling, -⟩ := exists_verdict (h := s.heap.withArena _) hshort
    exact ⟨verdict, hverdict, htiling⟩

end Heap

end BoundaryTag
