import BoundaryTag.Heap.Check
import BoundaryTag.Proofs.Searching

/-!
# What the inspection accepts

The inspection walks the arena and then the lists, and stops at the first thing
that is wrong. A heap is inspected when nothing is: its chunks tile the arena and no
two neighbours are free, its lists hold tags of free chunks, and there are as many
entries as free chunks. Whether an entry is a chunk of the tiling is not asked. A
well-formed heap is inspected.

Results:

* `tallyFrom_chunk`, `walkList_entry`: one step of each walk.
* `Inspected.check_eq`: nothing is found in an inspected heap.
* `WellFormed.inspected`, `WellFormed.runs_closingCheck`: an operation that leaves a
  well-formed heap passes its closing inspection.
-/

namespace BoundaryTag

variable {G : Type} {a : Arena G} {pre post l chunks : List Chunk} {lists : FreeLists}
  {c : Chunk} {k : SizeClass} {prev : Option Nat}

/-- The number of free chunks. -/
def freeCount (chunks : List Chunk) : Nat := chunks.countP Chunk.isFree

/-- The last chunk, if it is free. -/
def lastFree (chunks : List Chunk) : Option Nat :=
  (chunks.getLast?.filter Chunk.isFree).map Chunk.index

theorem length_members_cons (config : Config) (k : SizeClass) (c : Chunk) (l : List Chunk) :
    (config.members k (c :: l)).length =
      (if k = config.classOf c.units then freeCount [c] else 0) + (config.members k l).length := by
  by_cases hk : k = config.classOf c.units
  · subst hk
    cases hc : c.isFree <;> simp [Config.members, freeCount, hc, Nat.add_comm]
  · rw [Config.members_cons_of_not fun h => hk h.2.symm, if_neg hk, Nat.zero_add]

/-- Every free chunk is a member of one class. -/
theorem sum_length_members (config : Config) (chunks : List Chunk) :
    ((List.finRange classCount).map fun k => (config.members k chunks).length).sum =
      freeCount chunks := by
  rw [← Fin.sum_univ_def]
  induction chunks with
  | nil => rfl
  | cons c chunks ih =>
    simp only [length_members_cons, Finset.sum_add_distrib, ih, Finset.sum_ite_eq', Finset.mem_univ,
      if_true]
    rw [freeCount, freeCount, freeCount, ← List.countP_append]
    rfl

/-! ## Inspected heaps -/

namespace FreeLists

/-- The chunks of all lists. -/
def entries (lists : FreeLists) : List Chunk := (List.finRange classCount).flatMap lists

theorem mem_entries : c ∈ lists.entries ↔ ∃ k, c ∈ lists k := by simp [entries]

theorem length_entries (lists : FreeLists) : lists.entries.length =
    ((List.finRange classCount).map fun k => (lists k).length).sum := List.length_flatMap ..

end FreeLists

namespace Heap

/-- The tags of `c` say that it is a free chunk of class `k`, and the tag right above does not say
"free". -/
structure Entry (h : Heap G) (k : SizeClass) (c : Chunk) : Prop where
  tagged : c.TaggedIn h.arena
  units_pos : 1 ≤ c.units
  free : c.isFree
  classOf_eq : h.config.classOf c.units = k
  above : h.arena.wordAt c.stop ≠ some Status.free.word

/-- The entries `l` follow `prev` to the end of the list of class `k`. -/
structure Enlisted (h : Heap G) (k : SizeClass) (prev : Option Nat) (l : List Chunk) : Prop where
  threaded : Threaded h.arena.linkAt prev l none
  entries : ∀ c ∈ l, h.Entry k c
  /-- The overflow list ascends. -/
  ascending : k = SizeClass.overflow → (prev.toList ++ l.map Chunk.index).Pairwise (· < ·)

/-- The chunks tile the arena, no two neighbours are free, and `lists` are the free lists, with as
many entries as there are free chunks. -/
structure Inspected (h : Heap G) (chunks : List Chunk) (lists : FreeLists) : Prop where
  tiles : Tiles 0 chunks h.arena.slots.size
  tagged : ∀ c ∈ chunks, c.TaggedIn h.arena
  settled : Settled chunks
  heads : ∀ k, h.head k = entry (lists k) none
  enlisted : ∀ k, h.Enlisted k none (lists k)
  count : lists.entries.length = freeCount chunks

variable {h : Heap G}

theorem enlisted_nil (h : Heap G) (k : SizeClass) (prev : Option Nat) : h.Enlisted k prev [] := by
  refine ⟨trivial, by simp, fun _ => ?_⟩
  cases prev <;> simp

/-- The first entry of a list, and the others behind it. -/
theorem enlisted_cons : h.Enlisted k prev (c :: l) ↔ h.Entry k c ∧ h.arena.linkAt c.footer = prev ∧
    (k = SizeClass.overflow → ∀ p ∈ prev, p < c.index) ∧ h.arena.linkAt c.index = entry l none ∧
      h.Enlisted k (some c.index) l := by
  have hascending : (prev.toList ++ (c :: l).map Chunk.index).Pairwise (· < ·) ↔
      (∀ p ∈ prev, p < c.index) ∧
        ((some c.index).toList ++ l.map Chunk.index).Pairwise (· < ·) := by
    simp only [← List.isChain_iff_pairwise]
    cases prev <;> simp
  constructor
  · rintro ⟨⟨hback, hnext, hrest⟩, hentries, hasc⟩
    refine ⟨hentries c (by simp), hback, ?_, hnext, hrest, ?_, ?_⟩
    · exact fun hk => (hascending.mp (hasc hk)).1
    · exact fun d hd => hentries d (by simp [hd])
    · exact fun hk => (hascending.mp (hasc hk)).2
  · rintro ⟨hentry, hback, hprev, hnext, hrest⟩
    refine ⟨⟨hback, hnext, hrest.threaded⟩, ?_, ?_⟩
    · exact List.forall_mem_cons.mpr ⟨hentry, hrest.entries⟩
    · exact fun hk => hascending.mpr ⟨hprev hk, hrest.ascending hk⟩

end Heap

/-! ## The walk along the arena -/

theorem Arena.isFree_eq_wordAt {i : Nat} (hi : i < a.slots.size) :
    a.isFree i = .ok (a.wordAt i = some Status.free.word) := by
  have hword : a.wordAt i = some a.slots[i].status := by
    rw [Arena.wordAt, Array.getElem?_eq_getElem hi]
    rfl
  simp [Arena.isFree, Arena.status_eq_of_wordAt hword, hword, Status.ofWord?_eq_some_iff, bind,
    Except.bind, pure, Except.pure]

theorem Chunk.TaggedIn.chunkViolation?_eq (h : c.TaggedIn a) (hs : a.slots.size ≤ maxUnits)
    (hu : 1 ≤ c.units) : a.chunkViolation? c.index = .ok none := by
  have hunits := h.units
  have hword := h.word
  have hfooter := h.footer
  obtain ⟨header, hheader, hheaderUnits⟩ := Option.map_eq_some_iff.mp (by exact hunits)
  obtain ⟨footer, hfooter', hfooterUnits⟩ := Option.map_eq_some_iff.mp (by exact hfooter)
  have hstatus : header.status? = some c.status := by
    rw [Arena.wordAt, hheader, Option.map_some, Option.some.injEq] at hword
    rw [Slot.status?, hword, Status.ofWord?_word]
  have hzero : header.units ≠ 0 := by
    intro hz
    rw [hz] at hheaderUnits
    exact absurd hheaderUnits (by rw [UInt32.toNat_zero]; omega)
  have hsame : footer.units = header.units :=
    UInt32.toNat_inj.mp (hfooterUnits.trans hheaderUnits.symm)
  unfold Arena.chunkViolation? Arena.length
  rw [if_neg (by have := h.index_lt; omega)]
  simp only [Arena.slot_eq_ok_iff.mpr hheader, bind, Except.bind]
  rw [if_neg hzero, if_neg (by rw [hstatus]; simp)]
  simp only [h.footerOf_eq hs]
  rw [if_neg (by have := h.footer_lt; omega)]
  simp only [Arena.slot_eq_ok_iff.mpr hfooter']
  rw [if_neg (by simpa using hsame)]
  rfl

namespace Heap

/-- A chunk does not clash with the last one below unless both are free. -/
theorem clash?_eq_none_iff {covered free : Nat} :
    Tally.clash? ⟨covered, free, lastFree pre⟩ c.isFree = none ↔
      ∀ d ∈ pre.getLast?, ¬ (d.isFree ∧ c.isFree) := by
  unfold Tally.clash? lastFree
  cases hc : c.isFree
  · simp
  · cases hd : pre.getLast? with
    | none => simp
    | some d => simp [Option.filter]

section Tally

variable (hs : a.slots.size ≤ maxUnits) (hpre : Tiles 0 pre c.index) (hc : c.TaggedIn a)

include hs hpre hc

theorem count_eq : Tally.count ⟨c.index, freeCount pre, lastFree pre⟩ c.index c.units c.isFree =
    .ok ⟨c.stop, freeCount (pre ++ [c]), lastFree (pre ++ [c])⟩ := by
  have hlt := hc.stop_lt_limit hs
  unfold Chunk.stop at hlt ⊢
  have hlength := hpre.length_le
  have hfree : freeCount pre ≤ pre.length := List.countP_le_length
  unfold Tally.count
  rw [Word.add_eq_ok (show c.units + 2 < Word.limit by omega)]
  simp only [bind, Except.bind]
  have hcovered : Word.add c.index (c.units + 2) = .ok (c.index + c.units + 2) :=
    Word.add_eq_ok (by omega)
  cases hc : c.isFree
  · simp [hcovered, freeCount, lastFree, hc, Option.filter, pure, Except.pure]
  · have hseen : Word.add (freeCount pre) 1 = .ok (freeCount pre + 1) := Word.add_eq_ok (by omega)
    simp only [hseen, if_true, hcovered, pure, Except.pure]
    simp [freeCount, lastFree, hc, Option.filter]

/-- One step of the walk along the arena, the chunks below being counted. -/
theorem tallyFrom_chunk (hu : 1 ≤ c.units) (hclash : ∀ d ∈ pre.getLast?, ¬ (d.isFree ∧ c.isFree)) :
    tallyFrom a c.index ⟨c.index, freeCount pre, lastFree pre⟩ =
      if c.stop < a.slots.size then
        tallyFrom a c.stop ⟨c.stop, freeCount (pre ++ [c]), lastFree (pre ++ [c])⟩
      else .ok (.ok ⟨c.stop, freeCount (pre ++ [c]), lastFree (pre ++ [c])⟩) := by
  have hnext := hc.nextAdjacent_eq hs
  rw [tallyFrom]
  simp only [hc.chunkViolation?_eq hs hu, hc.isFree_eq, clash?_eq_none_iff.mpr hclash, hc.units_eq,
    count_eq hs hpre hc, bind, Except.bind]
  split
  · rename_i e he
    rw [hnext] at he
    cases he
  · rename_i he
    rw [hnext, Except.ok.injEq] at he
    split_ifs at he with hlt
    rw [if_neg hlt]
    rfl
  · rename_i n he
    rw [hnext, Except.ok.injEq] at he
    split_ifs at he with hlt
    rw [if_pos hlt]
    cases he
    rfl

end Tally

/-- The walk from a chunk on, the chunks below being counted. -/
theorem tallyFrom_eq (hs : a.slots.size ≤ maxUnits)
    (htiles : Tiles 0 (pre ++ c :: post) a.slots.size)
    (htagged : ∀ d ∈ pre ++ c :: post, d.TaggedIn a) (hsettled : Settled (pre ++ c :: post)) :
    tallyFrom a c.index ⟨c.index, freeCount pre, lastFree pre⟩ =
      .ok (.ok ⟨a.slots.size, freeCount (pre ++ c :: post), lastFree (pre ++ c :: post)⟩) := by
  induction post generalizing pre c with
  | nil =>
    obtain ⟨hpre, hu, hstop⟩ := tiles_split.mp htiles
    have hstop : c.stop = a.slots.size := hstop
    obtain ⟨-, -, hclash, -⟩ := settled_middle.mp hsettled
    rw [tallyFrom_chunk hs hpre (htagged c (by simp)) hu hclash, if_neg (by omega), hstop]
  | cons d post ih =>
    obtain ⟨hpre, hu, hpost⟩ := tiles_split.mp htiles
    have hstart : c.stop = d.index := hpost.1.symm
    have hd : d.index < a.slots.size := (htagged d (by simp)).index_lt
    obtain ⟨-, -, hclash, -⟩ := settled_middle.mp hsettled
    rw [tallyFrom_chunk hs hpre (htagged c (by simp)) hu hclash, if_pos (by omega), hstart]
    rw [List.append_cons pre c (d :: post)] at htiles htagged hsettled ⊢
    exact ih htiles htagged hsettled

theorem tally_eq (hs : a.slots.size ≤ maxUnits) (htiles : Tiles 0 chunks a.slots.size)
    (htagged : ∀ c ∈ chunks, c.TaggedIn a) (hsettled : Settled chunks) :
    tally a = .ok (.ok ⟨a.slots.size, freeCount chunks, lastFree chunks⟩) := by
  unfold tally Arena.first Arena.length
  cases chunks with
  | nil =>
    have hempty : 0 = a.slots.size := htiles
    rw [← hempty]
    rfl
  | cons c chunks =>
    have hc := htagged c (by simp)
    rw [if_pos (by have := hc.index_lt; omega)]
    have hzero : c.index = 0 := htiles.1
    have hwalk := @tallyFrom_eq G a [] chunks c hs htiles htagged hsettled
    rw [hzero] at hwalk
    exact hwalk

/-! ## The walk along the lists -/

variable {h : Heap G}

theorem entryViolation?_eq (hs : h.arena.slots.size ≤ maxUnits) (hc : c.TaggedIn h.arena)
    (hu : 1 ≤ c.units) : h.entryViolation? c.index =
      .ok (if c.isFree then none else some (.notFree c.index)) := by
  unfold entryViolation?
  rw [hc.chunkViolation?_eq hs hu]
  simp only [bind, Except.bind, hc.isFree_eq]
  cases c.isFree <;> rfl

theorem hasFreeAbove_eq (hs : h.arena.slots.size ≤ maxUnits) (hc : c.TaggedIn h.arena) :
    h.hasFreeAbove c.index = .ok (h.arena.wordAt c.stop = some Status.free.word) := by
  unfold hasFreeAbove
  rw [hc.nextAdjacent_eq hs]
  by_cases hlt : c.stop < h.arena.slots.size
  · rw [if_pos hlt]
    exact Arena.isFree_eq_wordAt hlt
  · have hnone : h.arena.wordAt c.stop = none := by
      rw [Arena.wordAt, Array.getElem?_eq_none (by omega)]
      rfl
    simp [hlt, hnone, bind, Except.bind, pure, Except.pure]

theorem filingViolation?_eq (hs : h.arena.slots.size ≤ maxUnits) (hc : c.TaggedIn h.arena) :
    h.filingViolation? k prev c.index =
      .ok (if h.config.classOf c.units ≠ k then some (.misfiled c.index c.units)
        else if h.arena.linkAt c.footer ≠ prev then some (.brokenBackLink c.index)
        else if h.arena.wordAt c.stop = some Status.free.word then some (.uncoalesced c.index)
        else if k = SizeClass.overflow ∧ ¬ prev.all (· < c.index) then some (.unordered c.index)
        else none) := by
  unfold filingViolation?
  simp only [hc.units_eq, hc.prevFree_eq hs, hasFreeAbove_eq hs hc, bind, Except.bind, pure,
    Except.pure, decide_eq_true_eq]
  split_ifs <;> rfl

/-- One step of the walk along a list. -/
theorem walkList_entry (hs : h.arena.slots.size ≤ maxUnits) (hc : h.Entry k c)
    (hback : h.arena.linkAt c.footer = prev)
    (hprev : k = SizeClass.overflow → ∀ p ∈ prev, p < c.index) {free listed : Nat}
    (hlt : listed < free) : h.walkList free k prev (some c.index) listed =
      h.walkList free k (some c.index) (h.arena.linkAt c.index) (listed + 1) := by
  have hfiling : h.filingViolation? k prev c.index = .ok none := by
    have hordered : ¬ (k = SizeClass.overflow ∧ ¬ prev.all (· < c.index)) := by
      rintro ⟨hk, hall⟩
      apply hall
      simpa [Option.all_eq_true] using hprev hk
    rw [filingViolation?_eq hs hc.tagged, if_neg (not_not.mpr hc.classOf_eq),
      if_neg (not_not.mpr hback), if_neg hc.above, if_neg hordered]
  rw [walkList]
  simp only [entryViolation?_eq hs hc.tagged hc.units_pos, hc.free, if_true, hlt, hfiling,
    hc.tagged.nextFree_eq, bind, Except.bind]

/-- The walk along the rest of a list. -/
theorem walkList_eq (hs : h.arena.slots.size ≤ maxUnits) (hl : h.Enlisted k prev l)
    {free listed : Nat} (hfree : listed + l.length ≤ free) :
    h.walkList free k prev (entry l none) listed = .ok (.ok (listed + l.length)) := by
  induction l generalizing prev listed with
  | nil =>
    rw [entry_nil, walkList]
    rfl
  | cons c l ih =>
    obtain ⟨hc, hback, hprev, hnext, hrest⟩ := enlisted_cons.mp hl
    rw [List.length_cons] at hfree ⊢
    rw [entry_cons, walkList_entry hs hc hback hprev (by omega), hnext, ih hrest (by omega),
      Nat.add_right_comm, Nat.add_assoc]

theorem walkLists_eq (hs : h.arena.slots.size ≤ maxUnits)
    (hheads : ∀ k, h.head k = entry (lists k) none) (hlists : ∀ k, h.Enlisted k none (lists k))
    (ks : List SizeClass) (listed : Nat) {free : Nat}
    (hfree : listed + (ks.map fun k => (lists k).length).sum ≤ free) :
    h.walkLists free ks listed =
      .ok (.ok (listed + (ks.map fun k => (lists k).length).sum)) := by
  induction ks generalizing listed with
  | nil => rfl
  | cons k ks ih =>
    rw [List.map_cons, List.sum_cons] at hfree ⊢
    unfold walkLists
    rw [hheads, walkList_eq hs (hlists k) (by omega)]
    simp only [bind, Except.bind]
    rw [ih _ (by omega), Nat.add_assoc]

/-! ## The heap -/

/-- The inspection finds nothing. -/
theorem Inspected.check_eq (I : h.Inspected chunks lists) (hs : h.arena.slots.size ≤ maxUnits) :
    h.check = .ok none := by
  have hcount := I.count
  rw [FreeLists.length_entries] at hcount
  have hlists := walkLists_eq hs I.heads I.enlisted (List.finRange classCount) 0
    (Nat.le_of_eq (by rw [hcount, Nat.zero_add]))
  rw [hcount, Nat.zero_add] at hlists
  unfold check
  rw [tally_eq hs I.tiles I.tagged I.settled]
  simp only [bind, Except.bind, Arena.length]
  rw [if_neg (by simp), hlists]
  simp only [if_true]
  rfl

namespace WellFormed

theorem length_entries (W : h.WellFormed chunks lists) :
    lists.entries.length = freeCount chunks := by
  rw [FreeLists.length_entries, ← sum_length_members h.config chunks]
  simp only [(W.filed.perm _).length_eq]

/-- The entries of the lists are free chunks, and above a free chunk there is none. -/
theorem entry_of_listed (W : h.WellFormed chunks lists) (hc : c ∈ lists k) : h.Entry k c := by
  obtain ⟨hmem, hfree, hk⟩ := W.filed.mem_iff.mp hc
  refine ⟨W.tagged c hmem, (W.tiles.bounds hmem).2.2, hfree, hk, ?_⟩
  obtain ⟨pre, post, rfl⟩ := List.append_of_mem hmem
  obtain ⟨-, -, habove⟩ := tiles_split.mp W.tiles
  obtain ⟨-, -, -, hhead⟩ := settled_middle.mp W.settled
  intro hword
  cases post with
  | nil =>
    have hstop : c.stop = h.arena.slots.size := habove
    rw [hstop, Arena.wordAt, Array.getElem?_eq_none (Nat.le_refl _)] at hword
    cases hword
  | cons d post =>
    have hd := W.tagged d (by simp)
    rw [← habove.1, hd.word, Option.some.injEq] at hword
    have hstatus : d.status = .free := by
      cases hs : d.status with
      | free => rfl
      | inUse =>
        rw [hs] at hword
        exact absurd hword (by decide)
    exact hhead d rfl ⟨hfree, Chunk.isFree_iff.mpr hstatus⟩

theorem inspected (W : h.WellFormed chunks lists) : h.Inspected chunks lists := by
  refine ⟨W.tiles, W.tagged, W.settled, W.heads, ?_, W.length_entries⟩
  intro k
  refine ⟨W.threaded k, fun c hc => W.entry_of_listed hc, ?_⟩
  rintro rfl
  have hpairs : (lists SizeClass.overflow).Pairwise fun c d => c.index < d.index := by
    rw [W.filed.ordered]
    exact W.tiles.ascending.pairwise_index.filter _
  exact List.pairwise_map.mpr hpairs

/-- The inspection finds nothing. -/
theorem check_eq (W : h.WellFormed chunks lists) : h.check = .ok none :=
  W.inspected.check_eq W.short

theorem runs_closingCheck (W : h.WellFormed chunks lists) :
    (closingCheck : Action (Heap G) Unit).Runs h () h :=
  Action.Runs.bind (Action.runs_read (by exact W.check_eq)) (Action.runs_pure _ _)

end WellFormed

end Heap

end BoundaryTag
