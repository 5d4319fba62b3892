import BoundaryTag.Proofs.Verdict

/-!
# Lists that do not end

The inspection does not mark the entries that it meets. It counts them over all lists,
and when the free chunks of the arena are used up and another free tag follows, it says
that the list at hand does not end. That is so of a list that leads back into itself. But
a list that ends uses up the count as well when it runs into a list that was walked
before it, or when one of the entries met on the way is no chunk. A list that does not
end, on the other hand, never passes.

Results:

* `Overrun`: what was met when a list is said not to end (`exists_overrun`).
* `Overrun.cases_of_ends`: why a list that ends is said not to.
* `cycle_verdicts`: both, and that lists without an end are found out; `cycle_of_ends`: a
  list that ends after two chunks and is said not to.
-/

namespace BoundaryTag

variable {G : Type} {a : Arena G} {h : Heap G} {chunks l : List Chunk} {lists : FreeLists}
  {c d : Chunk} {k j : SizeClass} {prev before after cursor : Option Nat} {i head : Nat}

/-! ## Following links -/

namespace Arena

/-- The links of the headers lead from `cursor` to an end, and never out of the arena. -/
inductive Ends (a : Arena G) : Option Nat → Prop
  | nil : Ends a none
  | cons {i : Nat} {next : Option Nat} (hnext : a.nextFree i = .ok next) (hrest : Ends a next) :
    Ends a (some i)

/-- The links of the headers lead from `cursor` to a slot. -/
inductive Reaches (a : Arena G) : Option Nat → Nat → Prop
  | here (i : Nat) : Reaches a (some i) i
  | step {i j : Nat} {next : Option Nat} (hnext : a.nextFree i = .ok next)
    (hrest : Reaches a next j) : Reaches a (some i) j

/-- There is no end to be reached from slots whose links stay among them. -/
theorem Ends.notMem_of_closed {s : Set Nat} (he : a.Ends cursor)
    (hs : ∀ i ∈ s, ∃ j ∈ s, a.nextFree i = .ok (some j)) : ∀ i ∈ cursor, i ∉ s := by
  induction he with
  | nil => simp
  | cons hnext _ ih =>
    intro i hi hmem
    obtain rfl := Option.some.inj hi
    obtain ⟨j, hj, hlink⟩ := hs _ hmem
    rw [hnext, Except.ok.injEq] at hlink
    exact ih j hlink hj

end Arena

section Threads

variable (hl : Threaded a.linkAt before l after) (ht : ∀ c ∈ l, c.TaggedIn a)

include hl ht

theorem Threaded.nextFree_eq (l₁ l₂ : List Chunk) (hsplit : l = l₁ ++ c :: l₂) :
    a.nextFree c.index = .ok (entry l₂ after) := by
  subst hsplit
  obtain ⟨-, -, hnext, -⟩ := threaded_append.mp hl
  rw [(ht c (by simp)).nextFree_eq, hnext]

/-- A thread ends where what follows it does. -/
theorem Threaded.ends_iff : a.Ends (entry l after) ↔ a.Ends after := by
  induction l generalizing before with
  | nil => rfl
  | cons c l ih =>
    have hnext := hl.nextFree_eq ht [] l rfl
    have hrest := ih hl.2.2 fun d hd => ht d (by simp [hd])
    rw [entry_cons, ← hrest]
    constructor
    · rintro (_ | ⟨hnext', hends⟩)
      rw [hnext, Except.ok.injEq] at hnext'
      exact hnext' ▸ hends
    · exact .cons hnext

/-- A thread reaches its chunks, and what is reached behind it. -/
theorem Threaded.reaches (hi : (∃ c ∈ l, c.index = i) ∨ a.Reaches after i) :
    a.Reaches (entry l after) i := by
  induction l generalizing before with
  | nil => simpa using hi
  | cons c l ih =>
    have hnext := hl.nextFree_eq ht [] l rfl
    have hrest := ih hl.2.2 fun d hd => ht d (by simp [hd])
    rw [entry_cons]
    rcases hi with ⟨d, hd, rfl⟩ | hi
    · rcases List.mem_cons.mp hd with rfl | hd
      · exact .here _
      · exact .step hnext (hrest (.inl ⟨d, hd, rfl⟩))
    · exact .step hnext (hrest (.inr hi))

/-- A thread that leads back to one of its chunks has no end. -/
theorem Threaded.notMem_of_ends (hends : a.Ends (entry l after)) (hafter : after = some c.index) :
    c ∉ l := by
  intro hc
  obtain ⟨l₁, l₂, rfl⟩ := List.append_of_mem hc
  have hback : a.Ends (some c.index) := by
    rw [hl.ends_iff ht, hafter] at hends
    exact hends
  -- the links stay among the chunks from the first occurrence on
  refine hback.notMem_of_closed (s := {i | ∃ e ∈ c :: l₂, e.index = i}) ?_ c.index rfl
    ⟨c, by simp, rfl⟩
  rintro i ⟨d, hd, rfl⟩
  obtain ⟨m₁, m₂, hm⟩ := List.append_of_mem hd
  have hnext := hl.nextFree_eq ht (l₁ ++ m₁) m₂ (by rw [hm, List.append_assoc])
  cases m₂ with
  | nil => exact ⟨c.index, ⟨c, by simp, rfl⟩, by rw [hnext, entry_nil, hafter]⟩
  | cons e m₂ => exact ⟨e.index, ⟨e, by rw [hm]; simp, rfl⟩, hnext⟩

end Threads

/-! ## The walks -/

namespace Arena

/-- What is wrong with a chunk by itself is never that a list does not end. -/
theorem chunkViolation?_ne_cycle (a : Arena G) (i head : Nat) :
    a.chunkViolation? i ≠ .ok (some (.cycle head)) := by
  intro hv
  unfold chunkViolation? at hv
  simp only [bind, Except.bind, pure, Except.pure] at hv
  split at hv
  · cases hv
  cases hslot : a.slot i with
  | error e => simp [hslot] at hv
  | ok header =>
    simp only [hslot] at hv
    split at hv
    · cases hv
    split at hv
    · cases hv
    cases hfooter : a.footerOf i with
    | error e => simp [hfooter] at hv
    | ok footer =>
      simp only [hfooter] at hv
      split at hv
      · cases hv
      cases hslot' : a.slot footer with
      | error e => simp [hslot'] at hv
      | ok tag =>
        simp only [hslot'] at hv
        split at hv <;> cases hv

end Arena

namespace Heap

/-- Nor is this said of the arena. -/
theorem tallyFrom_ne_cycle (a : Arena G) (i : Nat) (t : Tally) (head : Nat) :
    tallyFrom a i t ≠ .ok (.error (.cycle head)) := by
  -- by induction on the slots that are left
  induction hleft : a.length - i using Nat.strong_induction_on generalizing i t with
  | _ left ih =>
    intro hrun
    rw [tallyFrom] at hrun
    simp only [bind, Except.bind] at hrun
    split at hrun
    · cases hrun
    rename_i hviolation
    split at hrun
    · cases hrun
      exact a.chunkViolation?_ne_cycle i head hviolation
    split at hrun
    · cases hrun
    split at hrun
    · cases hrun
    split at hrun
    · cases hrun
    split at hrun
    · cases hrun
    split at hrun
    · cases hrun
    · cases hrun
    · rename_i next hnext
      have hlt := Arena.lt_of_nextAdjacent hnext
      exact ih _ (by omega) next _ rfl hrun

theorem tally_ne_cycle (a : Arena G) (head : Nat) : tally a ≠ .ok (.error (.cycle head)) := by
  unfold tally
  split
  · intro hrun
    cases hrun
  · exact tallyFrom_ne_cycle a _ _ head

/-- Where a list is said not to end, a free tag follows when the count is used up; before that, the
entries are as they should be. -/
theorem walkList_step_of_cycle (hs : h.arena.slots.size ≤ maxUnits) {free listed : Nat}
    (hrun : h.walkList free k prev (some i) listed = .ok (.error (.cycle head))) :
    ∃ c, c.index = i ∧ c.TaggedIn h.arena ∧ c.isFree ∧
      (free ≤ listed ∧ head = (h.head k).getD i ∨
        listed < free ∧ h.Entry k c ∧ h.arena.linkAt c.footer = prev ∧
          (k = SizeClass.overflow → ∀ p ∈ prev, p < c.index)) := by
  rcases h.arena.chunkViolation?_cases hs i with ⟨v, hv, -⟩ | ⟨c, rfl, hu, hc⟩
  · rw [walkList, entryViolation?, hv] at hrun
    cases hrun
    exact absurd hv (h.arena.chunkViolation?_ne_cycle i head)
  rw [walkList] at hrun
  simp only [entryViolation?_eq hs hc hu, bind, Except.bind] at hrun
  cases hfree : c.isFree
  · rw [hfree] at hrun
    cases hrun
  refine ⟨c, rfl, hc, hfree, ?_⟩
  simp only [hfree, if_true] at hrun
  by_cases hlt : listed < free
  · simp only [hlt, if_true, filingViolation?_eq hs hc] at hrun
    split_ifs at hrun with hclass hback habove hordered
    · cases hrun
    · cases hrun
    · cases hrun
    · cases hrun
    · refine .inr ⟨hlt, ⟨hc, hu, hfree, not_not.mp hclass, habove⟩, not_not.mp hback, ?_⟩
      intro hk
      by_contra hall
      exact hordered ⟨hk, by simpa [Option.all_eq_true] using hall⟩
  · simp only [hlt, if_false, pure, Except.pure, Except.ok.injEq, Except.error.injEq,
      Violation.cycle.injEq] at hrun
    exact .inl ⟨Nat.not_lt.mp hlt, hrun.symm⟩

/-- The entries up to the one that is too many. -/
theorem exists_of_walkList_eq_cycle (hs : h.arena.slots.size ≤ maxUnits) {free listed : Nat}
    (hle : listed ≤ free)
    (hrun : h.walkList free k prev cursor listed = .ok (.error (.cycle head))) :
    ∃ (l : List Chunk) (c : Chunk), cursor = entry l (some c.index) ∧
      Threaded h.arena.linkAt prev l (some c.index) ∧ (∀ d ∈ l, h.Entry k d) ∧
      c.TaggedIn h.arena ∧ c.isFree ∧ listed + l.length = free ∧
      head = (h.head k).getD c.index := by
  -- by induction on the entries that may still come
  induction hleft : free - listed generalizing listed prev cursor with
  | zero =>
    cases cursor with
    | none => rw [walkList] at hrun; cases hrun
    | some i =>
      obtain ⟨c, rfl, hc, hfree, ⟨-, hhead⟩ | ⟨hlt, -⟩⟩ := walkList_step_of_cycle hs hrun
      · exact ⟨[], c, rfl, trivial, by simp, hc, hfree, by simp; omega, hhead⟩
      · omega
  | succ left ih =>
    cases cursor with
    | none => rw [walkList] at hrun; cases hrun
    | some i =>
      obtain ⟨c, rfl, -, -, ⟨hge, -⟩ | ⟨hlt, hentry, hback, hprev⟩⟩ :=
        walkList_step_of_cycle hs hrun
      · omega
      rw [walkList_entry hs hentry hback hprev hlt] at hrun
      obtain ⟨l, d, hnext, hl, hentries, hd, hfree, hlength, hhead⟩ := ih hlt hrun (by omega)
      refine ⟨c :: l, d, rfl, ⟨hback, hnext, hl⟩, ?_, hd, hfree, ?_, hhead⟩
      · exact List.forall_mem_cons.mpr ⟨hentry, hentries⟩
      · rw [List.length_cons]
        omega

/-- What the inspection has met when it says of list `k` that it does not end: all entries of the
lists before, some of this list, and the free tag `c`, which is one more than there are free
chunks. -/
structure Overrun (h : Heap G) (chunks : List Chunk) (lists : FreeLists) (k : SizeClass)
    (c : Chunk) : Prop where
  tiles : Tiles 0 chunks h.arena.slots.size
  tagged : ∀ d ∈ chunks, d.TaggedIn h.arena
  settled : Settled chunks
  /-- The lists before have an end. -/
  before : ∀ j < k, h.head j = entry (lists j) none ∧ Threaded h.arena.linkAt none (lists j) none
  head : h.head k = entry (lists k) (some c.index)
  threaded : Threaded h.arena.linkAt none (lists k) (some c.index)
  /-- The lists behind were not begun. -/
  behind : ∀ j, k < j → lists j = []
  entries : ∀ j, ∀ d ∈ lists j, h.Entry j d
  next : c.TaggedIn h.arena
  free : c.isFree
  count : lists.entries.length = freeCount chunks

/-- The lists before the one that is said not to end. -/
theorem exists_of_walkLists_eq_cycle (hs : h.arena.slots.size ≤ maxUnits) {ks : List SizeClass}
    {free listed : Nat} (hks : ks.Nodup) (hle : listed ≤ free)
    (hrun : h.walkLists free ks listed = .ok (.error (.cycle head))) :
    ∃ (before : List SizeClass) (k : SizeClass) (behind : List SizeClass) (lists : FreeLists),
      ks = before ++ k :: behind ∧
      (∀ j ∈ before, h.head j = entry (lists j) none ∧ h.Enlisted j none (lists j)) ∧
      listed + (before.map fun j => (lists j).length).sum ≤ free ∧
      h.walkList free k none (h.head k) (listed + (before.map fun j => (lists j).length).sum) =
        .ok (.error (.cycle head)) := by
  induction ks generalizing listed with
  | nil => cases hrun
  | cons k ks ih =>
    obtain ⟨hk, hks⟩ := List.nodup_cons.mp hks
    unfold walkLists at hrun
    rcases walkList_cases hs k none (h.head k) hle with ⟨v, hv, -⟩ | ⟨l, hhead, hl, hlength⟩
    · rw [hv] at hrun
      cases hrun
      exact ⟨[], k, ks, fun _ => [], rfl, by simp, hle, hv⟩
    · rw [hhead, walkList_eq hs hl hlength] at hrun
      obtain ⟨before, m, behind, lists, rfl, hbefore, hsum, hm⟩ := ih hks hlength hrun
      have hother : ∀ j ∈ before, Function.update lists k l j = lists j := fun j hj =>
        Function.update_of_ne (ne_of_mem_of_not_mem (List.mem_append_left _ hj) hk) _ _
      have hlengths : listed + ((k :: before).map fun j =>
          (Function.update lists k l j).length).sum =
            listed + l.length + (before.map fun j => (lists j).length).sum := by
        rw [List.map_cons, List.sum_cons, Function.update_self,
          List.map_congr_left fun j hj => congrArg List.length (hother j hj), Nat.add_assoc]
      refine ⟨k :: before, m, behind, Function.update lists k l, rfl, ?_, ?_, ?_⟩
      · intro j hj
        rcases List.mem_cons.mp hj with rfl | hj
        · rw [Function.update_self]
          exact ⟨hhead, hl⟩
        · rw [hother j hj]
          exact hbefore j hj
      · rw [hlengths]
        exact hsum
      · rw [hlengths]
        exact hm

/-- When the inspection says that a list does not end, it has met an entry too many. -/
theorem exists_overrun (hs : h.arena.slots.size ≤ maxUnits)
    (hcheck : h.check = .ok (some (.cycle head))) :
    ∃ chunks lists k c, h.Overrun chunks lists k c ∧ h.head k = some head := by
  unfold check at hcheck
  rcases tally_cases hs with ⟨v, hv, -⟩ | ⟨chunks, htiles, htagged, hsettled⟩
  · rw [hv] at hcheck
    cases hcheck
    exact absurd hv (tally_ne_cycle _ head)
  rw [tally_eq hs htiles htagged hsettled] at hcheck
  simp only [bind, Except.bind, Arena.length] at hcheck
  rw [if_neg (by simp)] at hcheck
  have hwalk : h.walkLists (freeCount chunks) (List.finRange classCount) 0 =
      .ok (.error (.cycle head)) := by
    split at hcheck
    · cases hcheck
    · split at hcheck
      · rename_i hrun
        cases hcheck
        exact hrun
      · split at hcheck <;> cases hcheck
  obtain ⟨before, k, behind, lists, hsplit, hbefore, hsum, hrun⟩ :=
    exists_of_walkLists_eq_cycle hs (List.nodup_finRange classCount) (Nat.zero_le _) hwalk
  obtain ⟨l, c, hcursor, hl, hentries, hc, hfree, hlength, hhead⟩ :=
    exists_of_walkList_eq_cycle hs hsum hrun
  have hsorted := List.pairwise_lt_finRange classCount
  rw [hsplit, List.pairwise_append, List.pairwise_cons] at hsorted
  obtain ⟨-, ⟨hbehind, -⟩, hbelow⟩ := hsorted
  have hlt : ∀ j ∈ before, j < k := fun j hj => hbelow j hj k (by simp)
  have hmem : ∀ j < k, j ∈ before := by
    intro j hj
    have hall := List.mem_finRange j
    rw [hsplit] at hall
    rcases List.mem_append.mp hall with hin | hin
    · exact hin
    · rcases List.mem_cons.mp hin with rfl | hin
      · exact absurd hj (lt_irrefl _)
      · exact absurd hj (lt_asymm (hbehind j hin))
  let met : FreeLists := fun j => if j < k then lists j else if j = k then l else []
  have hmet : ∀ j < k, met j = lists j := fun j hj => if_pos hj
  have hmetk : met k = l := by simp [met]
  have hmetb : ∀ j, k < j → met j = [] := fun j hj => by
    simp [met, lt_asymm hj, hj.ne']
  refine ⟨chunks, met, k, c, ⟨htiles, htagged, hsettled, ?_, ?_, ?_, hmetb, ?_, hc, hfree, ?_⟩, ?_⟩
  · intro j hj
    obtain ⟨hjhead, hjlist⟩ := hbefore j (hmem j hj)
    rw [hmet j hj]
    exact ⟨hjhead, hjlist.threaded⟩
  · rw [hmetk]
    exact hcursor
  · rw [hmetk]
    exact hl
  · intro j d hd
    rcases lt_trichotomy j k with hj | rfl | hj
    · rw [hmet j hj] at hd
      exact (hbefore j (hmem j hj)).2.entries d hd
    · rw [hmetk] at hd
      exact hentries d hd
    · rw [hmetb j hj] at hd
      cases hd
  · have hzero : (behind.map fun j => (met j).length).sum = 0 := by
      refine List.sum_eq_zero fun n hn => ?_
      obtain ⟨j, hj, rfl⟩ := List.mem_map.mp hn
      rw [hmetb j (hbehind j hj)]
      rfl
    rw [FreeLists.length_entries, hsplit, List.map_append, List.sum_append, List.map_cons,
      List.sum_cons, hzero, hmetk,
      List.map_congr_left fun j hj => congrArg List.length (hmet j (hlt j hj))]
    omega
  · rw [hhead, hcursor]
    cases l <;> rfl

namespace Overrun

variable (O : h.Overrun chunks lists k c)

include O

theorem taggedIn_of_mem (hd : d ∈ lists j) : d.TaggedIn h.arena := (O.entries j d hd).tagged

theorem exists_threaded (j : SizeClass) :
    ∃ after, Threaded h.arena.linkAt none (lists j) after := by
  rcases lt_trichotomy j k with hj | rfl | hj
  · exact ⟨_, (O.before j hj).2⟩
  · exact ⟨_, O.threaded⟩
  · rw [O.behind j hj]
    exact ⟨none, trivial⟩

/-- No entry was met twice. -/
theorem nodup_entries : lists.entries.Nodup := by
  refine List.nodup_flatMap.mpr ⟨fun j _ => ?_, ?_⟩
  · obtain ⟨after, hl⟩ := O.exists_threaded j
    exact hl.nodup fun d hd e he hindex =>
      (O.taggedIn_of_mem hd).unique (O.taggedIn_of_mem he) hindex
  · refine (List.nodup_finRange classCount).imp fun hne d hd hd' => ?_
    exact hne ((O.entries _ d hd).classOf_eq.symm.trans (O.entries _ d hd').classOf_eq)

/-- If all entries are chunks, then they are all free chunks. -/
theorem mem_entries_of_free (hchunks : ∀ d ∈ lists.entries, d ∈ chunks) (hd : d ∈ chunks)
    (hfree : d.isFree) : d ∈ lists.entries := by
  have hsubset : lists.entries ⊆ chunks.filter Chunk.isFree := fun e he => by
    obtain ⟨j, hj⟩ := FreeLists.mem_entries.mp he
    exact List.mem_filter.mpr ⟨hchunks e he, (O.entries j e hj).free⟩
  have hperm := (O.nodup_entries.subperm hsubset).perm_of_length_le (by
    rw [O.count, freeCount, List.countP_eq_length_filter])
  exact hperm.mem_iff.mpr (List.mem_filter.mpr ⟨hd, hfree⟩)

/-- What was met of a list is reached from its head. -/
theorem reaches (hd : d ∈ lists j) : h.arena.Reaches (h.head j) d.index := by
  have ht : ∀ e ∈ lists j, e.TaggedIn h.arena := fun e he => O.taggedIn_of_mem he
  rcases lt_trichotomy j k with hj | rfl | hj
  · obtain ⟨hhead, hl⟩ := O.before j hj
    rw [hhead]
    exact hl.reaches ht (.inl ⟨d, hd, rfl⟩)
  · rw [O.head]
    exact O.threaded.reaches ht (.inl ⟨d, hd, rfl⟩)
  · rw [O.behind j hj] at hd
    cases hd

theorem reaches_next : h.arena.Reaches (h.head k) c.index := by
  rw [O.head]
  exact O.threaded.reaches (fun e he => O.taggedIn_of_mem he) (.inr (.here _))

theorem le_of_mem (hd : d ∈ lists j) : j ≤ k := by
  by_contra hlt
  rw [O.behind j (not_le.mp hlt)] at hd
  cases hd

theorem index_ne (hd : d.TaggedIn h.arena) (hout : d ∉ chunks) : ∀ e ∈ chunks, e.index ≠ d.index :=
  fun e he hindex => hout ((O.tagged e he).unique hd hindex ▸ he)

/-- A list that ends is said not to when it runs into one before it, or when some entry that was met
is no chunk. -/
theorem cases_of_ends (hends : h.arena.Ends (h.head k)) :
    (∃ j < k, ∃ i, h.arena.Reaches (h.head k) i ∧ h.arena.Reaches (h.head j) i) ∨
      ∃ j ≤ k, ∃ i, h.arena.Reaches (h.head j) i ∧ ∀ d ∈ chunks, d.index ≠ i := by
  by_cases hshadow : ∃ j, ∃ d ∈ lists j, d ∉ chunks
  · obtain ⟨j, d, hd, hout⟩ := hshadow
    exact .inr ⟨j, O.le_of_mem hd, d.index, O.reaches hd, O.index_ne (O.taggedIn_of_mem hd) hout⟩
  have hchunks : ∀ d ∈ lists.entries, d ∈ chunks := by
    intro d hd
    obtain ⟨j, hj⟩ := FreeLists.mem_entries.mp hd
    by_contra hout
    exact hshadow ⟨j, d, hj, hout⟩
  by_cases hc : c ∈ chunks
  · obtain ⟨j, hj⟩ := FreeLists.mem_entries.mp (O.mem_entries_of_free hchunks hc O.free)
    -- in this list `c` would close a circle
    have hne : j ≠ k := by
      rintro rfl
      rw [O.head] at hends
      exact O.threaded.notMem_of_ends (fun e he => O.taggedIn_of_mem he) hends rfl hj
    exact .inl ⟨j, lt_of_le_of_ne (O.le_of_mem hj) hne, c.index, O.reaches_next, O.reaches hj⟩
  · exact .inr ⟨k, le_refl k, c.index, O.reaches_next, O.index_ne O.next hc⟩

end Overrun

/-! ## The verdicts -/

/-- The lists of an inspected heap end. -/
theorem Inspected.ends (I : h.Inspected chunks lists) (k : SizeClass) :
    h.arena.Ends (h.head k) := by
  have hl := I.enlisted k
  rw [I.heads, hl.threaded.ends_iff fun c hc => (hl.entries c hc).tagged]
  exact .nil

/-- When the inspection says of a list that it does not end, then it has met as many entries as
there are free chunks, without a repetition, and another one follows. If the list ends for all
that, it runs into one that was walked before it, or some entry is no chunk. And where a list does
not end or leads out of the arena, the inspection finds something. -/
theorem cycle_verdicts (hs : h.arena.slots.size ≤ maxUnits) :
    (∀ head, h.check = .ok (some (.cycle head)) →
      ∃ chunks lists k c, h.Overrun chunks lists k c ∧ lists.entries.Nodup ∧ h.head k = some head ∧
        (h.arena.Ends (some head) →
          (∃ j < k, ∃ i, h.arena.Reaches (some head) i ∧ h.arena.Reaches (h.head j) i) ∨
            ∃ j ≤ k, ∃ i, h.arena.Reaches (h.head j) i ∧ ∀ d ∈ chunks, d.index ≠ i)) ∧
    ((∃ k, ¬ h.arena.Ends (h.head k)) → ∃ v, h.check = .ok (some v)) := by
  constructor
  · intro head hcheck
    obtain ⟨chunks, lists, k, c, O, hhead⟩ := exists_overrun hs hcheck
    refine ⟨chunks, lists, k, c, O, O.nodup_entries, hhead, fun hends => ?_⟩
    rw [← hhead] at hends ⊢
    exact O.cases_of_ends hends
  · rintro ⟨k, hk⟩
    rcases check_cases hs with ⟨v, hv, -⟩ | ⟨chunks, lists, I⟩
    · exact ⟨v, hv⟩
    · exact absurd (I.ends k) hk

/-! ### Two lists that meet -/

/-- An arena of 25 slots with a free chunk of four units and one of five, each in its list. The link
of the larger one leads to `target`. -/
def linked (target : UInt64) : Heap Unit where
  arena := {
    start := some 4096
    slots := #[
      ⟨Link.none, 4, Status.free.word⟩, .zero, .zero, .zero, .zero, ⟨Link.none, 4, 0⟩,
      ⟨Link.none, 4, Status.inUse.word⟩, .zero, .zero, .zero, .zero, ⟨Link.none, 4, 0⟩,
      ⟨target, 5, Status.free.word⟩, .zero, .zero, .zero, .zero, .zero, ⟨Link.none, 5, 0⟩,
      ⟨Link.none, 4, Status.inUse.word⟩, .zero, .zero, .zero, .zero, ⟨Link.none, 4, 0⟩]
    grower := ()
    unmapped := nofun }
  config := Session.smallBins
  heads := #v[none, none, none, some 0, some 12, none, none, none, none, none, none]

/-- With a link to itself the larger chunk has no end behind it. -/
theorem not_ends_linked : ¬ (linked 12).arena.Ends ((linked 12).head ⟨4, by decide⟩) := by
  intro hends
  refine hends.notMem_of_closed (s := {12}) ?_ 12 rfl rfl
  rintro i rfl
  exact ⟨12, rfl, rfl⟩

set_option maxRecDepth 100000 in
theorem cycle_verdicts_linked :
    (∃ chunks lists k c, (linked 0).Overrun chunks lists k c ∧ (linked 0).head k = some 12 ∧
      ((∃ j < k, ∃ i, (linked 0).arena.Reaches (some 12) i ∧
          (linked 0).arena.Reaches ((linked 0).head j) i) ∨
        ∃ j ≤ k, ∃ i, (linked 0).arena.Reaches ((linked 0).head j) i ∧
          ∀ d ∈ chunks, d.index ≠ i)) ∧
    ∃ v, (linked 12).check = .ok (some v) := by
  obtain ⟨hcycle, -⟩ := cycle_verdicts (h := linked 0) (by decide)
  obtain ⟨chunks, lists, k, c, O, -, hhead, hcases⟩ := hcycle 12 (by decide +kernel)
  obtain ⟨-, hfound⟩ := cycle_verdicts (h := linked 12) (by decide)
  exact ⟨⟨chunks, lists, k, c, O, hhead, hcases (.cons rfl (.cons rfl .nil))⟩,
    hfound ⟨_, not_ends_linked⟩⟩

set_option maxRecDepth 100000 in
/-- It is not so that only lists without an end are said to have none: here the list leads to the
smaller chunk and ends there. -/
theorem cycle_of_ends : (linked 0).arena.slots.size ≤ maxUnits ∧
    (linked 0).check = .ok (some (.cycle 12)) ∧ (linked 0).arena.Ends (some 12) :=
  ⟨by decide, by decide +kernel, .cons rfl (.cons rfl .nil)⟩

end Heap

end BoundaryTag
