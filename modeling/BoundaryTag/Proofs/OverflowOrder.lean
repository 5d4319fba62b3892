import BoundaryTag.Proofs.Filing
import BoundaryTag.Proofs.LegalUse
import BoundaryTag.Proofs.Sequences

/-!
# The place in the overflow list

The place of a chunk in the overflow list is searched downwards in the arena and not in the
list. Below the chunk the arena has to be cut into chunks with agreeing tags, and the list has
to have exactly those among them that are free and of the overflow class; the chunk itself is
not in it yet. Nothing is asked of what lies above, and nothing of the neighbours: both may be
free. Then the search ends as a scan of the list would.

Results:

* `Unfiled.overflowBelow_eq`: the search ends at the last lower member of the list.
* `Unfiled.file`: filing puts the chunk into the order of the list.
* `Unfiled.placed_in_order`: both together, with the search stated as a scan.
-/

namespace BoundaryTag

variable {G : Type}

/-! ## Ascending sequences -/

/-- The last of an ascending sequence is the greatest. -/
theorem getLast?_eq_some_iff_isGreatest {l : List Nat} (hl : l.Pairwise (· < ·)) {p : Nat} :
    l.getLast? = some p ↔ IsGreatest {d | d ∈ l} p := by
  have hlast : ∀ q, l.getLast? = some q → IsGreatest {d | d ∈ l} q := by
    intro q hq
    refine ⟨List.mem_of_getLast? hq, fun d hd => ?_⟩
    obtain ⟨m, rfl⟩ := List.getLast?_eq_some_iff.mp hq
    rcases List.mem_append.mp hd with hd | hd
    · exact Nat.le_of_lt ((List.pairwise_append.mp hl).2.2 d hd q (by simp))
    · exact Nat.le_of_eq (List.mem_singleton.mp hd)
  refine ⟨hlast p, fun hp => ?_⟩
  cases hq : l.getLast? with
  | none =>
    rw [List.getLast?_eq_none_iff.mp hq] at hp
    exact absurd hp.1 List.not_mem_nil
  | some q => rw [(hlast q hq).unique hp]

/-- An element goes between the lower and the higher ones. -/
theorem orderedInsert_eq {l₁ l₂ : List Nat} {c : Nat} (h₁ : ∀ d ∈ l₁, d < c)
    (h₂ : ∀ d ∈ l₂, c < d) : (l₁ ++ l₂).orderedInsert (· ≤ ·) c = l₁ ++ c :: l₂ := by
  have hlower : ∀ d ∈ l₁, decide (¬c ≤ d) = true := fun d hd => by simpa using h₁ d hd
  rw [List.orderedInsert_eq_take_drop, List.takeWhile_append_of_pos hlower,
    List.dropWhile_append_of_pos hlower]
  cases l₂ with
  | nil => simp
  | cons d l₂ =>
    have hd : c ≤ d := Nat.le_of_lt (h₂ d (by simp))
    simp [hd]

theorem pairwise_orderedInsert {l : List Nat} {c : Nat} (hl : l.Pairwise (· < ·)) (hc : c ∉ l) :
    (l.orderedInsert (· ≤ ·) c).Pairwise (· < ·) := by
  have hle : (l.orderedInsert (· ≤ ·) c).Pairwise (· ≤ ·) :=
    List.Pairwise.orderedInsert c l (hl.imp Nat.le_of_lt)
  have hnodup : (l.orderedInsert (· ≤ ·) c).Nodup :=
    (List.perm_orderedInsert _ c l).nodup_iff.mpr (List.nodup_cons.mpr ⟨hc, hl.nodup⟩)
  exact hle.imp₂ (fun _ _ => Nat.lt_of_le_of_ne) hnodup

/-- Behind the greatest of the lower elements there is the place of an element. -/
theorem orderedInsert_of_isGreatest {l : List Nat} {c p : Nat} (hl : l.Pairwise (· < ·))
    (hc : c ∉ l) (hp : IsGreatest {d | d ∈ l ∧ d < c} p) :
    ∃ l₁ l₂, l = l₁ ++ p :: l₂ ∧ l.orderedInsert (· ≤ ·) c = l₁ ++ p :: c :: l₂ := by
  obtain ⟨⟨hpl, hpc⟩, hgreatest⟩ := hp
  obtain ⟨l₁, l₂, rfl⟩ := List.append_of_mem hpl
  obtain ⟨-, hafter, hacross⟩ := List.pairwise_append.mp hl
  refine ⟨l₁, l₂, rfl, ?_⟩
  have hlower : ∀ d ∈ l₁ ++ [p], d < c := by
    intro d hd
    rcases List.mem_append.mp hd with hd | hd
    · exact Nat.lt_trans (hacross d hd p (by simp)) hpc
    · rwa [List.mem_singleton.mp hd]
  have hhigher : ∀ d ∈ l₂, c < d := by
    intro d hd
    have hmem : d ∈ l₁ ++ p :: l₂ := by simp [hd]
    have hpd : p < d := (List.pairwise_cons.mp hafter).1 d hd
    have hne : d ≠ c := by
      rintro rfl
      exact hc hmem
    by_contra hdc
    have : d ≤ p := hgreatest ⟨hmem, by omega⟩
    omega
  rw [List.append_cons l₁ p l₂, orderedInsert_eq hlower hhigher, List.append_assoc,
    List.singleton_append]

namespace Heap

variable {h h' : Heap G} {below l : List Nat} {c d p : Nat}

/-! ## The search -/

/-- The arena below `c` is cut into the chunks with the headers `below`. The overflow list is `l`; it
ascends, and has all those of them that are free and of the overflow class, but not `c`. -/
structure Unfiled (h : Heap G) (below : List Nat) (c : Nat) (l : List Nat) : Prop where
  paved : h.arena.Paved 0 below c
  leads : h.arena.Leads (h.head SizeClass.overflow) l
  ascending : l.Pairwise (· < ·)
  notMem : c ∉ l
  listed : ∀ d < c, d ∈ l ↔ d ∈ below ∧ h.isOverflowFree d = .ok true

namespace Unfiled

/-- The search ends at the last lower member of the list. -/
theorem overflowBelow_eq (U : h.Unfiled below c l) :
    h.overflowBelow c = .ok (l.filter (· < c)).getLast? := by
  have hmembers : below.filter (h.isOverflowFree · = .ok true) = l.filter (· < c) := by
    apply (U.paved.ascending.filter _).eq_of_mem_iff (U.ascending.filter _)
    intro d
    simp only [List.mem_filter, decide_eq_true_eq]
    constructor
    · rintro ⟨hd, hover⟩
      have hlt := U.paved.lt hd
      exact ⟨(U.listed d hlt).mpr ⟨hd, hover⟩, hlt⟩
    · rintro ⟨hd, hlt⟩
      exact (U.listed d hlt).mp hd
  rw [Heap.overflowBelow_eq U.paved, hmembers]
  -- the list begins with the lowest of its members
  intro d hd hover
  have hdl : d ∈ l := (U.listed d (U.paved.lt hd)).mpr ⟨hd, hover⟩
  have hleads := U.leads
  have hascending := U.ascending
  cases l with
  | nil => cases hdl
  | cons lowest l =>
    refine ⟨lowest, hleads.1, ?_⟩
    rcases List.mem_cons.mp hdl with rfl | hdl
    · exact Nat.le_refl _
    · exact Nat.le_of_lt ((List.pairwise_cons.mp hascending).1 d hdl)

/-- What the search ends with is what a scan of the list finds. -/
theorem search (U : h.Unfiled below c l) : ∃ r, h.overflowBelow c = .ok r ∧
    (∀ p, r = some p ↔ IsGreatest {d | d ∈ l ∧ d < c} p) ∧ (r = none ↔ ∀ d ∈ l, ¬d < c) := by
  refine ⟨_, U.overflowBelow_eq, fun p => ?_, ?_⟩
  · rw [getLast?_eq_some_iff_isGreatest (U.ascending.filter _)]
    simp only [List.mem_filter, decide_eq_true_eq]
  · rw [List.getLast?_eq_none_iff, List.filter_eq_nil_iff]
    simp only [decide_eq_true_eq]

/-! ## Filing -/

/-- A chunk of the overflow class enters the list at its place. -/
theorem enter (U : h.Unfiled below c l) (hs : h.arena.length < Word.limit)
    (S : h.Sequence SizeClass.overflow l) (hapart : h.arena.Apart (c :: l))
    (hclass : h.classAt c = .ok SizeClass.overflow) :
    ∃ h', (Heap.enter c).Runs h () h' ∧
      h'.Sequence SizeClass.overflow (l.orderedInsert (· ≤ ·) c) ∧
      h.Alters (h.arena.tags (c :: l)) ∅ ∅ h' ∧
      ∀ j ≠ SizeClass.overflow, h'.head j = h.head j := by
  obtain ⟨r, hr, hsome, hnone⟩ := U.search
  cases r with
  | none =>
    have hhigher : ∀ d ∈ l, c < d := by
      intro d hd
      have hle : ¬d < c := hnone.mp rfl d hd
      have hne : d ≠ c := by
        rintro rfl
        exact U.notMem hd
      omega
    obtain ⟨h', hrun, S', A, hheads⟩ := S.pushFront hs hclass hapart
    refine ⟨h', ?_, ?_, A, hheads⟩
    · apply Action.Runs.bind (Action.runs_read (by exact hclass))
      rw [if_pos rfl]
      apply Action.Runs.bind (Action.runs_read (by exact hr))
      exact hrun
    · have hlower : ∀ d ∈ ([] : List Nat), d < c := by simp
      rw [← List.nil_append l, orderedInsert_eq hlower hhigher]
      exact S'
  | some p =>
    have hp := (hsome p).mp rfl
    obtain ⟨l₁, l₂, rfl, hinsert⟩ := orderedInsert_of_isGreatest U.ascending U.notMem hp
    obtain ⟨h', hrun, S', A, hheads⟩ := S.insertAfter hs hclass hapart hp.1.2
    refine ⟨h', ?_, ?_, A, fun j _ => hheads j⟩
    · apply Action.Runs.bind (Action.runs_read (by exact hclass))
      rw [if_pos rfl]
      apply Action.Runs.bind (Action.runs_read (by exact hr))
      exact hrun
    · rw [hinsert]
      exact S'

/-- A chunk of the overflow class becomes free and enters the list at its place. -/
theorem file (U : h.Unfiled below c l) (hs : h.arena.length < Word.limit)
    (S : h.Sequence SizeClass.overflow l) (hapart : h.arena.Apart (c :: l))
    (hclass : h.classAt c = .ok SizeClass.overflow) :
    ∃ h', (Heap.file c).Runs h () h' ∧
      h'.Sequence SizeClass.overflow (l.orderedInsert (· ≤ ·) c) ∧
      h'.arena.isFree c = .ok true ∧ h.Alters (h.arena.tags (c :: l)) ∅ {c} h' ∧
      ∀ j ≠ SizeClass.overflow, h'.head j = h.head j := by
  have hsized := ((Arena.apart_iff hs).mp hapart).1 c (by simp)
  have hlt : c < h.arena.slots.size := hsized.index_lt
  let h₁ := h.withArena (h.arena.withStatus c .free)
  have A₁ : h.Alters ∅ ∅ {c} h₁ := Alters.of_arena (h.arena.alters_withStatus hlt .free)
  have hunits := A₁.arena.unitsAt_eq
  have S₁ : h₁.Sequence SizeClass.overflow l :=
    S.frame hs (hapart.sublist (List.sublist_cons_self c l)) A₁ rfl (by simp)
  have U₁ : h₁.Unfiled below c l := by
    refine ⟨U.paved.congr hunits, S₁.leads, U.ascending, U.notMem, fun d hd => ?_⟩
    have hne : d ∉ ({c} : Set Nat) := Nat.ne_of_lt hd
    rw [isOverflowFree_congr (A₁.arena.slot_eq (by simp) (by simp) hne) A₁.config]
    exact U.listed d hd
  have hclass₁ : h₁.classAt c = .ok SizeClass.overflow := by
    have hsized₁ : (h₁.arena.chunkOf c).SizedIn h₁.arena := by
      rw [Arena.chunkOf_congr hunits]
      exact hsized.congr hunits A₁.arena.size
    rw [classAt_eq_ok_iff hsized₁, Arena.chunkOf_congr hunits]
    exact (classAt_eq_ok_iff hsized).mp hclass
  have hs₁ : h₁.arena.length < Word.limit := by
    rw [A₁.arena.length_eq]
    exact hs
  obtain ⟨h', hrun, S', A, hheads⟩ := U₁.enter hs₁ S₁ (hapart.congr hunits A₁.arena.size) hclass₁
  rw [Arena.tags_congr hunits] at A
  refine ⟨h', ?_, S', ?_, ?_, hheads⟩
  · rw [file_eq]
    exact Action.Runs.bind (runs_onArena (Arena.runs_setStatus hlt .free)) hrun
  · have hword : h'.arena.wordAt c = some Status.free.word := by
      rw [A.arena.words c (by simp)]
      show (h.arena.withStatus c .free).wordAt c = _
      rw [Arena.wordAt_withStatus _ hlt, Function.update_self]
    simp [Arena.isFree, Arena.status_eq_of_wordAt hword, bind, Except.bind, pure, Except.pure]
  · exact (A₁.mono (by simp) (by simp) (Set.Subset.refl _)).trans
      (A.mono (Set.Subset.refl _) (by simp) (by simp))

/-! ## Both -/

/-- The search for the place of a chunk ends without a fault at the greatest member of the overflow
list below the chunk, and at none if and only if there is no such member. So the list, if it is
linked both ways, ascends again when the chunk is filed. -/
theorem placed_in_order (U : h.Unfiled below c l) :
    (∃ r, h.overflowBelow c = .ok r ∧ (∀ p, r = some p ↔ IsGreatest {d | d ∈ l ∧ d < c} p) ∧
      (r = none ↔ ∀ d ∈ l, ¬d < c)) ∧
    (h.arena.length < Word.limit → h.Sequence SizeClass.overflow l → h.arena.Apart (c :: l) →
      h.classAt c = .ok SizeClass.overflow →
      ∃ h', (Heap.file c).Runs h () h' ∧
        h'.Sequence SizeClass.overflow (l.orderedInsert (· ≤ ·) c) ∧
        (l.orderedInsert (· ≤ ·) c).Pairwise (· < ·) ∧ h'.arena.isFree c = .ok true ∧
        h.Alters (h.arena.tags (c :: l)) ∅ {c} h' ∧
        ∀ j ≠ SizeClass.overflow, h'.head j = h.head j) := by
  refine ⟨U.search, fun hs S hapart hclass => ?_⟩
  obtain ⟨h', hrun, S', hfree, A, hheads⟩ := U.file hs S hapart hclass
  exact ⟨h', hrun, S', pairwise_orderedInsert U.ascending U.notMem, hfree, A, hheads⟩

end Unfiled

/-- Three neighbours of eleven units; the outer two are free and in the overflow list. -/
def surrounded : Heap Unit where
  arena := {
    start := some 4096
    slots :=
      #[⟨26, 11, Status.free.word⟩] ++ Array.replicate 11 .zero ++ #[⟨Link.none, 11, 0⟩] ++
      #[⟨Link.none, 11, Status.inUse.word⟩] ++ Array.replicate 11 .zero ++ #[⟨Link.none, 11, 0⟩] ++
      #[⟨Link.none, 11, Status.free.word⟩] ++ Array.replicate 11 .zero ++ #[⟨0, 11, 0⟩]
    grower := ()
    unmapped := nofun }
  config := Session.smallBins
  heads := #v[none, none, none, none, none, none, none, none, none, none, some 0]

theorem unfiled_surrounded : surrounded.Unfiled [0] 13 [0, 26] where
  paved := ⟨rfl, 11, rfl, rfl, rfl⟩
  leads := ⟨rfl, _, rfl, rfl, _, rfl, rfl⟩
  ascending := by decide
  notMem := by decide
  listed := by decide

theorem placed_in_order_surrounded : surrounded.Unfiled [0] 13 [0, 26] ∧
    surrounded.overflowBelow 13 = .ok (some 0) ∧
    ∃ h', (file 13).Runs surrounded () h' ∧
      h'.Sequence SizeClass.overflow [0, 13, 26] ∧ h'.arena.isFree 13 = .ok true := by
  have hs : surrounded.arena.length < Word.limit := by decide
  have hsequence : surrounded.Sequence SizeClass.overflow [0, 26] :=
    ⟨unfiled_surrounded.leads, ⟨rfl, rfl, trivial⟩, by decide⟩
  have hapart : surrounded.arena.Apart [13, 0, 26] := by
    refine (Arena.apart_iff hs).mpr ⟨?_, by decide⟩
    simp only [List.mem_cons, List.not_mem_nil, or_false]
    rintro c (rfl | rfl | rfl) <;> exact ⟨rfl, by decide⟩
  have hgreatest : IsGreatest {d | d ∈ [0, 26] ∧ d < 13} 0 := by
    refine ⟨by decide, fun d hd => ?_⟩
    have hmem : d = 0 ∨ d = 26 := by simpa using hd.1
    have := hd.2
    omega
  obtain ⟨⟨r, hr, hsome, -⟩, hfile⟩ := unfiled_surrounded.placed_in_order
  obtain ⟨h', hrun, S, -, hfree, -⟩ := hfile hs hsequence hapart rfl
  exact ⟨unfiled_surrounded, by rw [hr, (hsome 0).mpr hgreatest], h', hrun, S, hfree⟩

end Heap

end BoundaryTag
