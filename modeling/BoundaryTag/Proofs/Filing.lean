import BoundaryTag.Proofs.Filed
import BoundaryTag.Proofs.Paving
import BoundaryTag.Proofs.Tagging

/-!
# Filing a chunk

The place of a chunk in the overflow list is searched in the arena: below the
chunk the arena is tiled, and the nearest free chunk of the overflow class is the
last member of the list that lies below. Above the chunk nothing is assumed but
the order, since a chunk that was just shrunk leaves a gap there.

Results:

* `overflowBelow_eq`: the search ends at the last free chunk of the overflow class
  below, and `Holds.overflowBelow_eq`: that is the last lower member of the list.
* `Holds.file`: filing succeeds and inserts the chunk into the lists.
-/

namespace BoundaryTag

variable {G : Type} {a : Arena G} {pre post l : List Chunk} {c : Chunk} {i j : Nat}

/-! ## Neighbours in a tiling -/

/-- Chunks that fill a run of slots and whose tags stand there pave it. -/
theorem Tiles.paved (h : Tiles i l j) (ht : ∀ c ∈ l, c.TaggedIn a) :
    a.Paved i (l.map Chunk.index) j := by
  induction l generalizing i with
  | nil => exact h
  | cons c l ih =>
    obtain ⟨hi, -, h⟩ := h
    have hc := ht c (by simp)
    exact ⟨hi, c.units, hc.units_eq, Arena.units_eq_of_unitsAt hc.footer,
      ih h fun d hd => ht d (by simp [hd])⟩

/-- The step down from a slot leads to the last chunk below it. -/
theorem Tiles.prevAdjacent_eq (h : Tiles 0 pre i) (ht : ∀ d ∈ pre, d.TaggedIn a) :
    a.prevAdjacent i = .ok (pre.getLast?.map Chunk.index) := by
  rw [(h.paved ht).prevAdjacent_eq, List.getLast?_map]

/-- The step up from a chunk leads to the first chunk above it. -/
theorem Tiles.nextAdjacent_eq (h : Tiles c.stop post a.slots.size) (hc : c.TaggedIn a)
    (hs : a.slots.size ≤ maxUnits) :
    a.nextAdjacent c.index = .ok (post.head?.map Chunk.index) := by
  rw [hc.nextAdjacent_eq hs]
  cases post with
  | nil => rw [if_neg (by rw [show c.stop = a.slots.size from h]; omega)]; rfl
  | cons d post =>
    obtain ⟨hd, -, hrest⟩ := h
    have := hrest.le
    have := d.index_lt_stop
    rw [if_pos (by omega), ← hd]
    rfl

theorem Ascending.pairwise_index (h : Ascending l) : l.Pairwise fun c d => c.index < d.index :=
  h.imp fun {c _} hcd => Nat.lt_of_lt_of_le c.index_lt_stop hcd

namespace Heap

variable {h : Heap G} {chunks : List Chunk} {lists : FreeLists}

/-! ## The search -/

/-- One step of the search. -/
theorem overflowFrom_step {lowest p : Nat} {below : Option Nat} {found : Bool}
    (hbelow : h.arena.prevAdjacent p = .ok below) (hfound : h.isOverflowFree p = .ok found) :
    h.overflowFrom lowest p =
      if p < lowest then .ok none
      else if found then .ok (some p)
      else below.elim (.ok none) (h.overflowFrom lowest) := by
  rw [overflowFrom]
  split
  · rename_i e he
    rw [hbelow] at he
    cases he
  · rename_i below' he
    rw [hbelow] at he
    cases he
    split_ifs with hlt hf
    · rfl
    · simp [hfound, hf, bind, Except.bind, pure, Except.pure]
    · simp only [hfound, hf, bind, Except.bind]
      cases below <;> rfl

/-- A header can be asked whether its chunk is free and of the overflow class. -/
theorem exists_isOverflowFree {n : Nat} (hn : h.arena.units i = .ok n) :
    ∃ found, h.isOverflowFree i = .ok found := by
  have hlt : i < h.arena.slots.size := Arena.lt_of_units hn
  simp only [isOverflowFree, Arena.isFree, Arena.status, classAt, Arena.slot_eq_ok hlt, hn, bind,
    Except.bind, pure, Except.pure]
  split
  · exact ⟨_, rfl⟩
  · exact ⟨_, rfl⟩

/-- The question is answered by the slot of the header. -/
theorem isOverflowFree_congr {h' : Heap G} (hslot : h'.arena.slot i = h.arena.slot i)
    (hconfig : h'.config = h.config) : h'.isOverflowFree i = h.isOverflowFree i := by
  simp only [isOverflowFree, Arena.isFree, Arena.status, classAt, Arena.units, hslot, hconfig]

/-- The search down a paved run from its last header ends at the last one whose chunk is free and of
the overflow class. -/
theorem search_eq {lowest : Nat} {below : List Nat} (P : h.arena.Paved 0 below i)
    (hlow : ∀ d ∈ below, h.isOverflowFree d = .ok true → lowest ≤ d) :
    below.getLast?.elim (.ok none) (h.overflowFrom lowest) =
      .ok (below.filter (h.isOverflowFree · = .ok true)).getLast? := by
  induction below using List.reverseRecOn generalizing i with
  | nil => rfl
  | append_singleton below p ih =>
    obtain ⟨_, hbelow, rfl, n, hn, -, -⟩ := Arena.paved_append.mp P
    have hrest : ∀ d ∈ below, h.isOverflowFree d = .ok true → lowest ≤ d := fun d hd =>
      hlow d (List.mem_append_left _ hd)
    obtain ⟨found, hfound⟩ := exists_isOverflowFree hn
    rw [List.getLast?_concat, List.filter_append]
    show h.overflowFrom lowest p = _
    rw [overflowFrom_step hbelow.prevAdjacent_eq hfound]
    split_ifs with hlt hf
    · -- all that is left lies below the list
      have hnone : ∀ d ∈ below ++ [p], h.isOverflowFree d ≠ .ok true := by
        intro d hd hover
        have hle := hlow d hd hover
        rcases List.mem_append.mp hd with hd | hd
        · have := hbelow.lt hd
          omega
        · rw [List.mem_singleton.mp hd] at hle
          omega
      rw [← List.filter_append, List.filter_eq_nil_iff.mpr (by simpa using hnone)]
      rfl
    · subst hf
      simp [hfound]
    · rw [ih hbelow hrest]
      simp [hfound, hf]

/-- The search for the place of a chunk ends at the last lower chunk that is free and of the overflow
class, if the list begins no higher. -/
theorem overflowBelow_eq {below : List Nat} (P : h.arena.Paved 0 below i)
    (hlow : ∀ d ∈ below, h.isOverflowFree d = .ok true →
      ∃ lowest ∈ h.head SizeClass.overflow, lowest ≤ d) :
    h.overflowBelow i = .ok (below.filter (h.isOverflowFree · = .ok true)).getLast? := by
  unfold overflowBelow
  cases hhead : h.head SizeClass.overflow with
  | none =>
    rw [hhead] at hlow
    have hnil : below.filter (h.isOverflowFree · = .ok true) = [] := by
      simpa using hlow
    rw [hnil]
    rfl
  | some lowest =>
    rw [hhead] at hlow
    rw [← search_eq P fun d hd hover => by simpa using hlow d hd hover]
    simp only [P.prevAdjacent_eq, bind, Except.bind]
    cases below.getLast? <;> rfl

namespace Holds

theorem isOverflowFree_eq (H : h.Holds chunks lists) (hc : c ∈ chunks) :
    h.isOverflowFree c.index =
      .ok (decide (c.isFree ∧ h.config.classOf c.units = SizeClass.overflow)) := by
  unfold isOverflowFree
  rw [(H.tagged c hc).isFree_eq]
  cases hfree : c.isFree
  · simp [bind, Except.bind, pure, Except.pure]
  · simp [H.classAt_eq hc, bind, Except.bind, pure, Except.pure]

/-- The search for the place of a chunk ends at the last lower member of the overflow list. -/
theorem overflowBelow_eq (H : h.Holds (pre ++ c :: post) lists)
    (F : Filed h.config (pre ++ post) lists) (htiles : Tiles 0 pre c.index)
    (hasc : Ascending (pre ++ post)) :
    h.overflowBelow c.index =
      .ok ((h.config.members SizeClass.overflow pre).getLast?.map Chunk.index) := by
  have hpre : ∀ d ∈ pre, d ∈ pre ++ c :: post := fun d hd => List.mem_append_left _ hd
  have hmembers : (pre.map Chunk.index).filter (h.isOverflowFree · = .ok true) =
      (h.config.members SizeClass.overflow pre).map Chunk.index := by
    rw [List.filter_map]
    congr 1
    refine List.filter_congr fun d hd => ?_
    simp [H.isOverflowFree_eq (hpre d hd), Chunk.isFree]
  rw [Heap.overflowBelow_eq (htiles.paved fun d hd => H.tagged d (hpre d hd)), hmembers,
    List.getLast?_map]
  intro i hi hover
  obtain ⟨d, hd, rfl⟩ : ∃ d ∈ h.config.members SizeClass.overflow pre, d.index = i :=
    List.mem_map.mp (hmembers ▸ List.mem_filter.mpr ⟨hi, decide_eq_true hover⟩)
  -- the list begins with the lowest of the members
  have hlist : d ∈ lists SizeClass.overflow := by
    rw [F.ordered, Config.members_append]
    exact List.mem_append_left _ hd
  have hpairs : (lists SizeClass.overflow).Pairwise fun c d => c.index < d.index := by
    rw [F.ordered]
    exact hasc.pairwise_index.filter _
  have hhead := H.heads SizeClass.overflow
  rw [entry_eq_head?] at hhead
  cases hl : lists SizeClass.overflow with
  | nil =>
    rw [hl] at hlist
    cases hlist
  | cons m rest =>
    rw [hl] at hhead hpairs hlist
    refine ⟨m.index, hhead, ?_⟩
    rcases List.mem_cons.mp hlist with rfl | hd
    · exact Nat.le_refl _
    · exact Nat.le_of_lt ((List.pairwise_cons.mp hpairs).1 d hd)

end Holds

/-! ## Filing -/

/-- Puts the free chunk `c` into the list of its class. -/
def enter (c : Nat) : Action (Heap G) Unit := do
  let k ← Action.read (·.classAt c)
  if k = SizeClass.overflow then
    match ← Action.read (·.overflowBelow c) with
    | some pred => insertAfter pred c
    | none => pushFront c
  else pushFront c

theorem file_eq (c : Nat) : (file c : Action (Heap G) Unit) = (do
    onArena (Arena.setStatus c .free)
    enter c) := rfl

namespace Holds

/-- A free chunk in no list enters the list of its class. -/
theorem enter (H : h.Holds (pre ++ c :: post) lists) (F : Filed h.config (pre ++ post) lists)
    (hfree : c.isFree) (htiles : Tiles 0 pre c.index) (hasc : Ascending (pre ++ c :: post)) :
    ∃ h', (Heap.enter c.index).Runs h () h' ∧
      h'.Holds (pre ++ c :: post) (lists.insert h.config pre c post) ∧
      h.Alters {i | i ∈ tagSlots (c :: lists (h.config.classOf c.units))} ∅ ∅ h' := by
  have hnew : ∀ k, c ∉ lists k := F.notMem fun hc => nodup_middle H.apart hc.1
  have hmem : c ∈ pre ++ c :: post := by simp
  have hclass := H.classAt_eq hmem
  unfold Heap.enter FreeLists.insert
  by_cases hover : h.config.classOf c.units = SizeClass.overflow
  · have hsub : (pre ++ post).Sublist (pre ++ c :: post) :=
      (List.sublist_cons_self c post).append_left pre
    have hbelow := H.overflowBelow_eq F htiles (hasc.sublist hsub)
    have hlist : lists SizeClass.overflow =
        h.config.members SizeClass.overflow pre ++ h.config.members SizeClass.overflow post := by
      rw [F.ordered, Config.members_append]
    rw [hover] at hclass ⊢
    rw [if_pos rfl, Config.members_middle_self hfree hover]
    rcases List.eq_nil_or_concat' (h.config.members SizeClass.overflow pre) with hnil | ⟨l, p, hl⟩
    · obtain ⟨h', hrun, H', A⟩ := H.pushFront hmem hfree hover (hnew _)
      rw [hlist, hnil, List.nil_append] at H'
      refine ⟨h', ?_, by rw [hnil]; exact H', A⟩
      apply Action.Runs.bind (Action.runs_read (by exact hclass))
      apply Action.Runs.bind (Action.runs_read (by exact hbelow))
      rw [hnil]
      exact hrun
    · have hmemp : p ∈ h.config.members SizeClass.overflow pre := by rw [hl]; simp
      have hp : p ∈ pre := (Config.mem_members.mp hmemp).1
      have hlt : p.index < c.index := Nat.lt_of_lt_of_le p.index_lt_stop (htiles.bounds hp).2.1
      have hsplit : lists SizeClass.overflow =
          l ++ p :: h.config.members SizeClass.overflow post := by
        rw [hlist, hl, List.append_assoc, List.singleton_append]
      obtain ⟨h', hrun, H', A⟩ := H.insertAfter hmem hfree hover hsplit (hnew _) hlt
      refine ⟨h', ?_, ?_, A⟩
      · apply Action.Runs.bind (Action.runs_read (by exact hclass))
        apply Action.Runs.bind (Action.runs_read (by exact hbelow))
        rw [hl, List.getLast?_concat]
        exact hrun
      · rw [hl, List.append_assoc, List.singleton_append]
        exact H'
  · obtain ⟨h', hrun, H', A⟩ := H.pushFront hmem hfree rfl (hnew _)
    refine ⟨h', ?_, by rw [if_neg hover]; exact H', A⟩
    apply Action.Runs.bind (Action.runs_read (by exact hclass))
    rw [if_neg hover]
    exact hrun

/-- A chunk in no list becomes free and enters the list of its class. -/
theorem file (H : h.Holds (pre ++ c :: post) lists) (F : Filed h.config (pre ++ post) lists)
    (htiles : Tiles 0 pre c.index) (hasc : Ascending (pre ++ c :: post)) :
    ∃ h', (Heap.file c.index).Runs h () h' ∧
      h'.Holds (pre ++ c.withStatus .free :: post)
        (lists.insert h.config pre (c.withStatus .free) post) ∧
      h.Alters {i | i ∈ tagSlots (c :: lists (h.config.classOf c.units))} ∅ {c.index} h' := by
  have hunlisted : ∀ k, c ∉ lists k := F.notMem fun hc => nodup_middle H.apart hc.1
  obtain ⟨h₁, hrun₁, H₁, A₁⟩ := H.setStatus hunlisted .free
  have F₁ : Filed h₁.config (pre ++ post) lists := by rw [A₁.config]; exact F
  have hasc₁ : Ascending (pre ++ c.withStatus .free :: post) := by
    simpa [Ascending, List.pairwise_append] using hasc
  obtain ⟨h₂, hrun₂, H₂, A₂⟩ := H₁.enter F₁ (by simp) htiles hasc₁
  rw [A₁.config] at H₂ A₂
  refine ⟨h₂, ?_, H₂, ?_⟩
  · rw [file_eq]
    exact Action.Runs.bind hrun₁ hrun₂
  · exact (A₁.mono (by simp) (by simp) (Set.Subset.refl _)).trans
      (A₂.mono (Set.Subset.refl _) (by simp) (by simp))

end Holds

end Heap

end BoundaryTag
