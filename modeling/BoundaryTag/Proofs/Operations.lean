import BoundaryTag.Proofs.Totals

/-!
# Allocation and release

On a well-formed heap both operations end without a fault, under every answer of
the grower, and leave a well-formed heap. An allocation adds one chunk to those
in use, or leaves the memory as it was; a release takes one away. All other
chunks in use keep their slots, tags and data alike.

Results:

* `WellFormed.exists_outcome`: the ways in which an allocation ends.
* `WellFormed.allocate`, `WellFormed.release`: the two operations.
-/

namespace BoundaryTag

variable {G : Type} {chunks chunks' pre post : List Chunk} {lists lists' : FreeLists}
  {c d : Chunk} {f : Focus} {n i j : Nat}

/-! ## Slots of chunks in use -/

/-- The slots that chunks in use cover. -/
def usedSlots (chunks : List Chunk) : Set Nat :=
  {i | ∃ c ∈ used chunks, c.index ≤ i ∧ i < c.stop}

theorem usedSlots_mono (h : ∀ c ∈ used chunks, c ∈ used chunks') :
    usedSlots chunks ⊆ usedSlots chunks' := fun _ ⟨c, hc, hi⟩ => ⟨c, h c hc, hi⟩

/-- A slot does not belong to a free chunk and to a chunk in use. -/
theorem notMem_freeSlots (h : Ascending chunks) (hi : i ∈ usedSlots chunks) :
    i ∉ freeSlots chunks := by
  obtain ⟨c, hc, hic⟩ := hi
  obtain ⟨hc, hused⟩ := mem_used.mp hc
  rintro ⟨d, hd, hfree, hid⟩
  obtain rfl := h.eq_of_overlap hc hd hic hid
  rw [Chunk.isFree_iff, hused] at hfree
  cases hfree

theorem usedSlots_lt (h : Tiles 0 chunks j) (hi : i ∈ usedSlots chunks) : i < j := by
  obtain ⟨c, hc, hic⟩ := hi
  have := (h.bounds (mem_used.mp hc).1).2.1
  omega

namespace Heap

variable {h h' : Heap G}

/-! ## Blocks -/

/-- The units that `size` bytes take. -/
def unitsFor (size : Nat) : Nat := (size + 15) / 16

/-- Some chunk can have the units that `size` bytes take. -/
def Holdable (size : Nat) : Prop := size + 15 < Word.limit ∧ unitsFor size ≤ maxUnits - 2

theorem blockUnits?_eq (size : Nat) : blockUnits? size =
    .ok (if size + 15 < Word.limit ∧ unitsFor size ≤ maxUnits - 2 then some (unitsFor size)
      else none) := by
  have hpadding : Word.sub unitBytes 1 = .ok 15 := rfl
  unfold blockUnits? sizeToUnits
  rw [hpadding]
  simp only [bind, Except.bind, pure, Except.pure]
  by_cases hsize : size + 15 < Word.limit
  · simp only [hsize, if_true, true_and, Option.filter, decide_eq_true_eq]
    rfl
  · simp only [hsize, if_false, false_and, Option.filter]

theorem unitsFor_pos {size : Nat} (h : size ≠ 0) : 1 ≤ unitsFor size := by
  unfold unitsFor
  omega

end Heap

namespace Arena

variable {a b : Arena G} {base : Nat}

/-- The address of the data of a chunk. -/
def blockAddress (a : Arena G) (c : Chunk) : Nat := a.start.getD 0 + unitBytes * (c.index + 1)

theorem blockAddress_eq (hbase : base ∈ a.start) (c : Chunk) :
    a.blockAddress c = base + unitBytes * (c.index + 1) := by
  unfold blockAddress
  rw [hbase]
  rfl

theorem blockAddress_congr (h : b.start = a.start) : b.blockAddress = a.blockAddress := by
  unfold blockAddress
  rw [h]

end Arena

namespace Focus

variable {config : Config}

/-- The chunks around a reclaimed one are as before. -/
theorem sublist_reclaimed : (f.reclaimed config).below.Sublist f.below ∧
    (f.reclaimed config).above.Sublist f.above := by
  have habove : ((f.freed config).joinAbove config).above.Sublist f.above := by
    unfold joinAbove freed
    cases habove : f.above with
    | nil => exact List.Sublist.refl _
    | cons d rest =>
      simp only
      split
      · exact List.sublist_cons_self _ _
      · exact List.Sublist.refl _
  have hbelow : (f.reclaimed config).below.Sublist ((f.freed config).joinAbove config).below := by
    unfold reclaimed joinBelow
    split
    · exact List.Sublist.refl _
    · split
      · exact List.dropLast_sublist _
      · exact List.Sublist.refl _
  rw [below_joinAbove] at hbelow
  refine ⟨hbelow, ?_⟩
  rw [reclaimed, above_joinBelow]
  exact habove

end Focus

namespace Heap

variable {h h' : Heap G}

/-! ## Outcomes -/

/-- How an allocation of `size` bytes on a heap of these chunks and lists ends. -/
inductive Outcome [Grower G] (h : Heap G) (chunks : List Chunk) (lists : FreeLists) (size : Nat) :
    Except AllocError Nat → Heap G → Prop where
  | zero (hzero : size = 0) : Outcome h chunks lists size (.error .zeroSize) h
  | tooLarge (hpos : size ≠ 0) (hbig : ¬Holdable size) :
    Outcome h chunks lists size (.error (.tooLarge size)) h
  /-- No free chunk is large enough, and the arena does not grow. -/
  | outOfMemory {e : GrowError} (hpos : size ≠ 0) (hsize : Holdable size)
    (hnone : h.config.choice lists (unitsFor size) = none)
    (hgrowth : h.arena.growth (h.growthUnits (unitsFor size)) = .error e) :
    Outcome h chunks lists size (.error (.outOfMemory e)) (h.withArena (h.arena.withGrower
      (Grower.after h.arena.grower (h.arena.asked (h.growthUnits (unitsFor size))))))
  /-- The chunk of `f` is found. -/
  | found {f : Focus} {h' : Heap G} (hpos : size ≠ 0) (hsize : Holdable size)
    (hchunks : f.chunks = chunks) (hlists : f.lists = lists)
    (hfound : h.config.choice lists (unitsFor size) = some f.chunk)
    (W : h'.WellFormed (f.taken h.config (unitsFor size)).chunks
      (f.taken h.config (unitsFor size)).lists)
    (hwithin : h.Within (freeSlots chunks) h') :
    Outcome h chunks lists size
      (.ok (h.arena.blockAddress (f.taken h.config (unitsFor size)).chunk)) h'
  /-- Growth leaves the heap `h₁`, where the chunk of `f` is found. -/
  | grown {f : Focus} {h₁ h' : Heap G} {base : Nat} (hpos : size ≠ 0) (hsize : Holdable size)
    (hnone : h.config.choice lists (unitsFor size) = none)
    (hgrowth : h.arena.growth (h.growthUnits (unitsFor size)) = .ok base)
    (hf : f = (h.grownFocus chunks lists (h.growthUnits (unitsFor size))).reclaimed h.config)
    (W₁ : h₁.WellFormed f.chunks f.lists) (K : h.Keeps (usedSlots chunks) h₁)
    (hfound : h₁.config.choice f.lists (unitsFor size) = some f.chunk)
    (hlength : h₁.arena.slots.size = h.arena.slots.size + h.growthUnits (unitsFor size) + 2)
    (hstart : h₁.arena.start = some base)
    (hgrower : h₁.arena.grower =
      Grower.after h.arena.grower (h.arena.asked (h.growthUnits (unitsFor size))))
    (W : h'.WellFormed (f.taken h₁.config (unitsFor size)).chunks
      (f.taken h₁.config (unitsFor size)).lists)
    (hwithin : h₁.Within (freeSlots f.chunks) h') :
    Outcome h chunks lists size
      (.ok (h₁.arena.blockAddress (f.taken h₁.config (unitsFor size)).chunk)) h'

/-! ## Free chunks -/

namespace WellFormed

/-- The memory of a well-formed heap does not depend on its grower. -/
theorem sameMemory {b : Arena G} (W : h.WellFormed chunks lists) (hb : h.arena.SameMemory b) :
    (h.withArena b).WellFormed chunks lists :=
  of_consistent (W.consistent.sameMemory hb) W.settled
    (W.placed.congr hb.start (by rw [arena_withArena, hb.slots]))

/-- An operation that writes to free chunks keeps the chunks in use. -/
theorem keeps_of_within (W : h.WellFormed chunks lists) (hwithin : h.Within (freeSlots chunks) h') :
    h.Keeps (usedSlots chunks) h' :=
  Keeps.of_within hwithin fun _ hi => notMem_freeSlots W.tiles.ascending hi

/-- A free chunk is handed out. -/
theorem take (W : h.WellFormed f.chunks f.lists) (hfree : f.chunk.isFree) (hn : 1 ≤ n)
    (hle : n ≤ f.chunk.units) :
    ∃ h', (Heap.take f.chunk.index n).Runs h (f.taken h.config n).chunk.index h' ∧
      h'.WellFormed (f.taken h.config n).chunks (f.taken h.config n).lists ∧
      h.Within (freeSlots f.chunks) h' := by
  obtain ⟨h', hrun, C, hwithin⟩ := W.consistent.take hfree hn hle
  refine ⟨h', hrun, ?_, hwithin⟩
  exact of_consistent C (Focus.settled_taken W.settled)
    (W.placed.congr hwithin.arena.start hwithin.size)

/-- A chunk in use becomes free. -/
theorem reclaim (W : h.WellFormed f.chunks f.lists) (hused : f.chunk.status = .inUse) :
    ∃ h', (Heap.reclaim f.chunk.index).Runs h (f.reclaimed h.config).chunk.index h' ∧
      h'.WellFormed (f.reclaimed h.config).chunks (f.reclaimed h.config).lists ∧
      h.Within (freeSlots (f.freed h.config).chunks) h' := by
  obtain ⟨h', hrun, C, hwithin⟩ := W.consistent.reclaim hused
  obtain ⟨hbelow, habove, -, -⟩ := settled_middle.mp W.settled
  refine ⟨h', hrun, ?_, hwithin⟩
  exact of_consistent C (Focus.settled_reclaimed hbelow habove)
    (W.placed.congr hwithin.arena.start hwithin.size)

/-- A release writes to free chunks and to the one released, and keeps the others. -/
theorem keeps_of_reclaim (W : h.WellFormed f.chunks f.lists)
    (hwithin : h.Within (freeSlots (f.freed h.config).chunks) h') :
    h.Keeps (usedSlots (f.reclaimed h.config).chunks) h' := by
  refine Keeps.of_within hwithin ?_
  intro i hi
  have hused : used (f.freed h.config).chunks = used (f.reclaimed h.config).chunks := by
    rw [Focus.used_reclaimed, Focus.chunks, used_append]
    exact congrArg _ (used_cons_of_free rfl _)
  have hasc : Ascending (f.freed h.config).chunks :=
    W.tiles.ascending.shorten rfl (Nat.le_refl _)
  exact notMem_freeSlots hasc (usedSlots_mono (fun c hc => hused ▸ hc) hi)

/-! ## Search and growth -/

section Obtain

variable [Grower G]

theorem obtain_found (W : h.WellFormed f.chunks f.lists)
    (hfound : h.config.choice f.lists n = some f.chunk) :
    (Heap.obtain n).Runs h (.ok f.chunk.index) h := by
  have hfit := W.firstFit_eq n
  rw [hfound] at hfit
  exact Action.Runs.bind (Action.runs_read (by exact hfit)) (Action.runs_pure _ _)

theorem obtain_error (W : h.WellFormed chunks lists) (hnone : h.config.choice lists n = none)
    {e : GrowError} (he : h.arena.growth (h.growthUnits n) = .error e) :
    (Heap.obtain n).Runs h (.error e) (h.withArena (h.arena.withGrower
      (Grower.after h.arena.grower (h.arena.asked (h.growthUnits n))))) := by
  have hfit := W.firstFit_eq n
  rw [hnone] at hfit
  apply Action.Runs.bind (Action.runs_read (by exact hfit))
  exact runs_grow_error W.placed he

omit [Grower G] in
/-- The chunk that growth leaves is the only free one that is large enough. -/
theorem choice_grown (W : h.WellFormed chunks lists) (hnone : h.config.choice lists n = none)
    (hf : f = (h.grownFocus chunks lists (h.growthUnits n)).reclaimed h.config)
    (F : Filed h.config f.chunks f.lists) : h.config.choice f.lists n = some f.chunk := by
  subst hf
  have hsmall := (choice_eq_none_iff W.filed).mp hnone
  have hunits := @Focus.units_reclaimed h.config (h.grownFocus chunks lists (h.growthUnits n))
  obtain ⟨hbelow, habove⟩ := @Focus.sublist_reclaimed
    (h.grownFocus chunks lists (h.growthUnits n)) h.config
  refine choice_of_unique F (by simp [Focus.chunks]) Focus.isFree_reclaimed ?_ ?_
  · exact Nat.le_trans (Nat.le_max_left n h.config.minGrowth) hunits
  · intro d hd hfree hle
    rcases List.mem_append.mp hd with hd | hd
    · have := hsmall d (hbelow.subset hd) hfree
      omega
    · rcases List.mem_cons.mp hd with rfl | hd
      · rfl
      · cases habove.subset hd

theorem obtain_grown (W : h.WellFormed chunks lists) (hnone : h.config.choice lists n = none)
    {base : Nat} (hbase : h.arena.growth (h.growthUnits n) = .ok base)
    (hf : f = (h.grownFocus chunks lists (h.growthUnits n)).reclaimed h.config) :
    ∃ h', (Heap.obtain n).Runs h (.ok f.chunk.index) h' ∧ h'.WellFormed f.chunks f.lists ∧
      h'.config.choice f.lists n = some f.chunk ∧ h.Keeps (usedSlots chunks) h' ∧
      h'.arena.slots.size = h.arena.slots.size + h.growthUnits n + 2 ∧
      h'.arena.start = some base ∧
      h'.arena.grower = Grower.after h.arena.grower (h.arena.asked (h.growthUnits n)) := by
  have hfit := W.firstFit_eq n
  rw [hnone] at hfit
  obtain ⟨h', hrun, C, hp, K, hlength, hstart, hgrower⟩ := W.consistent.grow W.placed hbase hf
  have hsettled : Settled f.chunks := by
    rw [hf]
    exact Focus.settled_reclaimed W.settled List.IsChain.nil
  refine ⟨h', Action.Runs.bind (Action.runs_read (by exact hfit)) ?_, of_consistent C hsettled hp,
    ?_, ?_, hlength, hstart, hgrower⟩
  · exact hrun
  · rw [K.config]
    exact W.choice_grown hnone hf (K.config ▸ C.filed)
  · exact K.mono fun i hi => ⟨usedSlots_lt W.tiles hi, notMem_freeSlots W.tiles.ascending hi⟩

end Obtain

/-! ## Addresses -/

/-- A chunk of the arena has an address. -/
theorem dataAddress_eq (W : h.WellFormed chunks lists) (hc : c ∈ chunks) :
    ∃ base ∈ h.arena.start,
      h.arena.dataAddress c.index = .ok (base + unitBytes * (c.index + 1)) := by
  have hlt := (W.tagged c hc).index_lt
  obtain ⟨base, hbase⟩ := Option.isSome_iff_exists.mp (Arena.isSome_start hlt)
  exact ⟨base, hbase, Arena.dataAddress_eq hbase hlt⟩

/-- The chunk of the address of a chunk. -/
theorem chunkAt_eq (W : h.WellFormed chunks lists) (hc : c ∈ chunks) {base : Nat}
    (hbase : base ∈ h.arena.start) :
    h.arena.chunkAt (base + unitBytes * (c.index + 1)) = .ok c.index := by
  have hstop := W.placed.stop_lt base hbase
  have hsize := (W.tagged c hc).footer_lt
  have hfooter := c.index_lt_footer
  unfold unitBytes at *
  exact Arena.chunkAt_eq_ok_iff.mpr ⟨Arena.offsetOf_eq hbase (by omega), by omega⟩

/-! ## Allocation -/

section Allocate

variable [Grower G] {size : Nat}

theorem allocate_zero (h : Heap G) : (Heap.allocate 0).Runs h (.error .zeroSize) h := by
  unfold Heap.allocate
  rw [if_pos rfl]
  exact Action.runs_pure _ _

theorem allocate_tooLarge (h : Heap G) (hpos : size ≠ 0) (hbig : ¬Holdable size) :
    (Heap.allocate size).Runs h (.error (.tooLarge size)) h := by
  have hblock := blockUnits?_eq size
  rw [if_neg (by exact hbig)] at hblock
  unfold Heap.allocate
  rw [if_neg hpos]
  exact Action.Runs.bind (Action.runs_ofExcept hblock _) (Action.runs_pure _ _)

/-- An allocation fails with the growth that it needs. -/
theorem allocate_error (W : h.WellFormed chunks lists) (hpos : size ≠ 0) (hsize : Holdable size)
    (hnone : h.config.choice lists (unitsFor size) = none) {e : GrowError}
    (he : h.arena.growth (h.growthUnits (unitsFor size)) = .error e) :
    (Heap.allocate size).Runs h (.error (.outOfMemory e)) (h.withArena (h.arena.withGrower
      (Grower.after h.arena.grower (h.arena.asked (h.growthUnits (unitsFor size)))))) := by
  have hblock := blockUnits?_eq size
  rw [if_pos (by exact hsize)] at hblock
  unfold Heap.allocate
  rw [if_neg hpos]
  apply Action.Runs.bind (Action.runs_ofExcept hblock _)
  apply Action.Runs.bind (W.obtain_error hnone he)
  exact Action.Runs.bind (Action.runs_record _ _) (Action.runs_pure _ _)

/-- An allocation hands out the chunk that it has obtained, whole or in part. -/
theorem allocate_of_obtain (hpos : size ≠ 0) (hsize : Holdable size)
    (hrun : (Heap.obtain (unitsFor size)).Runs h (.ok f.chunk.index) h')
    (W : h'.WellFormed f.chunks f.lists)
    (hfound : h'.config.choice f.lists (unitsFor size) = some f.chunk) :
    ∃ h'', (Heap.allocate size).Runs h
        (.ok (h'.arena.blockAddress (f.taken h'.config (unitsFor size)).chunk)) h'' ∧
      h''.WellFormed (f.taken h'.config (unitsFor size)).chunks
        (f.taken h'.config (unitsFor size)).lists ∧
      h'.Within (freeSlots f.chunks) h'' := by
  have hblock := blockUnits?_eq size
  rw [if_pos (by exact hsize)] at hblock
  obtain ⟨-, hfree, hle⟩ := mem_of_choice W.filed hfound
  obtain ⟨h'', hrun', W', hwithin⟩ := W.take hfree (unitsFor_pos hpos) hle
  obtain ⟨base, hbase, haddress⟩ := W'.dataAddress_eq
    (c := (f.taken h'.config (unitsFor size)).chunk) (by simp [Focus.chunks])
  rw [← Arena.blockAddress_eq hbase, Arena.blockAddress_congr hwithin.arena.start] at haddress
  refine ⟨h'', ?_, W', hwithin⟩
  unfold Heap.allocate
  rw [if_neg hpos]
  refine Action.Runs.bind (Action.runs_ofExcept hblock _) (Action.Runs.bind hrun ?_)
  refine Action.Runs.bind hrun' (Action.Runs.bind (Action.runs_read (by exact haddress)) ?_)
  apply Action.Runs.bind (Action.runs_record _ _)
  exact Action.Runs.bind W'.runs_closingCheck (Action.runs_pure _ _)

/-- An allocation hands out the chunk that is found, whole or in part. -/
theorem allocate_found (hpos : size ≠ 0) (hsize : Holdable size)
    (W : h.WellFormed f.chunks f.lists)
    (hfound : h.config.choice f.lists (unitsFor size) = some f.chunk) :
    ∃ h', (Heap.allocate size).Runs h
        (.ok (h.arena.blockAddress (f.taken h.config (unitsFor size)).chunk)) h' ∧
      h'.WellFormed (f.taken h.config (unitsFor size)).chunks
        (f.taken h.config (unitsFor size)).lists ∧
      h.Within (freeSlots f.chunks) h' :=
  allocate_of_obtain hpos hsize (W.obtain_found hfound) W hfound

/-- An allocation ends, whatever the grower answers. -/
theorem exists_outcome (W : h.WellFormed chunks lists) (size : Nat) :
    ∃ answer h', (Heap.allocate size).Runs h answer h' ∧ Outcome h chunks lists size answer h' := by
  by_cases hpos : size = 0
  · subst hpos
    exact ⟨_, _, allocate_zero h, .zero rfl⟩
  by_cases hsize : Holdable size
  · cases hchoice : h.config.choice lists (unitsFor size) with
    | some c =>
      obtain ⟨hmem, -, -⟩ := mem_of_choice W.filed hchoice
      obtain ⟨pre, post, rfl⟩ := List.append_of_mem hmem
      obtain ⟨h', hrun, W', hwithin⟩ :=
        allocate_found (f := ⟨pre, c, post, lists⟩) hpos hsize W hchoice
      exact ⟨_, _, hrun, .found hpos hsize rfl rfl hchoice W' hwithin⟩
    | none =>
      cases hgrowth : h.arena.growth (h.growthUnits (unitsFor size)) with
      | error e =>
        exact ⟨_, _, W.allocate_error hpos hsize hchoice hgrowth,
          .outOfMemory hpos hsize hchoice hgrowth⟩
      | ok base =>
        obtain ⟨h₁, hrun₁, W₁, hfound, K, hlength, hstart, hgrower⟩ :=
          W.obtain_grown hchoice hgrowth rfl
        obtain ⟨h', hrun, W', hwithin⟩ := allocate_of_obtain hpos hsize hrun₁ W₁ hfound
        exact ⟨_, _, hrun,
          .grown hpos hsize hchoice hgrowth rfl W₁ K hfound hlength hstart hgrower W' hwithin⟩
  · exact ⟨_, _, allocate_tooLarge h hpos hsize, .tooLarge hpos hsize⟩

omit [Grower G] in
/-- The chunk that is handed out is one more in use, with at most two units more than needed. -/
theorem exists_handedOut (W : h.WellFormed f.chunks f.lists)
    (hfound : h.config.choice f.lists n = some f.chunk)
    (W' : h'.WellFormed (f.taken h.config n).chunks (f.taken h.config n).lists)
    (hwithin : h.Within (freeSlots f.chunks) h') :
    ∃ c base, h.arena.blockAddress (f.taken h.config n).chunk = base + unitBytes * (c.index + 1) ∧
      base ∈ h'.arena.start ∧ (used (f.taken h.config n).chunks).Perm (c :: used f.chunks) ∧
      n ≤ c.units ∧ c.units ≤ n + 2 ∧ h.Keeps (usedSlots f.chunks) h' := by
  obtain ⟨-, hfree, hle⟩ := mem_of_choice W.filed hfound
  obtain ⟨base, hbase, -⟩ := W'.dataAddress_eq (c := (f.taken h.config n).chunk)
    (by simp [Focus.chunks])
  obtain ⟨hlow, hhigh⟩ := @Focus.units_taken h.config f _ hle
  refine ⟨_, base, ?_, hbase, ?_, hlow, hhigh, W.keeps_of_within hwithin⟩
  · rw [← Arena.blockAddress_eq hbase, Arena.blockAddress_congr hwithin.arena.start]
  · rw [Focus.used_taken hfree]
    refine List.perm_middle.trans (List.Perm.cons _ ?_)
    rw [Focus.chunks, used_append, used_cons_of_free hfree]

/-- An allocation hands out one chunk more, or leaves the memory as it was. -/
theorem allocate (W : h.WellFormed chunks lists) (size : Nat) :
    (∃ e b, (Heap.allocate size).Runs h (.error e) (h.withArena b) ∧ h.arena.SameMemory b) ∨
      ∃ c h' chunks' lists' base,
        (Heap.allocate size).Runs h (.ok (base + unitBytes * (c.index + 1))) h' ∧
        h'.WellFormed chunks' lists' ∧ base ∈ h'.arena.start ∧
        (used chunks').Perm (c :: used chunks) ∧ unitsFor size ≤ c.units ∧
        c.units ≤ unitsFor size + 2 ∧ h.Keeps (usedSlots chunks) h' := by
  obtain ⟨answer, h', hrun, O⟩ := W.exists_outcome size
  cases O with
  | zero => exact .inl ⟨_, h.arena, hrun, rfl, rfl⟩
  | tooLarge => exact .inl ⟨_, h.arena, hrun, rfl, rfl⟩
  | outOfMemory => exact .inl ⟨_, _, hrun, rfl, rfl⟩
  | found hpos hsize hchunks hlists hfound W' hwithin =>
    subst hchunks hlists
    obtain ⟨c, base, haddress, hbase, hused, hlow, hhigh, K⟩ := exists_handedOut W hfound W' hwithin
    exact .inr ⟨c, h', _, _, base, haddress ▸ hrun, W', hbase, hused, hlow, hhigh, K⟩
  | grown hpos hsize hnone hgrowth hf W₁ K hfound hlength hstart hgrower W' hwithin =>
    obtain ⟨c, base, haddress, hbase, hused, hlow, hhigh, K'⟩ :=
      exists_handedOut W₁ hfound W' hwithin
    subst hf
    have hsame : used ((h.grownFocus chunks lists
        (h.growthUnits (unitsFor size))).reclaimed h.config).chunks = used chunks := by
      rw [Focus.used_reclaimed]
      exact List.append_nil _
    rw [hsame] at hused
    unfold usedSlots at K'
    rw [hsame] at K'
    exact .inr ⟨c, h', _, _, base, haddress ▸ hrun, W', hbase, hused, hlow, hhigh, K.trans K'⟩

end Allocate

/-! ## Release -/

/-- The release of a chunk in use makes it free. -/
theorem release_chunk (W : h.WellFormed f.chunks f.lists) (hused : f.chunk.status = .inUse) :
    ∃ h', (Heap.release (h.arena.blockAddress f.chunk)).Runs h () h' ∧
      h'.WellFormed (f.reclaimed h.config).chunks (f.reclaimed h.config).lists ∧
      h.Within (freeSlots (f.freed h.config).chunks) h' := by
  have hmem : f.chunk ∈ f.chunks := by simp [Focus.chunks]
  obtain ⟨base, hbase, -⟩ := W.dataAddress_eq hmem
  have hnull : base + unitBytes * (f.chunk.index + 1) ≠ nullAddress := by
    have := W.placed.pos base hbase
    unfold nullAddress
    omega
  have hchunk := W.chunkAt_eq hmem hbase
  have hfound := (W.tagged f.chunk hmem).status_eq
  rw [hused] at hfound
  obtain ⟨h', hrun, W', hwithin⟩ := W.reclaim hused
  refine ⟨h', ?_, W', hwithin⟩
  rw [Arena.blockAddress_eq hbase]
  unfold Heap.release
  rw [if_neg hnull]
  apply Action.Runs.bind (Action.runs_read (by exact hchunk))
  apply Action.Runs.bind (Action.runs_read (by exact hfound))
  refine Action.Runs.bind (Action.runs_require _ (by simp) _) (Action.Runs.bind hrun ?_)
  exact Action.Runs.bind (Action.runs_record _ _) W'.runs_closingCheck

/-- The release of a chunk in use takes it away. -/
theorem release (W : h.WellFormed chunks lists) (hc : c ∈ used chunks) {base : Nat}
    (hbase : base ∈ h.arena.start) :
    ∃ h' chunks' lists',
      (Heap.release (base + unitBytes * (c.index + 1))).Runs h () h' ∧
      h'.WellFormed chunks' lists' ∧ (used chunks).Perm (c :: used chunks') ∧
      h.Keeps (usedSlots chunks') h' := by
  obtain ⟨hmem, hstatus⟩ := mem_used.mp hc
  obtain ⟨pre, post, rfl⟩ := List.append_of_mem hmem
  obtain ⟨h', hrun, W', hwithin⟩ := @release_chunk _ ⟨pre, c, post, lists⟩ _ W hstatus
  rw [Arena.blockAddress_eq hbase] at hrun
  refine ⟨h', _, _, hrun, W', ?_, @keeps_of_reclaim _ ⟨pre, c, post, lists⟩ _ _ W hwithin⟩
  rw [Focus.used_reclaimed, used_append, used_cons_of_used hstatus]
  exact List.perm_middle

theorem release_null (h : Heap G) : (Heap.release nullAddress).Runs h () h := by
  unfold Heap.release
  rw [if_pos rfl]
  exact Action.runs_pure _ _

end WellFormed

end Heap

end BoundaryTag
