import BoundaryTag.Growth.Region
import BoundaryTag.Proofs.Growth

/-!
# Marks

A slot is marked when its status word is the one of a chunk in use. Only headers of
such chunks should be, and no tiling says so: slots that were headers once, footers
and the data of blocks are not looked at by it. The marks are followed through every
write instead, by rules that say of an action where marks may stand when it ends.

Results:

* `Action.Ensures`: such rules in general; `Ensures.bind` composes them.
* `Heap.ensures_file`, `Heap.ensures_take`: a chunk that becomes free loses its mark,
  and only the chunk that is handed out receives one.
* `Heap.ensures_allocate`, `Heap.ensures_release`: the two operations.
-/

namespace BoundaryTag

/-! ## Rules -/

namespace Action

variable {σ α β : Type} {P P' : σ → Prop} {Q Q' : α → σ → Prop} {R : β → σ → Prop}
  {x : Action σ α}

/-- Where the action is started with `P` and succeeds, it ends with `Q`. -/
def Ensures (x : Action σ α) (P : σ → Prop) (Q : α → σ → Prop) : Prop :=
  ∀ ⦃t : Traced σ⦄ ⦃a : α⦄ ⦃u : Traced σ⦄, P t.state → x t = .ok a u → Q a u.state

/-- Where the action is started with `P` and succeeds, `P` holds again. -/
abbrev Preserves (x : Action σ α) (P : σ → Prop) : Prop := x.Ensures P fun _ => P

namespace Ensures

theorem bind {f : α → Action σ β} (hx : x.Ensures P Q) (hf : ∀ a, (f a).Ensures (Q a) R) :
    (x >>= f).Ensures P R := by
  intro t b v hP h
  obtain ⟨a, u, hrun, hrest⟩ := exists_of_bind_eq_ok h
  exact hf a (hx hP hrun) hrest

theorem imp (hx : x.Ensures P Q) (hP : ∀ s, P' s → P s) (hQ : ∀ a s, Q a s → Q' a s) :
    x.Ensures P' Q' := fun _ _ _ h hrun => hQ _ _ (hx (hP _ h) hrun)

/-- What is known apart from the state. -/
theorem of_fact {p : Prop} (hx : p → x.Ensures P Q) : x.Ensures (fun s => P s ∧ p) Q :=
  fun _ _ _ h hrun => hx h.2 h.1 hrun

end Ensures

theorem ensures_pure {a : α} (h : ∀ s, P s → Q a s) : (pure a : Action σ α).Ensures P Q := by
  intro t b u hP hrun
  cases hrun
  exact h _ hP

theorem ensures_throw (e : Fault) : (throw e : Action σ α).Ensures P Q := by
  intro t a u _ h
  cases h

theorem ensures_read (f : σ → Except Fault α) :
    (read f).Ensures P fun a s => P s ∧ f s = .ok a := by
  intro t a u hP h
  unfold read at h
  split at h
  · rename_i b hb
    cases h
    exact ⟨hP, hb⟩
  · cases h

theorem preserves_read (f : σ → Except Fault α) : (read f).Preserves P :=
  (ensures_read f).imp (fun _ => id) fun _ _ => And.left

theorem ensures_change {f : σ → σ} {Q : σ → Prop} (h : ∀ s, P s → Q (f s)) :
    (change f).Ensures P fun _ => Q := by
  intro t a u hP hrun
  cases hrun
  exact h _ hP

theorem preserves_require (condition : Bool) (fault : Fault) :
    (require condition fault).Preserves P := by
  unfold require
  split
  · exact ensures_pure fun _ => id
  · exact ensures_throw _

theorem preserves_record (events : List Event) : (record events : Action σ Unit).Preserves P := by
  intro t a u hP h
  cases h
  exact hP

end Action

open BoundaryTag.Action

variable {G : Type} {M : Set Nat} {c n : Nat}

namespace Arena

variable {a b : Arena G} {i : Nat} {f : Slot → Slot}

/-! ## Marked slots -/

/-- The slots with the status word of a chunk in use are in `M`. -/
def MarkedIn (M : Set Nat) (a : Arena G) : Prop :=
  ∀ i, a.wordAt i = some Status.inUse.word → i ∈ M

theorem MarkedIn.mono {N : Set Nat} (h : a.MarkedIn M) (hMN : M ⊆ N) : a.MarkedIn N :=
  fun i hi => hMN (h i hi)

theorem MarkedIn.congr (h : a.MarkedIn M) (hword : b.wordAt = a.wordAt) : b.MarkedIn M := by
  unfold MarkedIn
  rw [hword]
  exact h

/-! ## Writes -/

theorem ensures_update {P Q : Arena G → Prop}
    (h : ∀ a, P a → i < a.slots.size → Q (a.modified i f)) :
    (update i f).Ensures P fun _ => Q := by
  rintro ⟨a, log⟩ _ u hP hrun
  by_cases hi : i < a.slots.size
  · rw [run_update hi] at hrun
    cases hrun
    exact h a hP hi
  · rw [run_update_outside (Nat.le_of_not_lt hi)] at hrun
    cases hrun

/-- A write that leaves status words sets no mark. -/
theorem preserves_update (hf : ∀ s, (f s).status = s.status) :
    (update i f : Action (Arena G) Unit).Preserves (MarkedIn M) :=
  ensures_update fun a hM _ => hM.congr (funext fun j => map_modified a i f Slot.status hf j)

theorem ensures_setStatus_free :
    (setStatus c .free : Action (Arena G) Unit).Ensures (MarkedIn M)
      fun _ => MarkedIn (M \ {c}) := by
  apply ensures_update
  intro a hM hc i hi
  change (a.withStatus c .free).wordAt i = _ at hi
  rw [wordAt_withStatus _ hc] at hi
  by_cases hic : i = c
  · rw [hic, Function.update_self] at hi
    exact absurd hi (by decide)
  · rw [Function.update_of_ne hic] at hi
    exact ⟨hM i hi, hic⟩

theorem ensures_setStatus_inUse :
    (setStatus c .inUse : Action (Arena G) Unit).Ensures (MarkedIn M)
      fun _ => MarkedIn (insert c M) := by
  apply ensures_update
  intro a hM hc i hi
  change (a.withStatus c .inUse).wordAt i = _ at hi
  rw [wordAt_withStatus _ hc] at hi
  by_cases hic : i = c
  · exact .inl hic
  · rw [Function.update_of_ne hic] at hi
    exact .inr (hM i hi)

theorem preserves_setUnits : (setUnits c n : Action (Arena G) Unit).Preserves (MarkedIn M) := by
  unfold setUnits
  split
  · refine .bind (preserves_update fun _ => rfl) fun _ => ?_
    exact .bind (preserves_read _) fun _ => preserves_update fun _ => rfl
  · exact ensures_throw _

theorem preserves_setNextFree (next : Option Nat) :
    (setNextFree c next : Action (Arena G) Unit).Preserves (MarkedIn M) :=
  preserves_update fun _ => rfl

theorem preserves_setPrevFree (prev : Option Nat) :
    (setPrevFree c prev : Action (Arena G) Unit).Preserves (MarkedIn M) :=
  .bind (preserves_read _) fun _ => preserves_update fun _ => rfl

theorem preserves_linkBack (next prev : Option Nat) :
    (linkBack next prev : Action (Arena G) Unit).Preserves (MarkedIn M) := by
  cases next with
  | none => exact ensures_pure fun _ => id
  | some c => exact preserves_setPrevFree _

theorem ensures_layOut :
    (layOut c n : Action (Arena G) Unit).Ensures (MarkedIn M)
      fun _ => MarkedIn (insert c M) := by
  unfold layOut
  refine .bind preserves_setUnits fun _ => .bind ensures_setStatus_inUse fun _ => ?_
  exact .bind (preserves_setNextFree _) fun _ => preserves_setPrevFree _

theorem preserves_resizeInPlace {rest : Nat} :
    (resizeInPlace c rest : Action (Arena G) Unit).Preserves (MarkedIn M) :=
  .bind (preserves_read _) fun _ => .bind preserves_setUnits fun _ => preserves_setPrevFree _

theorem ensures_carve :
    (carve c n : Action (Arena G) Nat).Ensures (MarkedIn M)
      fun carved => MarkedIn (insert carved M) := by
  unfold carve
  refine .bind (preserves_read _) fun above => ?_
  cases above with
  | none => exact ensures_throw _
  | some carved => exact .bind ensures_layOut fun _ => ensures_pure fun _ => id

end Arena

/-! ## Growth -/

namespace Grower

variable [Grower G] {g : G}

/-- Memory is zero when the grower grants it, now and later. -/
def Zeroes (g : G) : Prop := ∀ requests bytes grant,
  (grow (after g requests) bytes).answer = .ok grant →
    ∀ i, unitBytes * i < bytes → grant.contents i = Slot.zero

theorem Zeroes.after (h : Zeroes g) (requests : List Nat) : Zeroes (after g requests) := by
  intro later bytes grant hanswer
  refine h (requests ++ later) bytes grant ?_
  have happend : Grower.after g (requests ++ later) =
      Grower.after (Grower.after g requests) later := List.foldl_append
  rw [happend]
  exact hanswer

/-- The buffer of a region is zero. -/
theorem zeroes_region (r : Region) : Zeroes r := by
  intro requests bytes grant hanswer i _
  change (Region.grow _ _).answer = _ at hanswer
  unfold Region.grow at hanswer
  split at hanswer
  · cases hanswer
    rfl
  · cases hanswer

end Grower

namespace Arena

variable [Grower G]

theorem ensures_request (bytes : Nat) :
    (request bytes : Action (Arena G) _).Ensures
      (fun a => a.MarkedIn M ∧ Grower.Zeroes a.grower)
      fun answer a => a.MarkedIn M ∧ ∀ grant, answer = .ok grant →
        ∀ i, unitBytes * i < bytes → grant.contents i = Slot.zero := by
  rintro ⟨a, log⟩ _ u ⟨hM, hzero⟩ hrun
  obtain ⟨log', h⟩ := runs_request a bytes log
  rw [h] at hrun
  cases hrun
  exact ⟨hM, hzero [] bytes⟩

omit [Grower G] in
/-- Slots of zeros carry no mark. -/
theorem preserves_append {start span : Nat} {contents : Nat → Slot}
    (hzero : ∀ i < span, contents i = Slot.zero) :
    (append start span contents : Action (Arena G) Unit).Preserves (MarkedIn M) := by
  rintro ⟨a, log⟩ _ u hM hrun
  obtain ⟨log', h⟩ := runs_append a start span contents log
  rw [h] at hrun
  cases hrun
  intro i hi
  by_cases hold : i < a.slots.size
  · refine hM i ?_
    rw [wordAt, getElem?_appended _ _ _ _ hold] at hi
    exact hi
  · rw [wordAt] at hi
    obtain ⟨s, hs, hword⟩ := Option.map_eq_some_iff.mp hi
    obtain ⟨hlt, rfl⟩ := Array.getElem?_eq_some_iff.mp hs
    rw [size_appended] at hlt
    have hslot : (a.appended start span contents).slots[i] = Slot.zero := by
      simp only [appended, Array.getElem_append_right (Nat.le_of_not_lt hold), Array.getElem_ofFn]
      exact hzero _ (by omega)
    rw [hslot] at hword
    exact absurd hword (by decide)

theorem ensures_extend (n : Nat) :
    (extend n : Action (Arena G) _).Ensures (fun a => a.MarkedIn M ∧ Grower.Zeroes a.grower)
      fun answer => MarkedIn (M ∪ {i | answer = .ok i}) := by
  have hsame : ∀ (e : GrowError) (a : Arena G), a.MarkedIn M →
      a.MarkedIn (M ∪ {i | Except.error e = Except.ok i}) :=
    fun e a hM => hM.mono Set.subset_union_left
  unfold extend
  refine .bind (preserves_read _) fun c => ?_
  split
  · refine .bind (ensures_request _) fun answer => ?_
    cases answer with
    | error e => exact ensures_pure fun a h => hsame e a h.1
    | ok grant =>
      refine .of_fact fun hzero => .bind (preserves_read _) fun misplaced => ?_
      refine .bind (preserves_record _) fun _ => ?_
      cases misplaced with
      | some e => exact ensures_pure (hsame e)
      | none =>
        have hcontents : ∀ i < Word.addSaturating n 2, grant.contents i = Slot.zero :=
          fun i hi => hzero grant rfl i (by unfold unitBytes; omega)
        refine .bind (preserves_append hcontents) fun _ => .bind ensures_layOut fun _ => ?_
        refine .bind (preserves_record _) fun _ => ensures_pure fun a hM => hM.mono ?_
        exact Set.insert_subset (.inr rfl) Set.subset_union_left
  · exact ensures_pure fun a h => hsame _ a h.1

end Arena

namespace Heap

/-- The marks of a heap are those of its arena. -/
abbrev MarkedIn (M : Set Nat) (h : Heap G) : Prop := h.arena.MarkedIn M

theorem ensures_onArena {α : Type} {P : Arena G → Prop} {Q : α → Arena G → Prop}
    {x : Action (Arena G) α} (hx : x.Ensures P Q) :
    (onArena x).Ensures (fun h => P h.arena) fun a h => Q a h.arena := by
  rintro ⟨h, log⟩ a u hP hrun
  cases harena : x ⟨h.arena, log⟩ with
  | ok b v =>
    rw [run_onArena_ok harena] at hrun
    cases hrun
    exact hx hP harena
  | error e v =>
    rw [run_onArena_error harena] at hrun
    cases hrun

/-! ## Free lists -/

theorem preserves_setHead {k : SizeClass} {first : Option Nat} :
    (setHead k first : Action (Heap G) Unit).Preserves (MarkedIn M) :=
  ensures_change fun _ => id

theorem preserves_pushFront : (pushFront c : Action (Heap G) Unit).Preserves (MarkedIn M) := by
  refine .bind (preserves_read _) fun k => .bind (preserves_read _) fun old => ?_
  refine .bind (ensures_onArena ?_) fun _ => preserves_setHead
  refine .bind (Arena.preserves_setNextFree _) fun _ => ?_
  exact .bind (Arena.preserves_setPrevFree _) fun _ => Arena.preserves_linkBack _ _

theorem preserves_insertAfter {pred : Nat} :
    (insertAfter pred c : Action (Heap G) Unit).Preserves (MarkedIn M) := by
  refine .bind (preserves_require _ _) fun _ => ensures_onArena ?_
  refine .bind (preserves_read _) fun next => .bind (Arena.preserves_setNextFree _) fun _ => ?_
  refine .bind (Arena.preserves_setPrevFree _) fun _ => ?_
  exact .bind (Arena.preserves_linkBack _ _) fun _ => Arena.preserves_setNextFree _

theorem preserves_bypass {prev next : Option Nat} :
    (bypass c prev next : Action (Heap G) Unit).Preserves (MarkedIn M) := by
  cases prev with
  | some prev => exact ensures_onArena (Arena.preserves_setNextFree _)
  | none =>
    refine .bind (preserves_read _) fun k => .bind (preserves_read _) fun first => ?_
    exact .bind (preserves_require _ _) fun _ => preserves_setHead

theorem preserves_unlink : (unlink c : Action (Heap G) Unit).Preserves (MarkedIn M) := by
  refine .bind (preserves_read _) fun free => .bind (preserves_require _ _) fun _ => ?_
  refine .bind (preserves_read _) fun prev => .bind (preserves_read _) fun next => ?_
  refine .bind preserves_bypass fun _ => ensures_onArena ?_
  refine .bind (Arena.preserves_linkBack _ _) fun _ => ?_
  exact .bind (Arena.preserves_setNextFree _) fun _ => Arena.preserves_setPrevFree _

/-- A chunk that is filed loses its mark. -/
theorem ensures_file :
    (file c : Action (Heap G) Unit).Ensures (MarkedIn M) fun _ => MarkedIn (M \ {c}) := by
  unfold file
  refine .bind (ensures_onArena Arena.ensures_setStatus_free) fun _ => ?_
  refine .bind (preserves_read _) fun k => ?_
  split
  · refine .bind (preserves_read _) fun pred => ?_
    cases pred with
    | some pred => exact preserves_insertAfter
    | none => exact preserves_pushFront
  · exact preserves_pushFront

theorem preserves_file : (file c : Action (Heap G) Unit).Preserves (MarkedIn M) :=
  ensures_file.imp (fun _ => id) fun _ _ h => h.mono Set.sdiff_subset

/-! ## Merging and splitting -/

theorem preserves_merge {upper : Nat} :
    (merge c upper : Action (Heap G) Unit).Preserves (MarkedIn M) := by
  refine .bind (preserves_read _) fun above => .bind (preserves_require _ _) fun _ => ?_
  refine .bind (preserves_read _) fun free => .bind (preserves_require _ _) fun _ => ?_
  refine .bind (preserves_read _) fun units => ?_
  refine .bind preserves_unlink fun _ => .bind preserves_unlink fun _ => ?_
  refine .bind (ensures_onArena Arena.preserves_setUnits) fun _ => ?_
  exact .bind preserves_file fun _ => preserves_record _

theorem preserves_mergeAbove : (mergeAbove c : Action (Heap G) Unit).Preserves (MarkedIn M) := by
  refine .bind (preserves_read _) fun above => ?_
  cases above with
  | some next => exact preserves_merge
  | none => exact ensures_pure fun _ => id

theorem preserves_mergeBelow : (mergeBelow c : Action (Heap G) Nat).Preserves (MarkedIn M) := by
  refine .bind (preserves_read _) fun below => ?_
  cases below with
  | some prev => exact .bind preserves_merge fun _ => ensures_pure fun _ => id
  | none => exact ensures_pure fun _ => id

theorem ensures_reclaim :
    (reclaim c : Action (Heap G) Nat).Ensures (MarkedIn M) fun _ => MarkedIn (M \ {c}) := by
  unfold reclaim
  rw [coalesce_eq]
  exact .bind ensures_file fun _ => .bind preserves_mergeAbove fun _ => preserves_mergeBelow

theorem preserves_shrink {total rest : Nat} :
    (shrink c total rest : Action (Heap G) Unit).Preserves (MarkedIn M) := by
  refine .bind (preserves_read _) fun same => ?_
  split
  · exact ensures_onArena Arena.preserves_resizeInPlace
  · refine .bind preserves_unlink fun _ => ?_
    exact .bind (ensures_onArena Arena.preserves_setUnits) fun _ => preserves_file

theorem ensures_split :
    (split c n : Action (Heap G) Nat).Ensures (MarkedIn M)
      fun carved => MarkedIn (insert carved M) := by
  refine .bind (preserves_read _) fun total => .bind (preserves_read _) fun free => ?_
  refine .bind (preserves_require _ _) fun _ => .bind (preserves_read _) fun needed => ?_
  refine .bind (preserves_require _ _) fun _ => .bind preserves_shrink fun _ => ?_
  refine .bind (ensures_onArena Arena.ensures_carve) fun carved => ?_
  exact .bind (preserves_record _) fun _ => ensures_pure fun _ => id

/-- The chunk that is handed out is the only one that receives a mark. -/
theorem ensures_take :
    (take c n : Action (Heap G) Nat).Ensures (MarkedIn M)
      fun taken => MarkedIn (insert taken M) := by
  refine .bind (preserves_read _) fun total => .bind (preserves_read _) fun needed => ?_
  split
  · exact ensures_split
  · refine .bind preserves_unlink fun _ => ?_
    refine .bind (ensures_onArena Arena.ensures_setStatus_inUse) fun _ => ?_
    exact ensures_pure fun _ => id

/-! ## Allocation and release -/

theorem preserves_closingCheck {P : Heap G → Prop} :
    (closingCheck : Action (Heap G) Unit).Preserves P := by
  refine .bind (preserves_read _) fun violation => ?_
  cases violation with
  | none => exact ensures_pure fun _ => id
  | some v => exact ensures_throw _

section Allocate

variable [Grower G]

/-- A new chunk is in use until it is filed, and leaves no mark. -/
theorem ensures_grow :
    (grow n : Action (Heap G) _).Ensures
      (fun h => h.MarkedIn M ∧ Grower.Zeroes h.arena.grower) fun _ => MarkedIn M := by
  refine .bind (preserves_read _) fun least => ?_
  refine .bind (ensures_onArena (Arena.ensures_extend _)) fun answer => ?_
  cases answer with
  | error e => exact ensures_pure fun h hM => hM.mono (by simp)
  | ok c =>
    refine .bind ensures_reclaim fun free => ensures_pure fun h hM => hM.mono ?_
    rintro i ⟨hi | hi, hne⟩
    · exact hi
    · exact absurd (Except.ok.inj hi).symm hne

theorem ensures_obtain :
    (obtain n : Action (Heap G) _).Ensures
      (fun h => h.MarkedIn M ∧ Grower.Zeroes h.arena.grower) fun _ => MarkedIn M := by
  refine .bind (preserves_read _) fun found => ?_
  cases found with
  | some c => exact ensures_pure fun _ => And.left
  | none => exact ensures_grow

/-- A mark that comes up stands in the header of the new block. -/
theorem ensures_allocate (size : Nat) :
    (allocate size : Action (Heap G) _).Ensures
      (fun h => h.MarkedIn M ∧ Grower.Zeroes h.arena.grower)
      fun answer h => h.MarkedIn
        (M ∪ {i | ∃ address, answer = .ok address ∧ h.arena.dataAddress i = .ok address}) := by
  have hfailed : ∀ (e : AllocError) (h : Heap G), h.MarkedIn M → h.MarkedIn (M ∪ {i | ∃ address,
      Except.error e = Except.ok address ∧ h.arena.dataAddress i = .ok address}) :=
    fun e h hM => hM.mono Set.subset_union_left
  unfold allocate
  split
  · exact ensures_pure fun h hM => hfailed _ h hM.1
  refine .bind (preserves_read _) fun units => ?_
  cases units with
  | none => exact ensures_pure fun h hM => hfailed _ h hM.1
  | some units =>
    refine .bind ensures_obtain fun obtained => ?_
    cases obtained with
    | error e => exact .bind (preserves_record _) fun _ => ensures_pure (hfailed _)
    | ok c =>
      refine .bind ensures_take fun taken => .bind (ensures_read _) fun address => ?_
      refine .bind (preserves_record _) fun _ => .bind preserves_closingCheck fun _ => ?_
      refine ensures_pure fun h ⟨hM, haddress⟩ => hM.mono ?_
      exact Set.insert_subset (.inr ⟨address, rfl, haddress⟩) Set.subset_union_left

end Allocate

/-- A released chunk loses its mark. -/
theorem ensures_release {address : Nat} (hnull : address ≠ nullAddress) :
    (release address : Action (Heap G) Unit).Ensures
      (fun h => h.MarkedIn M ∧ h.arena.chunkAt address = .ok c) fun _ => MarkedIn (M \ {c}) := by
  have hsame : ∀ d (h : Heap G), (h.MarkedIn M ∧ h.arena.chunkAt address = .ok c) ∧
      h.arena.chunkAt address = .ok d → h.MarkedIn M ∧ d = c := by
    rintro d h ⟨⟨hM, hc⟩, hd⟩
    exact ⟨hM, Except.ok.inj (hd.symm.trans hc)⟩
  unfold release
  rw [if_neg hnull]
  refine .bind (ensures_read _) fun d => (Ensures.of_fact ?_).imp (hsame d) fun _ _ => id
  rintro rfl
  refine .bind (preserves_read _) fun found => .bind (preserves_require _ _) fun _ => ?_
  refine .bind ensures_reclaim fun free => ?_
  exact .bind (preserves_record _) fun _ => preserves_closingCheck

end Heap

end BoundaryTag
