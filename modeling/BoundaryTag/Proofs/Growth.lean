import BoundaryTag.Heap.Allocation
import BoundaryTag.Proofs.Merging

/-!
# Growth

A request for memory has three outcomes: it is not made, it is refused or its
grant is misplaced, or the arena becomes longer. In the first two the memory of
the arena is as before. In the third the slots below the old end are as before,
and one chunk in use fills the new ones.

Results:

* `Arena.runs_extend_error`, `Arena.exists_extend`: growth never faults, and what it leaves
  is told by the length of the arena, its place and the answer of the grower.
* `runs_grow_error`, `Consistent.grow`: growth keeps a heap consistent.
-/

namespace BoundaryTag

variable {G : Type} {pre post chunks : List Chunk} {lists : FreeLists} {c d : Chunk} {n : Nat}

/-! ## Growers -/

namespace Grower

variable [Grower G]

/-- The grower after a sequence of requests. -/
def after (g : G) (requests : List Nat) : G :=
  requests.foldl (fun g bytes => (grow g bytes).grower) g

/-- Where the memory lies that a grower grants, or why it grants none. -/
def answerTo (g : G) (bytes : Nat) : Except GrowError Nat := (grow g bytes).answer.map Grant.start

end Grower

namespace Arena

variable {a b : Arena G}

/-! ## Where an arena lies -/

/-- The arena begins at a unit boundary and ends within the address space. -/
structure Placed (a : Arena G) : Prop where
  aligned : ∀ base ∈ a.start, base % unitBytes = 0
  pos : ∀ base ∈ a.start, 0 < base
  stop_lt : ∀ base ∈ a.start, base + a.slots.size * unitBytes < Word.limit

theorem Placed.congr (h : a.Placed) (hstart : b.start = a.start)
    (hsize : b.slots.size = a.slots.size) : b.Placed := by
  refine ⟨?_, ?_, ?_⟩
  · intro base hb
    exact h.aligned base (hstart ▸ hb)
  · intro base hb
    exact h.pos base (hstart ▸ hb)
  · intro base hb
    rw [hsize]; exact h.stop_lt base (hstart ▸ hb)

theorem placed_empty (g : G) : (empty g).Placed := by
  refine ⟨?_, ?_, ?_⟩ <;> intro base hb <;> cases hb

/-- Addresses in the arena are told apart by their offsets. -/
theorem offsetOf_eq {base x : Nat} (hbase : base ∈ a.start) (hlt : base + x < Word.limit) :
    a.offsetOf (base + x) = x := by
  have hstart : a.start.getD 0 = base := by rw [hbase]; rfl
  unfold offsetOf
  rw [hstart, addressFrom_of_le (Nat.le_add_right _ _) hlt, Nat.add_sub_cancel_left]

/-- A chunk is found where the address is behind one slot at least and before the end. -/
theorem chunkAt_eq_ok_iff {address c : Nat} : a.chunkAt address = .ok c ↔
    a.offsetOf address = unitBytes * (c + 1) ∧ c + 1 < a.slots.size := by
  unfold chunkAt unitBytes length
  constructor
  · intro h
    dsimp only at h
    split at h
    · cases h
      omega
    · cases h
  · rintro ⟨hoffset, hlt⟩
    simp only [hoffset]
    rw [if_pos (by omega), Nat.mul_div_cancel_left _ (by decide)]
    rfl

/-- The data of a chunk begins behind its header. -/
theorem dataAddress_eq {base c : Nat} (hbase : base ∈ a.start) (hc : c < a.length) :
    a.dataAddress c = .ok (base + unitBytes * (c + 1)) := by
  have hstart : a.start.getD 0 = base := by rw [hbase]; rfl
  simp [dataAddress, slot_eq_ok hc, hstart, bind, Except.bind, pure, Except.pure]

/-- In an arena that ends within the address space a chunk is found at no address but that of its
data. -/
theorem chunkAt_eq_ok_iff_address {base address c : Nat} (hbase : base ∈ a.start)
    (hend : base + unitBytes * a.length ≤ Word.limit) (hlt : address < Word.limit) :
    a.chunkAt address = .ok c ↔ address = base + unitBytes * (c + 1) ∧ c + 1 < a.length := by
  have hstart : a.start.getD 0 = base := by rw [hbase]; rfl
  rw [chunkAt_eq_ok_iff, offsetOf, hstart]
  show addressFrom base address = _ ∧ c + 1 < a.length ↔ _
  refine and_congr_left fun hc => ?_
  -- below the start the distance wraps to more than the arena is long
  unfold addressFrom unitBytes Word.limit at *
  omega

/-- Elsewhere the address is foreign. -/
theorem eq_of_chunkAt_eq_error {address : Nat} {e : Fault} (h : a.chunkAt address = .error e) :
    e = .foreignPointer address := by
  unfold chunkAt at h
  dsimp only at h
  split at h
  · cases h
  · cases h
    rfl

/-! ## Extension -/

/-- The arena after a reply of its grower. -/
def withGrower (a : Arena G) (g : G) : Arena G := { a with grower := g }

theorem runs_request [Grower G] (a : Arena G) (bytes : Nat) :
    (request bytes).Runs a (Grower.grow a.grower bytes).answer
      (a.withGrower (Grower.grow a.grower bytes).grower) := fun log =>
  ⟨log ++ (Grower.grow a.grower bytes).notes, rfl⟩

/-- The arena with `span` slots more. -/
def appended (a : Arena G) (start span : Nat) (contents : Nat → Slot) : Arena G :=
  ⟨some (a.start.getD start), a.slots ++ Array.ofFn fun i : Fin span => contents i, a.grower,
    nofun⟩

theorem runs_append (a : Arena G) (start span : Nat) (contents : Nat → Slot) :
    (append start span contents).Runs a () (a.appended start span contents) :=
  fun log => ⟨log, rfl⟩

@[simp] theorem size_appended (a : Arena G) (start span : Nat) (contents : Nat → Slot) :
    (a.appended start span contents).slots.size = a.slots.size + span := by simp [appended]

theorem getElem?_appended (a : Arena G) (start span : Nat) (contents : Nat → Slot) {i : Nat}
    (hi : i < a.slots.size) : (a.appended start span contents).slots[i]? = a.slots[i]? :=
  Array.getElem?_append_left hi

/-- The arena `b` is `a` with one more chunk of `n` units at its end, which is in use and in no
list. -/
structure Grown (a : Arena G) (n : Nat) (b : Arena G) : Prop where
  size : b.slots.size = a.slots.size + n + 2
  short : b.slots.size ≤ maxUnits
  placed : b.Placed
  start : ∀ base ∈ a.start, b.start = some base
  tagged : (⟨a.slots.size, n, .inUse⟩ : Chunk).TaggedIn b
  unlinked : b.linkAt a.slots.size = none ∧ b.linkAt (a.slots.size + n + 1) = none
  slots : ∀ i < a.slots.size, b.slots[i]? = a.slots[i]?

/-- The arena `b` has the memory of `a`. -/
structure SameMemory (a b : Arena G) : Prop where
  start : b.start = a.start
  slots : b.slots = a.slots

/-! ### Grants -/

/-- The start of the arena once a grant that begins at `start` is added to it; none where the grant
is misplaced. -/
def accepted (a : Arena G) (start : Nat) : Except GrowError Nat :=
  match a.start with
  | none => if start % unitBytes = 0 then .ok start else .error (.misaligned start)
  | some base =>
    if start = base + a.slots.size * unitBytes then .ok base
    else .error (.discontiguous (base + a.slots.size * unitBytes) start)

/-- A grant is accepted only where the arena may begin or go on. -/
theorem accepted_eq_ok_iff {start base : Nat} : a.accepted start = .ok base ↔
    (a.start = none ∧ start % unitBytes = 0 ∧ base = start) ∨
      (a.start = some base ∧ start = base + a.slots.size * unitBytes) := by
  unfold accepted
  cases a.start with
  | none => by_cases h : start % unitBytes = 0 <;> simp [h, eq_comm]
  | some old =>
    by_cases h : start = old + a.slots.size * unitBytes
    · simp only [h, if_true, Except.ok.injEq, reduceCtorEq, false_and, false_or, Option.some.injEq]
      constructor
      · rintro rfl
        exact ⟨rfl, rfl⟩
      · exact fun hbase => hbase.1
    · simp only [h, if_false, reduceCtorEq, false_and, false_or, Option.some.injEq, false_iff,
        not_and]
      rintro rfl
      exact h

theorem placementError?_of_accepted (hp : a.Placed) {start base : Nat}
    (h : a.accepted start = .ok base) : a.placementError? start = .ok none := by
  rcases accepted_eq_ok_iff.mp h with ⟨hstart, haligned, -⟩ | ⟨hstart, rfl⟩
  · rw [placementError?_first hstart, if_pos haligned]
  · rw [placementError?_later hstart (hp.stop_lt base hstart), if_pos (by rfl)]

theorem placementError?_of_misplaced (hp : a.Placed) {start : Nat} {e : GrowError}
    (h : a.accepted start = .error e) : a.placementError? start = .ok (some e) := by
  unfold accepted at h
  cases hstart : a.start with
  | none =>
    simp only [hstart] at h
    split_ifs at h with haligned
    cases h
    rw [placementError?_first hstart, if_neg haligned]
  | some base =>
    simp only [hstart] at h
    split_ifs at h with hplace
    cases h
    rw [placementError?_later hstart (hp.stop_lt base hstart), if_neg (by exact hplace)]
    rfl

section Grant

variable (grant : Grant ((n + 2) * unitBytes)) {base : Nat}
  (haccept : a.accepted grant.start = .ok base)

include haccept

theorem start_appended : (a.appended grant.start (n + 2) grant.contents).start = some base := by
  show some (a.start.getD grant.start) = some base
  rcases accepted_eq_ok_iff.mp haccept with ⟨hstart, -, rfl⟩ | ⟨hstart, -⟩ <;> rw [hstart] <;> rfl

/-- The arena begins at an aligned address, and an accepted grant begins where the arena ends. -/
theorem start_of_accepted (hp : a.Placed) :
    base % unitBytes = 0 ∧ 0 < base ∧ base + a.slots.size * unitBytes = grant.start := by
  rcases accepted_eq_ok_iff.mp haccept with ⟨hstart, haligned, rfl⟩ | ⟨hstart, hplace⟩
  · exact ⟨haligned, grant.start_pos, by rw [a.unmapped hstart]; simp⟩
  · exact ⟨hp.aligned _ hstart, hp.pos _ hstart, hplace.symm⟩

theorem placed_appended (hp : a.Placed) :
    (a.appended grant.start (n + 2) grant.contents).Placed := by
  obtain ⟨haligned, hpos, hend⟩ := start_of_accepted grant haccept hp
  have hstart := start_appended grant haccept
  refine ⟨?_, ?_, ?_⟩
  · intro base' hbase
    rw [hstart] at hbase
    cases hbase
    exact haligned
  · intro base' hbase
    rw [hstart] at hbase
    cases hbase
    exact hpos
  · intro base' hbase
    rw [hstart] at hbase
    cases hbase
    have hlt := grant.end_lt
    rw [size_appended]
    unfold unitBytes at *
    omega

/-- An accepted grant is laid out as one chunk in use. -/
theorem exists_grown (hp : a.Placed) (hfit : a.slots.size + (n + 2) ≤ maxUnits) :
    ∃ b, (layOut a.slots.size n).Runs (a.appended grant.start (n + 2) grant.contents) () b ∧
      a.Grown n b ∧ b.start = some base ∧ b.grower = a.grower := by
  have hfooter : (⟨a.slots.size, n, .inUse⟩ : Chunk).footer <
      (a.appended grant.start (n + 2) grant.contents).slots.size := by
    rw [size_appended]
    show a.slots.size + n + 1 < _
    omega
  obtain ⟨b, hrun, ht, hnext, hprev, hA⟩ := exists_layOut (d := ⟨a.slots.size, n, .inUse⟩)
    (by rw [size_appended]; exact hfit) hfooter rfl
  have hsize : b.slots.size = a.slots.size + n + 2 := by rw [hA.size, size_appended]; omega
  have hplaced := (placed_appended grant haccept hp).congr hA.start hA.size
  have hstart := hA.start.trans (start_appended grant haccept)
  refine ⟨b, hrun, ⟨hsize, by omega, hplaced, ?_, ht, ⟨hnext, hprev⟩, ?_⟩, hstart, hA.grower⟩
  · intro base' hbase
    rw [hA.start]
    show some (a.start.getD grant.start) = some base'
    rw [hbase]
    rfl
  · intro i hi
    have hout : i ∉ ({a.slots.size, a.slots.size + n + 1} : Set Nat) := by
      rw [Set.mem_insert_iff, Set.mem_singleton_iff]
      omega
    have hout' : i ∉ ({a.slots.size} : Set Nat) := by
      rw [Set.mem_singleton_iff]
      omega
    rw [hA.getElem?_eq hout hout hout', getElem?_appended _ _ _ _ hi]

end Grant

/-! ### Requests -/

/-- The requests that growth by `n` units makes to the grower: one, if the arena may become that
long. -/
def asked (a : Arena G) (n : Nat) : List Nat :=
  if a.slots.size + (n + 2) ≤ maxUnits then [(n + 2) * unitBytes] else []

/-- The start of the arena once it has grown by `n` units, or why it does not grow. -/
def growth [Grower G] (a : Arena G) (n : Nat) : Except GrowError Nat :=
  if a.slots.size + (n + 2) ≤ maxUnits then
    (Grower.answerTo a.grower ((n + 2) * unitBytes)).bind a.accepted
  else .error (.exhausted (Word.mulSaturating (Word.addSaturating n 2) unitBytes))

theorem addSaturating_eq (hfit : a.slots.size + (n + 2) ≤ maxUnits) :
    Word.addSaturating n 2 = n + 2 := by
  unfold Word.addSaturating Word.top maxUnits at *
  omega

section Extend

variable [Grower G]

theorem after_asked (hfit : a.slots.size + (n + 2) ≤ maxUnits) :
    Grower.after a.grower (a.asked n) =
      (Grower.grow a.grower ((n + 2) * unitBytes)).grower := by
  rw [asked, if_pos hfit]
  rfl

/-- Growth fails, and nothing but the grower is in another state. -/
theorem runs_extend_error (hp : a.Placed) {e : GrowError} (h : a.growth n = .error e) :
    (extend n).Runs a (.error e) (a.withGrower (Grower.after a.grower (a.asked n))) := by
  unfold growth Grower.answerTo at h
  unfold extend
  split_ifs at h with hfit
  · rw [addSaturating_eq hfit, after_asked hfit]
    have hrequest := runs_request a ((n + 2) * unitBytes)
    cases hanswer : (Grower.grow a.grower ((n + 2) * unitBytes)).answer with
    | error e' =>
      rw [hanswer] at h hrequest
      cases h
      apply Action.Runs.bind (Action.runs_read (by exact rfl))
      rw [if_pos (by exact hfit)]
      exact Action.Runs.bind hrequest (Action.runs_pure _ _)
    | ok grant =>
      rw [hanswer] at h hrequest
      have hmisplaced := placementError?_of_misplaced
        (a := a.withGrower (Grower.grow a.grower ((n + 2) * unitBytes)).grower)
        (hp.congr rfl rfl) h
      apply Action.Runs.bind (Action.runs_read (by exact rfl))
      rw [if_pos (by exact hfit)]
      apply Action.Runs.bind hrequest
      apply Action.Runs.bind (Action.runs_read (by exact hmisplaced))
      exact Action.Runs.bind (Action.runs_record _ _) (Action.runs_pure _ _)
  · cases h
    have hsaturated : ¬a.length + Word.addSaturating n 2 ≤ maxUnits := by
      unfold length Word.addSaturating Word.top maxUnits at *
      omega
    rw [asked, if_neg hfit]
    apply Action.Runs.bind (Action.runs_read (by exact rfl))
    rw [if_neg hsaturated]
    exact Action.runs_pure _ _

/-- Growth succeeds at the end of the arena. -/
theorem exists_extend (hp : a.Placed) {base : Nat} (h : a.growth n = .ok base) :
    ∃ b, (extend n).Runs a (.ok a.slots.size) b ∧ a.Grown n b ∧ b.start = some base ∧
      b.grower = Grower.after a.grower (a.asked n) := by
  unfold growth Grower.answerTo at h
  split_ifs at h with hfit
  rw [after_asked hfit]
  have hrequest := runs_request a ((n + 2) * unitBytes)
  cases hanswer : (Grower.grow a.grower ((n + 2) * unitBytes)).answer with
  | error e =>
    rw [hanswer] at h
    cases h
  | ok grant =>
    rw [hanswer] at h hrequest
    let a₁ := a.withGrower (Grower.grow a.grower ((n + 2) * unitBytes)).grower
    have hp₁ : a₁.Placed := hp.congr rfl rfl
    have haccept : a₁.accepted grant.start = .ok base := h
    obtain ⟨b, hrun, hb, hstart, hgrower⟩ := exists_grown grant haccept hp₁ hfit
    refine ⟨b, ?_, ⟨hb.size, hb.short, hb.placed, hb.start, hb.tagged, hb.unlinked, hb.slots⟩,
      hstart, hgrower⟩
    unfold extend
    rw [addSaturating_eq hfit]
    apply Action.Runs.bind (Action.runs_read (by exact rfl))
    rw [if_pos (by exact hfit)]
    apply Action.Runs.bind hrequest
    apply Action.Runs.bind (Action.runs_read (by exact placementError?_of_accepted hp₁ haccept))
    apply Action.Runs.bind (Action.runs_record _ _)
    refine Action.Runs.bind (runs_append _ _ _ _) (Action.Runs.bind hrun ?_)
    exact Action.Runs.bind (Action.runs_record _ _) (Action.runs_pure _ _)

end Extend

end Arena

namespace Heap

variable {h h' h'' : Heap G}

/-! ## Frames of operations that may grow the arena -/

/-- The heap `h'` has the slots of `h` that are in `K`, and perhaps more slots. -/
structure Keeps (h : Heap G) (K : Set Nat) (h' : Heap G) : Prop where
  config : h'.config = h.config
  start : ∀ base ∈ h.arena.start, h'.arena.start = some base
  size : h.arena.slots.size ≤ h'.arena.slots.size
  slots : ∀ i ∈ K, h'.arena.slots[i]? = h.arena.slots[i]?

namespace Keeps

variable {K L : Set Nat}

theorem refl (h : Heap G) (K : Set Nat) : h.Keeps K h :=
  ⟨rfl, fun _ hb => hb, Nat.le_refl _, fun _ _ => rfl⟩

theorem mono (H : h.Keeps K h') (hL : L ⊆ K) : h.Keeps L h' :=
  { H with slots := fun i hi => H.slots i (hL hi) }

theorem trans (H : h.Keeps K h') (H' : h'.Keeps K h'') : h.Keeps K h'' where
  config := H'.config.trans H.config
  start base hb := H'.start base (H.start base hb)
  size := Nat.le_trans H.size H'.size
  slots i hi := (H'.slots i hi).trans (H.slots i hi)

theorem of_sameMemory {b : Arena G} (K : Set Nat) (hb : h.arena.SameMemory b) :
    h.Keeps K (h.withArena b) := by
  refine ⟨rfl, fun base hbase => hb.start.trans hbase, ?_, ?_⟩
  · rw [arena_withArena, hb.slots]
  · intro i _
    rw [arena_withArena, hb.slots]

theorem of_within {S : Set Nat} (W : h.Within S h') (hK : ∀ i ∈ K, i ∉ S) : h.Keeps K h' :=
  ⟨W.config, fun _ hb => W.arena.start.trans hb, Nat.le_of_eq W.size.symm,
    fun i hi => W.getElem?_eq (hK i hi)⟩

end Keeps

/-! ## Growth of a heap -/

/-- A consistent heap stays consistent with its grower in another state. -/
theorem Consistent.sameMemory {b : Arena G} (C : h.Consistent chunks lists)
    (hb : h.arena.SameMemory b) : (h.withArena b).Consistent chunks lists := by
  have hunits : b.unitsAt = h.arena.unitsAt := by unfold Arena.unitsAt; rw [hb.slots]
  have hwords : b.wordAt = h.arena.wordAt := by unfold Arena.wordAt; rw [hb.slots]
  have hlinks : b.linkAt = h.arena.linkAt := by unfold Arena.linkAt; rw [hb.slots]
  have H := C.holds
  refine ⟨⟨?_, fun c hc => (H.tagged c hc).congr hunits hwords, H.apart, H.listed, H.nodup,
    H.heads, ?_⟩, ?_, C.filed⟩
  · rw [arena_withArena, hb.slots]; exact H.short
  · rw [arena_withArena, hlinks]; exact H.threaded
  · rw [arena_withArena, hb.slots]; exact C.tiles

/-- A consistent heap with one more chunk at its end. -/
theorem Consistent.grown {b : Arena G} (C : h.Consistent chunks lists) (hb : h.arena.Grown n b)
    (hn : 1 ≤ n) :
    (h.withArena b).Consistent (chunks ++ [⟨h.arena.slots.size, n, .inUse⟩]) lists := by
  have H := C.holds
  have hlt : ∀ i ∈ tagSlots chunks, i < h.arena.slots.size := by
    intro i hi
    obtain ⟨c, hc, hi⟩ := mem_tagSlots.mp hi
    have := (C.tiles.bounds hc).2.1
    have := c.index_lt_footer
    have := c.footer_lt_stop
    omega
  have hslots : ∀ i ∈ tagSlots chunks, b.slots[i]? = h.arena.slots[i]? := fun i hi =>
    hb.slots i (hlt i hi)
  have htiles : Tiles 0 (chunks ++ [⟨h.arena.slots.size, n, .inUse⟩]) b.slots.size := by
    rw [hb.size]
    exact Tiles.concat C.tiles hn
  refine ⟨⟨hb.short, ?_, nodup_tagSlots htiles.ascending, ?_, H.nodup,
    H.heads, ?_⟩, htiles, ?_⟩
  · intro c hc
    rcases List.mem_append.mp hc with hc | hc
    · have hindex := hslots c.index (mem_tagSlots.mpr ⟨c, hc, .inl rfl⟩)
      have hfooter := hslots c.footer (mem_tagSlots.mpr ⟨c, hc, .inr rfl⟩)
      exact (H.tagged c hc).sameSlots hindex hfooter
    · rw [List.mem_singleton.mp hc]
      exact hb.tagged
  · intro k c hc
    obtain ⟨hm, hrest⟩ := H.listed k c hc
    exact ⟨List.mem_append_left _ hm, hrest⟩
  · intro k
    apply (H.threaded k).congr
    intro i hi
    have hi' := tagSlots_subset (fun c hc => (H.listed k c hc).1) hi
    rw [arena_withArena, Arena.linkAt, Arena.linkAt, hslots i hi']
  · have hfiled := (@filed_of_inUse h.config chunks [] lists
      ⟨h.arena.slots.size, n, .inUse⟩ rfl).mpr
    rw [List.append_nil] at hfiled
    exact hfiled C.filed

/-- The heap seen from the chunk that growth by `n` units adds. -/
def grownFocus (h : Heap G) (chunks : List Chunk) (lists : FreeLists) (n : Nat) : Focus :=
  ⟨chunks, ⟨h.arena.slots.size, n, .inUse⟩, [], lists⟩

/-- The units by which the arena grows for a request of `units` units. -/
def growthUnits (h : Heap G) (units : Nat) : Nat := max units h.config.minGrowth

section Growth

variable [Grower G] {units : Nat}

/-- Growth fails and leaves the heap. -/
theorem runs_grow_error (hp : h.arena.Placed) {e : GrowError}
    (he : h.arena.growth (h.growthUnits units) = .error e) :
    (Heap.grow units).Runs h (.error e) (h.withArena (h.arena.withGrower
      (Grower.after h.arena.grower (h.arena.asked (h.growthUnits units))))) := by
  apply Action.Runs.bind (Action.runs_read (by exact rfl))
  exact Action.Runs.bind (runs_onArena (Arena.runs_extend_error hp he)) (Action.runs_pure _ _)

/-- Growth adds a free chunk, merged with the one below. -/
theorem Consistent.grow (C : h.Consistent chunks lists) (hp : h.arena.Placed) {base : Nat}
    (hbase : h.arena.growth (h.growthUnits units) = .ok base) {f : Focus}
    (hf : f = (h.grownFocus chunks lists (h.growthUnits units)).reclaimed h.config) :
    ∃ h', (Heap.grow units).Runs h (.ok f.chunk.index) h' ∧ h'.Shows f ∧ h'.arena.Placed ∧
      h.Keeps {i | i < h.arena.slots.size ∧ i ∉ freeSlots chunks} h' ∧
      h'.arena.slots.size = h.arena.slots.size + h.growthUnits units + 2 ∧
      h'.arena.start = some base ∧
      h'.arena.grower = Grower.after h.arena.grower (h.arena.asked (h.growthUnits units)) := by
  subst hf
  have hn : 1 ≤ h.growthUnits units :=
    Nat.le_trans h.config.minGrowth_pos (Nat.le_max_right _ _)
  obtain ⟨b, hrun, hb, hstart, hgrower⟩ := Arena.exists_extend hp hbase
  have C₁ : (h.withArena b).Shows (h.grownFocus chunks lists (h.growthUnits units)) :=
    C.grown hb hn
  obtain ⟨h', hrun', C', W⟩ := C₁.reclaim rfl
  refine ⟨h', ?_, C', hb.placed.congr W.arena.start W.size, ?_, W.size.trans hb.size,
    W.arena.start.trans hstart, W.arena.grower.trans hgrower⟩
  · apply Action.Runs.bind (Action.runs_read (by exact rfl))
    apply Action.Runs.bind (runs_onArena hrun)
    exact Action.Runs.bind hrun' (Action.runs_pure _ _)
  · refine ⟨W.config, fun base hbase => W.arena.start.trans (hb.start base hbase), ?_, ?_⟩
    · rw [W.size, arena_withArena, hb.size]
      omega
    · rintro i ⟨hi, hS⟩
      have hi' : i ∉ freeSlots
          ((h.grownFocus chunks lists (h.growthUnits units)).freed h.config).chunks := by
        rintro ⟨c, hc, hfree, hlo, hhi⟩
        rcases List.mem_append.mp hc with hc | hc
        · exact hS ⟨c, hc, hfree, hlo, hhi⟩
        · rw [List.mem_singleton.mp hc] at hlo
          exact absurd hlo (Nat.not_le.mpr hi)
      rw [W.getElem?_eq hi', arena_withArena, hb.slots i hi]

end Growth

end Heap

end BoundaryTag
