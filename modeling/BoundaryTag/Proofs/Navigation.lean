import BoundaryTag.Proofs.Paving
import BoundaryTag.Proofs.Totals

/-!
# Finding one's way

From a chunk there are three ways to another place: up and down to its neighbours, between its
header and its footer, and out to the address of its data. Each can be gone back. Up and down
only the sizes in the tags count, so this holds of every run of agreeing tags, whatever the
chunks are used for; addresses are found by arithmetic alone.

Results:

* `Arena.Paved.headers_eq`: the walk up from the first chunk meets every header, and
  `Arena.stats_eq_foldlM`: the totals are gathered on that walk.
* `Arena.Paved.navigable`: steps in a paved arena, and `Arena.addressed`: addresses.
* `Arena.navigation`: both together.
-/

namespace BoundaryTag

variable {G : Type} {a : Arena G} {l : List Nat} {b c i p base : Nat}

namespace Arena

/-! ## The walk up -/

/-- The headers met on the walk up from the header `c`. -/
def headersFrom (a : Arena G) (c : Nat) : Except Fault (List Nat) :=
  match _hn : a.nextAdjacent c with
  | .error e => .error e
  | .ok none => .ok [c]
  | .ok (some next) => (a.headersFrom next).map (c :: ·)
termination_by a.length - c
decreasing_by
  have := lt_of_nextAdjacent _hn
  omega

/-- The headers met on the walk up from the first chunk. -/
def headers (a : Arena G) : Except Fault (List Nat) :=
  match a.first with
  | none => .ok []
  | some c => a.headersFrom c

/-- One step of the walk. -/
theorem headersFrom_step {next : Option Nat} (h : a.nextAdjacent c = .ok next) :
    a.headersFrom c = next.elim (.ok [c]) fun d => (a.headersFrom d).map (c :: ·) := by
  rw [headersFrom]
  split
  · rename_i e he
    rw [h] at he
    cases he
  · rename_i he
    rw [h] at he
    cases he
    rfl
  · rename_i d he
    rw [h] at he
    cases he
    rfl

/-- A walk that ends has met the header it began with, and ends there or goes on above. -/
theorem headersFrom_cases (h : a.headersFrom c = .ok l) : ∃ rest, l = c :: rest ∧
    ((a.nextAdjacent c = .ok none ∧ rest = []) ∨
      ∃ d, a.nextAdjacent c = .ok (some d) ∧ a.headersFrom d = .ok rest) := by
  rw [headersFrom] at h
  split at h
  · cases h
  · cases h
    exact ⟨[], rfl, .inl ⟨‹_›, rfl⟩⟩
  · rename_i d hd
    cases hrest : a.headersFrom d with
    | error e =>
      rw [hrest] at h
      cases h
    | ok rest =>
      rw [hrest] at h
      cases h
      exact ⟨rest, rfl, .inr ⟨d, hd, hrest⟩⟩

/-- The walk meets all headers of a paved run, and no fault. -/
theorem Paved.headersFrom_eq (hlen : a.length < Word.limit) (h : a.Paved i (c :: l) a.length) :
    a.headersFrom c = .ok (c :: l) := by
  induction l generalizing i c with
  | nil => rw [headersFrom_step (h.nextAdjacent_eq hlen)]; rfl
  | cons d l ih =>
    obtain ⟨-, n, -, -, hrest⟩ := id h
    rw [headersFrom_step (h.nextAdjacent_eq hlen)]
    show (a.headersFrom d).map (c :: ·) = _
    rw [ih hrest]
    rfl

theorem Paved.headers_eq (hlen : a.length < Word.limit) (h : a.Paved 0 l a.length) :
    a.headers = .ok l := by
  cases l with
  | nil =>
    have hzero : 0 = a.length := h
    rw [headers, first, if_neg (by omega)]
  | cons c l =>
    obtain ⟨rfl, -⟩ := id h
    rw [headers, first, if_pos (h.lt (by simp))]
    exact h.headersFrom_eq hlen

/-- When the walk ends, the totals are gathered from the headers it meets. -/
theorem statsFrom_eq_foldlM (h : a.headersFrom c = .ok l) (s : Stats) :
    Heap.statsFrom a c s = l.foldlM (fun s c => do s.count (← a.units c) (← a.isFree c)) s := by
  induction l generalizing c s with
  | nil =>
    obtain ⟨_, hl, -⟩ := headersFrom_cases h
    cases hl
  | cons d l ih =>
    obtain ⟨rest, hl, hnext⟩ := headersFrom_cases h
    cases hl
    rw [List.foldlM_cons]
    rcases hnext with ⟨hnext, rfl⟩ | ⟨next, hnext, hrest⟩
    · rw [Heap.statsFrom_bind hnext]
      rfl
    · rw [Heap.statsFrom_bind hnext]
      congr 1
      funext t
      exact ih hrest t

/-- The totals of a heap are those of the headers on the walk. -/
theorem stats_eq_foldlM {h : Heap G} (hl : h.arena.headers = .ok l) :
    h.stats = h.arenaBytes >>= fun bytes =>
      l.foldlM (fun s c => do s.count (← h.arena.units c) (← h.arena.isFree c))
        ⟨bytes, 0, 0, 0, 0, 0⟩ := by
  unfold headers at hl
  unfold Heap.stats
  cases hfirst : h.arena.first with
  | none =>
    rw [hfirst] at hl
    cases hl
    rfl
  | some c =>
    rw [hfirst] at hl
    simp only [statsFrom_eq_foldlM hl]

/-! ## Neighbours -/

/-- All chunks are met on the walk up, and the steps between them can be gone back. -/
structure Navigable (a : Arena G) (l : List Nat) : Prop where
  /-- The walk up from the first chunk visits the headers, and nothing else. -/
  visited : a.headers = .ok l
  ascending : l.Pairwise (· < ·)
  /-- No step is a fault. -/
  steps : ∀ c ∈ l, ∃ above below, a.nextAdjacent c = .ok above ∧ a.prevAdjacent c = .ok below
  last : ∀ c ∈ l.getLast?, a.nextAdjacent c = .ok none
  first : ∀ c ∈ l.head?, a.prevAdjacent c = .ok none
  converse : ∀ b ∈ l, ∀ c ∈ l,
    a.nextAdjacent b = .ok (some c) ↔ a.prevAdjacent c = .ok (some b)
  footers : ∀ c ∈ l, ∃ f, a.footerOf c = .ok f ∧ a.headerOf f = .ok c

/-- The steps from a header lead to the two next to it. -/
theorem Paved.steps_eq {pre post : List Nat} (hlen : a.length < Word.limit)
    (h : a.Paved 0 (pre ++ c :: post) a.length) :
    a.nextAdjacent c = .ok post.head? ∧ a.prevAdjacent c = .ok pre.getLast? := by
  obtain ⟨k, hpre, hpost⟩ := paved_append.mp h
  obtain ⟨rfl, -⟩ := id hpost
  exact ⟨hpost.nextAdjacent_eq hlen, hpre.prevAdjacent_eq⟩

theorem Paved.converse (hlen : a.length < Word.limit) (h : a.Paved 0 l a.length) (hb : b ∈ l)
    (hc : c ∈ l) : a.nextAdjacent b = .ok (some c) ↔ a.prevAdjacent c = .ok (some b) := by
  constructor
  · intro hup
    obtain ⟨pre, post, rfl⟩ := List.append_of_mem hb
    rw [(h.steps_eq hlen).1, Except.ok.injEq, List.head?_eq_some_iff] at hup
    obtain ⟨post, rfl⟩ := hup
    rw [List.append_cons] at h
    rw [(h.steps_eq hlen).2, List.getLast?_concat]
  · intro hdown
    obtain ⟨pre, post, rfl⟩ := List.append_of_mem hc
    rw [(h.steps_eq hlen).2, Except.ok.injEq, List.getLast?_eq_some_iff] at hdown
    obtain ⟨pre, rfl⟩ := hdown
    rw [← List.append_cons] at h
    rw [(h.steps_eq hlen).1]
    rfl

theorem Paved.navigable (hlen : a.length < Word.limit) (h : a.Paved 0 l a.length) :
    a.Navigable l where
  visited := h.headers_eq hlen
  ascending := h.ascending
  steps c hc := by
    obtain ⟨pre, post, rfl⟩ := List.append_of_mem hc
    exact ⟨_, _, h.steps_eq hlen⟩
  last c hc := by
    obtain ⟨pre, rfl⟩ := List.getLast?_eq_some_iff.mp hc
    exact (h.steps_eq hlen).1
  first c hc := by
    obtain ⟨post, rfl⟩ := List.head?_eq_some_iff.mp hc
    have hfirst : a.Paved 0 ([] ++ c :: post) a.length := h
    exact (hfirst.steps_eq hlen).2
  converse _ hb _ hc := h.converse hlen hb hc
  footers _ hc := h.headerOf_footerOf hlen hc

/-! ## Addresses -/

/-- The chunks of an arena that starts at `base` are told by the addresses of their data. -/
structure Addressed (a : Arena G) (base : Nat) : Prop where
  /-- Data begins at the unit boundaries inside, but for the start. -/
  accepted : ∀ p < Word.limit,
    (∃ c, a.chunkAt p = .ok c) ↔ ∃ k, 1 ≤ k ∧ k < a.length ∧ p = base + unitBytes * k
  refused : ∀ p < Word.limit, (¬∃ k, 1 ≤ k ∧ k < a.length ∧ p = base + unitBytes * k) →
    a.chunkAt p = .error (.foreignPointer p)
  inverted : ∀ p < Word.limit, ∀ c, a.chunkAt p = .ok c → a.dataAddress c = .ok p
  recovered : ∀ l, a.Paved 0 l a.length → ∀ c ∈ l,
    ∃ p < Word.limit, a.dataAddress c = .ok p ∧ a.chunkAt p = .ok c

theorem addressed (hbase : base ∈ a.start) (hend : base + unitBytes * a.length ≤ Word.limit) :
    a.Addressed base := by
  have haccepted : ∀ p < Word.limit, (∃ c, a.chunkAt p = .ok c) ↔
      ∃ k, 1 ≤ k ∧ k < a.length ∧ p = base + unitBytes * k := by
    intro p hp
    simp only [chunkAt_eq_ok_iff_address hbase hend hp]
    constructor
    · rintro ⟨c, rfl, hc⟩
      exact ⟨c + 1, by omega, hc, rfl⟩
    · rintro ⟨k, hk, hlt, rfl⟩
      obtain ⟨c, rfl⟩ := Nat.exists_eq_add_of_le' hk
      exact ⟨c, rfl, hlt⟩
  refine ⟨haccepted, ?_, ?_, ?_⟩
  · intro p hp hnone
    cases hchunk : a.chunkAt p with
    | ok c => exact absurd ((haccepted p hp).mp ⟨c, hchunk⟩) hnone
    | error e => rw [eq_of_chunkAt_eq_error hchunk]
  · intro p hp c hchunk
    obtain ⟨rfl, hc⟩ := (chunkAt_eq_ok_iff_address hbase hend hp).mp hchunk
    exact dataAddress_eq hbase (by omega)
  · intro l hl c hc
    obtain ⟨n, -, -, -, hle⟩ := hl.bounds hc
    have hp : base + unitBytes * (c + 1) < Word.limit := by
      unfold unitBytes at *
      omega
    refine ⟨_, hp, dataAddress_eq hbase (by omega), ?_⟩
    exact (chunkAt_eq_ok_iff_address hbase hend hp).mpr ⟨rfl, by omega⟩

/-! ## Both -/

/-- In an arena whose slots are chunks with agreeing tags the walk up meets exactly these, and every
step can be gone back; in an arena that lies in memory, addresses and chunks correspond. -/
theorem navigation (hlen : a.length < Word.limit) :
    (∀ l, a.Paved 0 l a.length → a.Navigable l) ∧
      ∀ base ∈ a.start, base + unitBytes * a.length ≤ Word.limit → a.Addressed base :=
  ⟨fun _ h => h.navigable hlen, fun _ hbase hend => addressed hbase hend⟩

/-- Three chunks, of no units, of two and of one; only the last has a status. -/
def uneven : Arena Unit where
  start := some 0x1000
  slots := #[⟨0, 0, 0⟩, ⟨0, 0, 0⟩,
    ⟨0, 2, 7⟩, Slot.zero, Slot.zero, ⟨0, 2, 0⟩,
    ⟨Link.none, 1, Status.free.word⟩, Slot.zero, ⟨Link.none, 1, 0⟩]
  grower := ()
  unmapped := nofun

theorem navigation_uneven : uneven.length < Word.limit ∧
    (uneven.Paved 0 [0, 2, 6] uneven.length ∧ uneven.Navigable [0, 2, 6]) ∧
    0x1000 ∈ uneven.start ∧ 0x1000 + unitBytes * uneven.length ≤ Word.limit ∧
      uneven.Addressed 0x1000 := by
  have hlen : uneven.length < Word.limit := by decide
  have hpaved : uneven.Paved 0 [0, 2, 6] uneven.length :=
    ⟨rfl, 0, rfl, rfl, rfl, 2, rfl, rfl, rfl, 1, rfl, rfl, rfl⟩
  have hend : 0x1000 + unitBytes * uneven.length ≤ Word.limit := by decide
  obtain ⟨hnavigable, haddressed⟩ := navigation hlen
  exact ⟨hlen, ⟨hpaved, hnavigable _ hpaved⟩, rfl, hend, haddressed _ rfl hend⟩

end Arena

end BoundaryTag
