import BoundaryTag.Heap.Layout
import BoundaryTag.Proofs.Failure
import BoundaryTag.Proofs.LiveBlocks

/-!
# Requests with an alignment

A program that asks by size and alignment is served by plain requests: an allocation,
a store where the block is to be zero, and for a new size a store of the old bytes and
a release of the old block. So the sessions it leads to are those of legal use, and
what it is served follows from what single requests do to blocks. All three kinds of
request share one condition, `Serves`; they differ in the blocks that are kept and in
the bytes of the new one.

Results:

* `Gains.step`: what a request leaves of a new block and of those beside it.
* `Sound.exists_allocateLayout`, `exists_allocateZeroed`, `exists_reallocate`: the three kinds.
* `Served.reachable`: the sessions are those of legal use.
* `exists_served`: what is served, after every run.
-/

namespace BoundaryTag

variable {G : Type}

/-! ## Layouts -/

namespace Layout

variable {l : Layout}

/-- The layouts that programs can make: sizes are words, and alignments powers of two. -/
structure Proper (l : Layout) : Prop where
  align : l.align.isPowerOfTwo
  size : l.size < Word.limit

/-- Up to a unit, an alignment divides it. -/
theorem Proper.align_dvd (P : l.Proper) (hl : l.align ≤ unitBytes) : l.align ∣ unitBytes := by
  obtain ⟨k, hk⟩ := P.align
  rw [hk] at hl ⊢
  have hle : k ≤ 4 := (Nat.pow_le_pow_iff_right (by decide)).mp (show 2 ^ k ≤ 2 ^ 4 from hl)
  exact Nat.pow_dvd_pow 2 hle

end Layout

/-! ## Actions of the heap -/

namespace Heap

variable [Grower G] {h h₁ h₂ h' : Heap G} {l : Layout} {size address fresh : Nat}

theorem runs_allocateLayout_of_lt (hl : unitBytes < l.align) (h : Heap G) :
    (allocateLayout l).Runs h none h := by
  unfold allocateLayout
  rw [if_pos hl]
  exact Action.runs_pure _ _

theorem runs_allocateLayout {answer : Except AllocError Nat} (hl : l.align ≤ unitBytes)
    (hrun : (allocate l.size).Runs h answer h') :
    (allocateLayout l).Runs h answer.toOption h' := by
  unfold allocateLayout
  rw [if_neg (Nat.not_lt.mpr hl)]
  refine Action.Runs.bind hrun ?_
  cases answer <;> exact Action.runs_pure _ _

theorem runs_allocateZeroed_none (hrun : (allocateLayout l).Runs h none h') :
    (allocateZeroed l).Runs h none h' :=
  Action.Runs.bind hrun (Action.runs_pure _ _)

theorem runs_allocateZeroed (hrun : (allocateLayout l).Runs h (some address) h₁)
    (hstore : (onArena (Arena.storeBytes address (List.replicate l.size 0))).Runs h₁ () h') :
    (allocateZeroed l).Runs h (some address) h' :=
  Action.Runs.bind hrun (Action.Runs.bind hstore (Action.runs_pure _ _))

theorem runs_reallocate_none (hrun : (allocateLayout ⟨size, l.align⟩).Runs h none h') :
    (reallocate address l size).Runs h none h' :=
  Action.Runs.bind hrun (Action.runs_pure _ _)

theorem runs_reallocate {bytes : List UInt8}
    (hrun : (allocateLayout ⟨size, l.align⟩).Runs h (some fresh) h₁)
    (hload : h₁.arena.loadBytes address (min l.size size) = .ok bytes)
    (hstore : (onArena (Arena.storeBytes fresh bytes)).Runs h₁ () h₂)
    (hrelease : (release address).Runs h₂ () h') :
    (reallocate address l size).Runs h (some fresh) h' :=
  Action.Runs.bind hrun <| Action.Runs.bind (Action.runs_read hload) <|
    Action.Runs.bind hstore <| Action.Runs.bind hrelease (Action.runs_pure _ _)

end Heap

/-! ## Sequences of bytes -/

namespace Arena

variable {a : Arena G} {p n : Nat} {bytes : List UInt8}

/-- The bytes stand in memory from the address `p` on. -/
def Reads (a : Arena G) (p : Nat) (bytes : List UInt8) : Prop :=
  ∀ i (hi : i < bytes.length), a.loadByte (p + i) = .ok bytes[i]

theorem Reads.loadBytes (R : a.Reads p bytes) : a.loadBytes p bytes.length = .ok bytes := by
  have hall : ∀ i ∈ List.range bytes.length, a.loadByte (p + i) = .ok (bytes[i]?.getD 0) := by
    intro i hi
    rw [List.mem_range] at hi
    rw [R i hi, List.getElem?_eq_getElem hi, Option.getD_some]
  rw [Arena.loadBytes, mapM_eq_ok hall]
  congr 1
  apply List.ext_getElem (by simp)
  intro i hi hi'
  simp [hi']

/-- Memory that can be read has some bytes. -/
theorem exists_reads (h : ∀ i < n, ∃ v, a.loadByte (p + i) = .ok v) :
    ∃ bytes : List UInt8, bytes.length = n ∧ a.Reads p bytes := by
  have hall : ∀ i, ∃ v, i < n → a.loadByte (p + i) = .ok v := by
    intro i
    by_cases hi : i < n
    · obtain ⟨v, hv⟩ := h i hi
      exact ⟨v, fun _ => hv⟩
    · exact ⟨0, fun hlt => absurd hlt hi⟩
  choose v hv using hall
  refine ⟨(List.range n).map v, by simp, ?_⟩
  intro i hi
  simp only [List.length_map, List.length_range] at hi
  simpa using hv i hi

end Arena

/-! ## Stored bytes -/

namespace Request

variable {p x : Nat} {bytes : List UInt8}

theorem byteFor?_store_add (i : Nat) : (store p bytes).byteFor? (p + i) = bytes[i]? := by
  simp [byteFor?]

/-- A store leaves the bytes beyond those it names. -/
theorem byteFor?_store_eq_none (h : x < p ∨ p + bytes.length ≤ x) :
    (store p bytes).byteFor? x = none := by
  show (if p ≤ x then bytes[x - p]? else none) = none
  split_ifs with hle
  · exact List.getElem?_eq_none (by omega)
  · rfl

end Request

namespace Session

variable {s t u : Session G} {kept kept' : List Block} {b b' : Block} {r : Request}
  {chunks : List Chunk} {lists : FreeLists} {bytes : List UInt8} {size : Nat}

/-! ## A new block -/

theorem Sound.exists_reads (S : s.Sound chunks lists) (hb : b ∈ s.live) {n : Nat}
    (hn : n ≤ b.size) :
    ∃ bytes : List UInt8, bytes.length = n ∧ s.heap.arena.Reads b.address bytes :=
  Arena.exists_reads fun _ hi => S.exists_loadByte hb (Nat.lt_of_lt_of_le hi hn)

/-- Coming from `s`, the program holds the block `b` and those that it has kept: the new block
lies apart from all that were held, and the bytes of those that are kept are as before. -/
structure Gains (s : Session G) (kept : List Block) (b : Block) (t : Session G) : Prop where
  sound : ∃ chunks lists, t.Sound chunks lists
  live : t.live = b :: kept
  subset : ∀ b' ∈ kept, b' ∈ s.live
  apart : ∀ b' ∈ s.live, b.address ≠ b'.address ∧ ∀ x ∈ b.bytes, x ∉ b'.bytes
  bytes : ∀ b' ∈ kept, ∀ x ∈ b'.bytes,
    ∃ v, s.heap.arena.loadByte x = .ok v ∧ t.heap.arena.loadByte x = .ok v

namespace Gains

theorem mem (N : s.Gains kept b t) : b ∈ t.live := N.live ▸ List.mem_cons_self

theorem mk_heap (N : s.Gains kept b t) : Session.mk t.heap (b :: kept) = t := by rw [← N.live]

theorem reads_kept (N : s.Gains kept b t) (hb' : b' ∈ kept) (hle : bytes.length ≤ b'.size)
    (R : s.heap.arena.Reads b'.address bytes) : t.heap.arena.Reads b'.address bytes := by
  intro i hi
  obtain ⟨v, hv, hv'⟩ := N.bytes b' hb' (b'.address + i) ⟨by omega, by omega⟩
  rw [R i hi] at hv
  cases hv
  exact hv'

/-- A plain allocation gains a block beside all others. -/
theorem of_allocate [Grower G] (S : s.Sound chunks lists) (hstep : s.Step (.allocate size) t)
    (hlive : t.live = b :: s.live) : s.Gains s.live b t := by
  obtain ⟨chunks', lists', S', -⟩ := S.of_step hstep
  have hmem : ∀ b' ∈ s.live, b' ∈ t.live := fun b' hb' => hlive ▸ List.mem_cons_of_mem b hb'
  refine ⟨⟨chunks', lists', S'⟩, hlive, fun _ hb' => hb', ?_, ?_⟩
  · intro b' hb'
    have hnodup := S'.nodup_address
    rw [hlive, List.map_cons, List.nodup_cons] at hnodup
    have hne : b.address ≠ b'.address := fun heq => hnodup.1 (heq ▸ List.mem_map_of_mem hb')
    exact ⟨hne, fun x hx => S'.notMem_other (hlive ▸ List.mem_cons_self) (hmem b' hb') hne hx⟩
  · intro b' hb' x hx
    exact S.loadByte_step hstep hb' (hmem b' hb') hx

/-- A request that stores into the new block only, and releases others only. -/
theorem step [Grower G] (N : s.Gains kept b t) (hstep : t.Step r u) (hlive : u.live = b :: kept')
    (hsubset : ∀ b' ∈ kept', b' ∈ kept) (hquiet : ∀ x, x ∉ b.bytes → r.byteFor? x = none) :
    s.Gains kept' b u := by
  obtain ⟨chunks, lists, S⟩ := N.sound
  obtain ⟨chunks', lists', S', -⟩ := S.of_step hstep
  refine ⟨⟨chunks', lists', S'⟩, hlive, fun b' hb' => N.subset b' (hsubset b' hb'), N.apart, ?_⟩
  intro b' hb' x hx
  obtain ⟨v, hv, hv'⟩ := N.bytes b' (hsubset b' hb') x hx
  have hold : b' ∈ t.live := N.live ▸ List.mem_cons_of_mem b (hsubset b' hb')
  have hnew : b' ∈ u.live := hlive ▸ List.mem_cons_of_mem b hb'
  obtain ⟨w, hw, hw'⟩ := S.loadByte_step hstep hold hnew hx
  rw [hv'] at hw
  cases hw
  have hout : x ∉ b.bytes := fun hin => (N.apart b' (N.subset b' (hsubset b' hb'))).2 x hin hx
  rw [hquiet x hout] at hw'
  exact ⟨v, hv, hw'⟩

/-- The bytes of the new block after a request that stores nothing. -/
theorem reads_step [Grower G] (N : s.Gains kept b t) (N' : s.Gains kept' b u)
    (hstep : t.Step r u) (hquiet : ∀ x, r.byteFor? x = none) (hle : bytes.length ≤ b.size)
    (R : t.heap.arena.Reads b.address bytes) : u.heap.arena.Reads b.address bytes := by
  obtain ⟨chunks, lists, S⟩ := N.sound
  intro i hi
  obtain ⟨v, hv, hv'⟩ :=
    S.loadByte_step hstep N.mem N'.mem (x := b.address + i) ⟨by omega, by omega⟩
  rw [hquiet] at hv'
  rw [R i hi] at hv
  cases hv
  exact hv'

/-- A store into the new block is read back. -/
theorem exists_store [Grower G] (N : s.Gains kept b t) (hle : bytes.length ≤ b.size) :
    ∃ u, t.Step (.store b.address bytes) u ∧
      (Heap.onArena (Arena.storeBytes b.address bytes)).Runs t.heap () u.heap ∧
      s.Gains kept b u ∧ u.heap.arena.Reads b.address bytes := by
  obtain ⟨chunks, lists, S⟩ := N.sound
  have hallows : t.Allows (.store b.address bytes) := ⟨b, N.mem, Nat.le_refl _, by omega⟩
  obtain ⟨a, hrun, -⟩ := S.exists_store hallows
  have hstep := Step.of_runs hallows hrun
  have N' : s.Gains kept b { t with heap := t.heap.withArena a } := by
    refine N.step hstep N.live (fun _ hb' => hb') fun x hx => ?_
    refine Request.byteFor?_store_eq_none ?_
    by_contra hin
    exact hx ⟨by omega, by omega⟩
  refine ⟨_, hstep, heap_store hrun, N', ?_⟩
  intro i hi
  obtain ⟨v, -, hv⟩ :=
    S.loadByte_step hstep N.mem N'.mem (x := b.address + i) ⟨by omega, by omega⟩
  rw [Request.byteFor?_store_add, List.getElem?_eq_getElem hi] at hv
  exact hv

/-- Another block is given back. -/
theorem exists_release [Grower G] (N : s.Gains kept b t) (hb' : b' ∈ kept) :
    ∃ u, t.Step (.release b'.address) u ∧ (Heap.release b'.address).Runs t.heap () u.heap ∧
      s.Gains (kept.filter (·.address ≠ b'.address)) b u := by
  obtain ⟨chunks, lists, S⟩ := N.sound
  have hmem : b' ∈ t.live := N.live ▸ List.mem_cons_of_mem b hb'
  obtain ⟨answer, u, -, -, hrun, -, -⟩ := S.releaseBlock hmem
  have hallows : t.Allows (.release b'.address) := .inr ⟨b', hmem, rfl⟩
  have hstep := Step.of_runs hallows hrun
  have hheap := heap_release hrun
  have hlive : u.live = b :: kept.filter (·.address ≠ b'.address) := by
    obtain ⟨log, hperform⟩ := hrun #[]
    obtain ⟨-, hu⟩ := (runs_release hheap).unique hperform
    have hne : b.address ≠ b'.address := (N.apart b' (N.subset b' hb')).1
    rw [hu]
    show t.live.filter (·.address ≠ b'.address) = _
    rw [N.live, List.filter_cons_of_pos (by simpa using hne)]
  refine ⟨u, hstep, hheap, N.step hstep hlive ?_ fun _ _ => rfl⟩
  exact fun d hd => (List.mem_filter.mp hd).1

end Gains

/-! ## Requests -/

/-- What a program asks for with an alignment. -/
inductive LayoutRequest where
  | allocate (l : Layout)
  | allocateZeroed (l : Layout)
  /-- Moves the block at `address` into a new one of `size` bytes. -/
  | reallocate (address : Nat) (l : Layout) (size : Nat)
deriving DecidableEq, Repr

/-- The session with a block more, if there is one. -/
def hold (s : Session G) (size : Nat) : Option Nat → Session G
  | some address => { s with live := ⟨address, size⟩ :: s.live }
  | none => s

/-- The session with a block in the place of the one at `address`, if there is one. -/
def exchange (s : Session G) (address size : Nat) : Option Nat → Session G
  | some fresh => (s.giveBack address).hold size (some fresh)
  | none => s

/-- Carries out a request with an alignment; the address of the new block, if there is one. -/
def serve [Grower G] : LayoutRequest → Action (Session G) (Option Nat)
  | .allocate l => do
    let answer ← onHeap (Heap.allocateLayout l)
    Action.change (·.hold l.size answer)
    return answer
  | .allocateZeroed l => do
    let answer ← onHeap (Heap.allocateZeroed l)
    Action.change (·.hold l.size answer)
    return answer
  | .reallocate address l size => do
    let answer ← onHeap (Heap.reallocate address l size)
    Action.change (·.exchange address size answer)
    return answer

/-- The requests that are legal use: a block is moved that the program holds. -/
def Permits (s : Session G) : LayoutRequest → Prop
  | .allocate l => l.Proper
  | .allocateZeroed l => l.Proper
  | .reallocate address l size => ⟨address, l.size⟩ ∈ s.live ∧ (Layout.mk size l.align).Proper

/-- The sessions that legal use leads to, with and without alignments. -/
inductive Served [Grower G] (config : Config) (grower : G) : Session G → Prop where
  | start : Served config grower (start config grower)
  | perform {s t : Session G} {r : Request} :
    Served config grower s → s.Step r t → Served config grower t
  | serve {s t : Session G} {q : LayoutRequest} {answer : Option Nat} {log log' : Array Event} :
    Served config grower s → s.Permits q → serve q ⟨s, log⟩ = .ok answer ⟨t, log'⟩ →
      Served config grower t

section Serve

variable [Grower G] {l : Layout} {answer : Option Nat} {address : Nat} {h' : Heap G}

theorem runs_serve_allocate (hrun : (Heap.allocateLayout l).Runs s.heap answer h') :
    (serve (.allocate l)).Runs s answer ({ s with heap := h' }.hold l.size answer) :=
  Action.Runs.bind (runs_onHeap hrun) <|
    Action.Runs.bind (Action.runs_change _ _) (Action.runs_pure _ _)

theorem runs_serve_allocateZeroed (hrun : (Heap.allocateZeroed l).Runs s.heap answer h') :
    (serve (.allocateZeroed l)).Runs s answer ({ s with heap := h' }.hold l.size answer) :=
  Action.Runs.bind (runs_onHeap hrun) <|
    Action.Runs.bind (Action.runs_change _ _) (Action.runs_pure _ _)

theorem runs_serve_reallocate (hrun : (Heap.reallocate address l size).Runs s.heap answer h') :
    (serve (.reallocate address l size)).Runs s answer
      ({ s with heap := h' }.exchange address size answer) :=
  Action.Runs.bind (runs_onHeap hrun) <|
    Action.Runs.bind (Action.runs_change _ _) (Action.runs_pure _ _)

end Serve

/-! ## What is served -/

/-- The program has asked for a block of layout `l`, keeping the blocks `kept` if it is given. -/
structure Serves [Grower G] (s : Session G) (l : Layout) (kept : List Block)
    (answer : Option Nat) (t : Session G) : Prop where
  /-- Plain requests lead to the same session. -/
  run : ∃ rs, s.Run rs t
  refused : unitBytes < l.align → answer = none ∧ t = s
  /-- Up to a unit, the answer is that of a plain allocation. -/
  plain : l.align ≤ unitBytes → ∃ answer' h', (Heap.allocate l.size).Runs s.heap answer' h' ∧
    answer = answer'.toOption
  /-- Without a new block all is as before, but that the grower may have been asked, once. -/
  failed : answer = none → ∃ requests : List Nat, requests.length ≤ 1 ∧
    t = s.withGrower (Grower.after s.heap.arena.grower requests)
  gains : ∀ address, answer = some address → l.align ∣ address ∧ s.Gains kept ⟨address, l.size⟩ t

namespace Serves

variable [Grower G] {l : Layout} {answer : Option Nat} {address : Nat} {rs : List Request}

/-- Nothing is done for an alignment that is too large. -/
theorem of_lt (hl : unitBytes < l.align) (kept : List Block) : s.Serves l kept none s where
  run := ⟨[], Run.nil s⟩
  refused _ := ⟨rfl, rfl⟩
  plain hle := absurd hl (Nat.not_lt.mpr hle)
  failed _ := ⟨[], Nat.zero_le 1, rfl⟩
  gains _ h := nomatch h

/-- What an allocation leaves that fails. -/
theorem of_error {e : AllocError} {h' : Heap G} (W : s.heap.WellFormed chunks lists)
    (hl : l.align ≤ unitBytes) (hrun : (Heap.allocate l.size).Runs s.heap (.error e) h')
    (O : s.heap.Outcome chunks lists l.size (.error e) h')
    (hstep : s.Step (.allocate l.size) { s with heap := h' }) :
    s.Serves l kept none { s with heap := h' } where
  run := ⟨_, Run.cons hstep (Run.nil _)⟩
  refused hlt := absurd hl (Nat.not_le.mpr hlt)
  plain _ := ⟨_, _, hrun, rfl⟩
  failed _ := by
    refine ⟨_, s.heap.length_requests_le l.size, ?_⟩
    rw [withGrower, ← O.grower_eq W, ← O.eq_of_error]
  gains _ h := nomatch h

/-- What an allocation leaves that gives a block: the alignment of all blocks is a unit. -/
theorem of_ok {h' : Heap G} (S : s.Sound chunks lists) (P : l.Proper) (hl : l.align ≤ unitBytes)
    (hrun : (Heap.allocate l.size).Runs s.heap (.ok address) h')
    (hstep : s.Step (.allocate l.size) t) (hlive : t.live = ⟨address, l.size⟩ :: s.live) :
    s.Serves l s.live (some address) t where
  run := ⟨_, Run.cons hstep (Run.nil _)⟩
  refused hlt := absurd hl (Nat.not_le.mpr hlt)
  plain _ := ⟨_, _, hrun, rfl⟩
  failed h := nomatch h
  gains address' haddress := by
    cases haddress
    have N := Gains.of_allocate S hstep hlive
    obtain ⟨chunks', lists', S'⟩ := N.sound
    have haligned := Nat.dvd_of_mod_eq_zero (S'.address_aligned N.mem)
    exact ⟨(P.align_dvd hl).trans haligned, N⟩

/-- Without a new block no block is given back. -/
theorem of_none (V : s.Serves l kept none t) (kept' : List Block) : s.Serves l kept' none t :=
  ⟨V.run, V.refused, V.plain, V.failed, fun _ h => nomatch h⟩

/-- The new block is worked on by more requests. -/
theorem append (V : s.Serves l kept (some address) t) (hrun : t.Run rs u)
    (N : s.Gains kept' ⟨address, l.size⟩ u) : s.Serves l kept' (some address) u := by
  obtain ⟨rs', hrun'⟩ := V.run
  refine ⟨⟨_, hrun'.append hrun⟩, ?_, V.plain, fun h => (nomatch h), ?_⟩
  · intro hl
    exact nomatch (V.refused hl).1
  · intro address' haddress
    cases haddress
    exact ⟨(V.gains address rfl).1, N⟩

end Serves

namespace Sound

variable [Grower G] {l : Layout}

theorem exists_allocateLayout (S : s.Sound chunks lists) (P : l.Proper) :
    ∃ answer h', (Heap.allocateLayout l).Runs s.heap answer h' ∧
      s.Serves l s.live answer ({ s with heap := h' }.hold l.size answer) := by
  by_cases hl : unitBytes < l.align
  · exact ⟨none, s.heap, Heap.runs_allocateLayout_of_lt hl _, .of_lt hl _⟩
  · rw [Nat.not_lt] at hl
    obtain ⟨answer, h', hrun, O⟩ := S.wellFormed.exists_outcome l.size
    have hstep := Step.of_runs (s := s) (r := .allocate l.size) P.size (runs_allocate hrun)
    refine ⟨answer.toOption, h', Heap.runs_allocateLayout hl hrun, ?_⟩
    cases answer with
    | error e => exact .of_error S.wellFormed hl hrun O hstep
    | ok address => exact .of_ok S P hl hrun hstep rfl

/-- The bytes of a zeroed block are zero, whatever they were before. -/
theorem exists_allocateZeroed (S : s.Sound chunks lists) (P : l.Proper) :
    ∃ answer h', (Heap.allocateZeroed l).Runs s.heap answer h' ∧
      s.Serves l s.live answer ({ s with heap := h' }.hold l.size answer) ∧
      ∀ address, answer = some address →
        h'.arena.Reads address (List.replicate l.size 0) := by
  obtain ⟨answer, h₁, hrun, V⟩ := S.exists_allocateLayout P
  cases answer with
  | none => exact ⟨none, h₁, Heap.runs_allocateZeroed_none hrun, V, fun _ h => nomatch h⟩
  | some address =>
    obtain ⟨-, N⟩ := V.gains address rfl
    obtain ⟨u, hstep, hstore, N', R⟩ :=
      N.exists_store (show (List.replicate l.size 0).length ≤ l.size by simp)
    have hu : { s with heap := u.heap }.hold l.size (some address) = u := N'.mk_heap
    refine ⟨some address, u.heap, Heap.runs_allocateZeroed hrun hstore, ?_, ?_⟩
    · rw [hu]
      exact V.append (Run.cons hstep (Run.nil u)) N'
    · intro address' haddress
      cases haddress
      exact R

/-- A block that is moved takes its first bytes along. -/
theorem exists_reallocate (S : s.Sound chunks lists) (hb : b ∈ s.live) {size align : Nat}
    (P : (Layout.mk size align).Proper) :
    ∃ answer h', (Heap.reallocate b.address ⟨b.size, align⟩ size).Runs s.heap answer h' ∧
      s.Serves ⟨size, align⟩ (s.giveBack b.address).live answer
        ({ s with heap := h' }.exchange b.address size answer) ∧
      ∀ fresh, answer = some fresh → ∃ bytes : List UInt8, bytes.length = min b.size size ∧
        s.heap.arena.Reads b.address bytes ∧ h'.arena.Reads fresh bytes := by
  obtain ⟨answer, h₁, hrun, V⟩ := S.exists_allocateLayout P
  cases answer with
  | none =>
    exact ⟨none, h₁, Heap.runs_reallocate_none (l := ⟨b.size, align⟩) hrun, V.of_none _,
      fun _ h => nomatch h⟩
  | some fresh =>
    obtain ⟨bytes, hlength, R⟩ := S.exists_reads hb (Nat.min_le_left b.size size)
    obtain ⟨-, N₁⟩ := V.gains fresh rfl
    have R₁ := N₁.reads_kept hb (by omega) R
    have hle : bytes.length ≤ size := hlength ▸ Nat.min_le_right b.size size
    obtain ⟨t₂, hstep₂, hstore, N₂, R₂⟩ := N₁.exists_store hle
    obtain ⟨u, hstep₃, hrelease, N₃⟩ := N₂.exists_release hb
    have R₃ := N₂.reads_step N₃ hstep₃ (fun _ => rfl) hle R₂
    have hu : { s with heap := u.heap }.exchange b.address size (some fresh) = u := N₃.mk_heap
    refine ⟨some fresh, u.heap, ?_, ?_, ?_⟩
    · refine Heap.runs_reallocate (l := ⟨b.size, align⟩) hrun ?_ hstore hrelease
      exact hlength ▸ R₁.loadBytes
    · rw [hu]
      exact V.append (Run.cons hstep₂ (Run.cons hstep₃ (Run.nil u))) N₃
    · intro fresh' hfresh
      cases hfresh
      exact ⟨bytes, hlength, R, R₃⟩

/-- A request with an alignment succeeds, and plain requests do the same. -/
theorem exists_serve (S : s.Sound chunks lists) {q : LayoutRequest} (hq : s.Permits q) :
    ∃ answer t rs, (serve q).Runs s answer t ∧ s.Run rs t := by
  cases q with
  | allocate l =>
    obtain ⟨answer, h', hrun, V⟩ := S.exists_allocateLayout hq
    obtain ⟨rs, hrs⟩ := V.run
    exact ⟨answer, _, rs, runs_serve_allocate hrun, hrs⟩
  | allocateZeroed l =>
    obtain ⟨answer, h', hrun, V, -⟩ := S.exists_allocateZeroed hq
    obtain ⟨rs, hrs⟩ := V.run
    exact ⟨answer, _, rs, runs_serve_allocateZeroed hrun, hrs⟩
  | reallocate address l size =>
    obtain ⟨hb, P⟩ := hq
    obtain ⟨answer, h', hrun, V, -⟩ := S.exists_reallocate hb P
    obtain ⟨rs, hrs⟩ := V.run
    exact ⟨answer, _, rs, runs_serve_reallocate hrun, hrs⟩

end Sound

/-! ## Every session of legal use -/

variable [Grower G] {config : Config} {grower : G}

theorem Served.of_run {rs : List Request} (h : Served config grower s) (hrun : s.Run rs t) :
    Served config grower t := by
  induction hrun with
  | nil => exact h
  | cons hstep _ ih => exact ih (h.perform hstep)

/-- Alignments lead to no other sessions. -/
theorem Served.reachable (h : Served config grower s) : Reachable config grower s := by
  induction h with
  | start => exact ⟨[], Run.nil _⟩
  | perform _ hstep ih => exact ih.run (Run.cons hstep (Run.nil _))
  | serve _ hq hserve ih =>
    obtain ⟨chunks, lists, S, -⟩ := sound_of_reachable ih
    obtain ⟨answer, t, rs, hrun, hrs⟩ := S.exists_serve hq
    obtain ⟨-, rfl⟩ := hrun.unique hserve
    exact ih.run hrs

/-- After every run of legal requests, with and without alignments: each request with an alignment
is carried out. It is refused where the alignment is larger than a unit, and otherwise there is a
new block where a plain allocation gives one; the block lies apart from all others, which stay as
they are. A block that is asked to be zero is so, and a block that is moved takes its first bytes
along and is no longer held. -/
theorem exists_served (h : Served config grower s) :
    (∀ l : Layout, l.Proper → ∃ answer t, (serve (.allocate l)).Runs s answer t ∧
      s.Serves l s.live answer t) ∧
    (∀ l : Layout, l.Proper → ∃ answer t, (serve (.allocateZeroed l)).Runs s answer t ∧
      s.Serves l s.live answer t ∧ ∀ address, answer = some address →
        t.heap.arena.Reads address (List.replicate l.size 0)) ∧
    (∀ b ∈ s.live, ∀ size align, (Layout.mk size align).Proper → ∃ answer t,
      (serve (.reallocate b.address ⟨b.size, align⟩ size)).Runs s answer t ∧
      s.Serves ⟨size, align⟩ (s.giveBack b.address).live answer t ∧
      ∀ fresh, answer = some fresh → ∃ bytes : List UInt8, bytes.length = min b.size size ∧
        s.heap.arena.Reads b.address bytes ∧ t.heap.arena.Reads fresh bytes) := by
  obtain ⟨chunks, lists, S, -⟩ := sound_of_reachable h.reachable
  refine ⟨?_, ?_, ?_⟩
  · intro l P
    obtain ⟨answer, h', hrun, V⟩ := S.exists_allocateLayout P
    exact ⟨answer, _, runs_serve_allocate hrun, V⟩
  · intro l P
    obtain ⟨answer, h', hrun, V, hzero⟩ := S.exists_allocateZeroed P
    refine ⟨answer, _, runs_serve_allocateZeroed hrun, V, ?_⟩
    rintro address rfl
    exact hzero address rfl
  · intro b hb size align P
    obtain ⟨answer, h', hrun, V, hbytes⟩ := S.exists_reallocate hb P
    refine ⟨answer, _, runs_serve_reallocate hrun, V, ?_⟩
    rintro fresh rfl
    exact hbytes fresh rfl

set_option maxRecDepth 100000 in
/-- The block at 4112 becomes larger, and its twenty bytes are found at 4208. -/
theorem exists_served_small : ∃ s t, Served smallBins smallBuffer s ∧
    s.live = [⟨4304, 40⟩, ⟨4112, 20⟩] ∧
    (serve (.reallocate 4112 ⟨20, 8⟩ 50)).Runs s (some 4208) t ∧
    t.live = [⟨4208, 50⟩, ⟨4304, 40⟩] ∧ ∃ bytes : List UInt8, bytes.length = 20 ∧
      s.heap.arena.Reads 4112 bytes ∧ t.heap.arena.Reads 4208 bytes := by
  have hplay : ((start smallBins smallBuffer).play [.allocate 20, .allocate 5, .allocate 40,
      .release 4256, .store 4115 [1, 2, 3]]).map (fun s => (s.live,
        match serve (.reallocate 4112 ⟨20, 8⟩ 50) ⟨s, #[]⟩ with
        | .ok answer _ => answer
        | .error _ _ => none)) = some ([⟨4304, 40⟩, ⟨4112, 20⟩], some 4208) := by
    decide +kernel
  obtain ⟨s, hs, hseen⟩ := Option.map_eq_some_iff.mp hplay
  obtain ⟨hlive, hanswer⟩ := Prod.mk.inj hseen
  have hserved : Served smallBins smallBuffer s := .of_run .start (run_of_play hs)
  obtain ⟨-, -, hmove⟩ := exists_served hserved
  obtain ⟨answer, t, hrun, V, hbytes⟩ := hmove ⟨4112, 20⟩ (by simp [hlive]) 50 8
    ⟨⟨3, rfl⟩, by decide⟩
  obtain ⟨log, hserve⟩ := hrun #[]
  rw [hserve] at hanswer
  subst hanswer
  obtain ⟨-, N⟩ := V.gains 4208 rfl
  refine ⟨s, t, hserved, hlive, hrun, ?_, hbytes 4208 rfl⟩
  rw [N.live, giveBack, hlive]
  rfl

end Session

end BoundaryTag
