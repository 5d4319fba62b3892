import BoundaryTag.Proofs.LegalUse
import BoundaryTag.Proofs.Lending
import BoundaryTag.Proofs.Rounding

/-!
# A break of one's own

As long as nobody else moves the program break, what one grower grants is a single
range. It begins at the first unit boundary from the break as it was found, and each
grant begins where the one before ended, whatever requests the system turns down. A
request that fails leaves the break, or has padded it, which happens once. So a heap
that grows by such a grower never meets a grant that it cannot use.

Results:

* `alignUp_eq_boundary`, `sub_alignUp_eq_padding`: the boundary and the padding, by
  rounding in words.
* `Moved.grow`: what one request does, and `Moved.call`, as it is seen from outside.
* `Arena.Sole.growth_cases`: growth ends well or for lack of memory.
* `grants_one_range`: every sequence of requests, and every heap.
-/

namespace BoundaryTag

namespace ProgramBreak

variable {s : DataSegment} {g : ProgramBreak × DataSegment} {total bytes : Nat}

/-- The first unit boundary from an address on. -/
def boundary (address : Nat) : Nat := address + padding address

theorem isLeast_boundary (address : Nat) :
    IsLeast {n | address ≤ n ∧ n % unitBytes = 0} (boundary address) := by
  unfold boundary padding unitBytes
  refine ⟨⟨Nat.le_add_right _ _, by omega⟩, ?_⟩
  rintro n ⟨hle, hn⟩
  omega

theorem boundary_lt (address : Nat) : boundary address < address + unitBytes := by
  unfold boundary padding unitBytes
  omega

/-- Rounding up a break does not leave the words. -/
theorem alignUp_eq_boundary {address : Nat} (h : address < Word.signedLimit) :
    alignUp address unitBytes = .ok (boundary address) := by
  have hfit : address + 2 ^ 4 < Word.limit := by
    unfold Word.signedLimit at h
    unfold Word.limit
    omega
  have hround : 2 ^ 4 * (address ⌈/⌉ 2 ^ 4) = boundary address := by
    rw [Nat.ceilDiv_eq_add_pred_div]
    unfold boundary padding unitBytes
    omega
  show alignUp address (2 ^ 4) = _
  rw [alignUp_eq, if_pos hfit, hround]

/-- The padding is what rounding up adds to a break. -/
theorem sub_alignUp_eq_padding {address : Nat} (h : address < Word.signedLimit) :
    (alignUp address unitBytes).bind (Word.sub · address) = .ok (padding address) := by
  rw [alignUp_eq_boundary h]
  show Word.sub (address + padding address) address = _
  rw [Word.sub_eq_ok (Nat.le_add_right _ _), Nat.add_sub_cancel_left]

/-! ## One request -/

/-- The grower has granted `total` bytes from the boundary on and nobody else has moved the break,
which was that of `s` at first. -/
structure Moved (s : DataSegment) (total : Nat) (g : ProgramBreak × DataSegment) : Prop where
  aligned : g.1.aligned = true → g.2.current = boundary s.current + total
  unaligned : g.1.aligned = false → g.2.current = s.current ∧ total = 0

namespace Moved

theorem fresh (s : DataSegment) : Moved s 0 (ProgramBreak.fresh, s) := ⟨nofun, fun _ => ⟨rfl, rfl⟩⟩

/-- The padding brings the break to the boundary, or leaves it. -/
theorem align (M : Moved s total g) : ∃ t notes,
    g.1.align g.2 = (true, t, notes) ∧ t.current = boundary s.current + total ∨
      g.1.align g.2 = (false, t, notes) ∧ g.1.aligned = false ∧ t.current = s.current := by
  unfold ProgramBreak.align
  by_cases haligned : g.1.aligned = true
  · rw [if_pos haligned]
    exact ⟨_, _, .inl ⟨rfl, M.aligned haligned⟩⟩
  rw [if_neg haligned]
  rw [Bool.not_eq_true] at haligned
  obtain ⟨hcurrent, rfl⟩ := M.unaligned haligned
  rcases hfirst : g.2.bump 0 with ⟨_ | current, t⟩
  · have hkept := (DataSegment.bump_eq_none hfirst).1
    exact ⟨_, _, .inr ⟨rfl, haligned, hkept.trans hcurrent⟩⟩
  obtain ⟨rfl, hkept, -⟩ := DataSegment.bump_eq_some hfirst
  rw [hcurrent] at hkept ⊢
  simp only
  by_cases hpad : padding s.current = 0
  · rw [if_pos hpad]
    exact ⟨_, _, .inl ⟨rfl, by rw [boundary, hpad]; exact hkept⟩⟩
  rw [if_neg hpad]
  rcases hsecond : t.bump (padding s.current) with ⟨_ | _, u⟩
  · have hkept' := (DataSegment.bump_eq_none hsecond).1
    exact ⟨_, _, .inr ⟨rfl, haligned, hkept'.trans hkept⟩⟩
  · obtain ⟨-, hmoved, -⟩ := DataSegment.bump_eq_some hsecond
    exact ⟨_, _, .inl ⟨rfl, by rw [hmoved, hkept]; rfl⟩⟩

/-- A request is granted where the last grant ended, or fails. Once the break is at a boundary it
stays at one. -/
theorem grow (M : Moved s total g) (bytes : Nat) :
    (g.1.aligned = true → (Grower.grow g bytes).grower.1.aligned = true) ∧
      (Grower.answerTo g bytes = .ok (boundary s.current + total) ∧
          Moved s (total + bytes) (Grower.grow g bytes).grower ∨
        Grower.answerTo g bytes = .error (.exhausted bytes) ∧
          Moved s total (Grower.grow g bytes).grower) := by
  show (_ → (ProgramBreak.grow g.1 g.2 bytes).grower.1.aligned = true) ∧
    ((ProgramBreak.grow g.1 g.2 bytes).answer.map Grant.start = _ ∧
        Moved s _ (ProgramBreak.grow g.1 g.2 bytes).grower ∨
      (ProgramBreak.grow g.1 g.2 bytes).answer.map Grant.start = _ ∧
        Moved s _ (ProgramBreak.grow g.1 g.2 bytes).grower)
  unfold ProgramBreak.grow
  obtain ⟨t, notes, ⟨halign, hcurrent⟩ | ⟨halign, hflag, hcurrent⟩⟩ := M.align
  · rw [halign]
    simp only
    split
    · rename_i u hbump
      have hkept := (DataSegment.bump_eq_none hbump).1
      exact ⟨fun _ => rfl, .inr ⟨rfl, fun _ => hkept.trans hcurrent, nofun⟩⟩
    · rename_i previous u hbump
      obtain ⟨rfl, hmoved, -⟩ := DataSegment.bump_eq_some hbump
      refine ⟨fun _ => rfl, .inl ⟨congrArg Except.ok hcurrent, fun _ => ?_, nofun⟩⟩
      rw [hmoved, hcurrent, Nat.add_assoc]
  · rw [halign]
    obtain ⟨-, rfl⟩ := M.unaligned hflag
    refine ⟨fun haligned => absurd haligned (by rw [hflag]; exact Bool.false_ne_true), ?_⟩
    exact .inr ⟨rfl, fun haligned => absurd haligned (by rw [hflag]; exact Bool.false_ne_true),
      fun _ => ⟨hcurrent, rfl⟩⟩

end Moved

/-! ## Sequences of requests -/

/-- A request to the grower as it is seen from outside: the answer, and the break before and after
it. -/
structure Call where
  bytes : Nat
  answer : Except GrowError Nat
  before : Nat
  after : Nat

namespace Call

/-- The bytes that were granted. -/
def granted (c : Call) : Nat :=
  match c.answer with
  | .ok _ => c.bytes
  | .error _ => 0

/-- The range that was granted: its start and its length. -/
def range? (c : Call) : Option (Nat × Nat) :=
  match c.answer with
  | .ok start => some (start, c.bytes)
  | .error _ => none

/-- The break was moved by more than was granted. -/
def Pads (c : Call) : Prop := c.after ≠ c.before + c.granted

instance (c : Call) : Decidable c.Pads := inferInstanceAs (Decidable (_ ≠ _))

end Call

/-- One request. -/
def call (g : ProgramBreak × DataSegment) (bytes : Nat) : Call :=
  ⟨bytes, Grower.answerTo g bytes, g.2.current, (Grower.grow g bytes).grower.2.current⟩

/-- Requests after each other. -/
def calls (g : ProgramBreak × DataSegment) : List Nat → List Call
  | [] => []
  | bytes :: requests => call g bytes :: calls (Grower.grow g bytes).grower requests

/-- The granted ranges lie behind each other from address `p` on. -/
def Contiguous : Nat → List (Nat × Nat) → Prop
  | _, [] => True
  | p, (start, length) :: rest => start = p ∧ Contiguous (p + length) rest

/-- What a request does that may move the break of `s`. -/
structure Call.Fair (s : DataSegment) (c : Call) : Prop where
  /-- If it fails then there is not so much. The break is left, or padded when nothing has moved it
  yet. -/
  failed : ∀ e, c.answer = .error e → e = .exhausted c.bytes ∧
    (c.after = c.before ∨ c.before = s.current ∧ c.after = boundary s.current)
  /-- What is granted ends at the break. -/
  granted : ∀ start, c.answer = .ok start → c.after = start + c.bytes
  /-- What is no signed word is not granted. -/
  word : Word.signedLimit ≤ c.bytes → c.answer = .error (.exhausted c.bytes)

namespace Moved

variable (M : Moved s total g)

include M

/-- A request takes what it grants. -/
theorem after (bytes : Nat) :
    Moved s (total + (call g bytes).granted) (Grower.grow g bytes).grower := by
  obtain ⟨-, ⟨hanswer, M'⟩ | ⟨hanswer, M'⟩⟩ := M.grow bytes
  · have hgranted : (call g bytes).granted = bytes := by simp only [Call.granted, call, hanswer]
    rwa [hgranted]
  · have hgranted : (call g bytes).granted = 0 := by simp only [Call.granted, call, hanswer]
    rwa [hgranted]

/-- The break is moved by what is granted, unless this is the first time that it is seen at a
boundary. -/
theorem moved (bytes : Nat) :
    (call g bytes).after = (call g bytes).before + (call g bytes).granted ∨
    (g.1.aligned = false ∧ (Grower.grow g bytes).grower.1.aligned = true) ∧
      (call g bytes).before = s.current ∧
        (call g bytes).after = boundary s.current + (call g bytes).granted := by
  have M' := M.after bytes
  show (Grower.grow g bytes).grower.2.current = g.2.current + _ ∨
    _ ∧ g.2.current = _ ∧ (Grower.grow g bytes).grower.2.current = _
  cases hflag : g.1.aligned with
  | true =>
    have hcurrent := M'.aligned ((M.grow bytes).1 hflag)
    rw [hcurrent, M.aligned hflag, Nat.add_assoc]
    exact .inl rfl
  | false =>
    obtain ⟨hcurrent, rfl⟩ := M.unaligned hflag
    cases hflag' : (Grower.grow g bytes).grower.1.aligned with
    | true =>
      have hcurrent' := M'.aligned hflag'
      rw [Nat.zero_add] at hcurrent'
      exact .inr ⟨⟨rfl, rfl⟩, hcurrent, hcurrent'⟩
    | false =>
      obtain ⟨hcurrent', hnone⟩ := M'.unaligned hflag'
      rw [hcurrent, hcurrent']
      exact .inl (by omega)

theorem fair (bytes : Nat) : (call g bytes).Fair s := by
  have hmoved := M.moved bytes
  obtain ⟨-, ⟨hanswer, M'⟩ | ⟨hanswer, -⟩⟩ := M.grow bytes
  · have hcurrent := (current_of_answer hanswer).2
    refine ⟨fun e he => ?_, fun start hstart => ?_, fun hword => ?_⟩
    · rw [call, hanswer] at he
      cases he
    · rw [call, hanswer] at hstart
      cases hstart
      exact hcurrent
    · have hlt := (Grower.after g [bytes]).2.current_lt
      rw [hcurrent] at hlt
      exact absurd hlt (Nat.not_lt.mpr (hword.trans (Nat.le_add_left _ _)))
  · have hgranted : (call g bytes).granted = 0 := by simp only [Call.granted, call, hanswer]
    rw [hgranted, Nat.add_zero, Nat.add_zero] at hmoved
    refine ⟨fun e he => ⟨?_, hmoved.imp_right And.right⟩, fun start hstart => ?_, fun _ => hanswer⟩
    · rw [call, hanswer] at he
      cases he
      rfl
    · rw [call, hanswer] at hstart
      cases hstart

theorem contiguous (requests : List Nat) :
    Contiguous (boundary s.current + total) ((calls g requests).filterMap Call.range?) := by
  induction requests generalizing g total with
  | nil => trivial
  | cons bytes requests ih =>
    obtain ⟨-, ⟨hanswer, M'⟩ | ⟨hanswer, M'⟩⟩ := M.grow bytes
    · have hrange : (call g bytes).range? = some (boundary s.current + total, bytes) := by
        simp only [Call.range?, call, hanswer]
      have hrest := ih M'
      rw [← Nat.add_assoc] at hrest
      rw [calls, List.filterMap_cons_some hrange]
      exact ⟨rfl, hrest⟩
    · have hrange : (call g bytes).range? = none := by simp only [Call.range?, call, hanswer]
      rw [calls, List.filterMap_cons_none hrange]
      exact ih M'

theorem fair_of_mem {requests : List Nat} {c : Call} (hc : c ∈ calls g requests) : c.Fair s := by
  induction requests generalizing g total with
  | nil => cases hc
  | cons bytes requests ih =>
    rcases List.mem_cons.mp hc with rfl | hc
    · exact M.fair bytes
    · exact ih (M.after bytes) hc

/-- There is no padding behind the first time that the break is at a boundary. -/
theorem length_pads (requests : List Nat) :
    ((calls g requests).filter fun c => c.Pads).length ≤ if g.1.aligned then 0 else 1 := by
  induction requests generalizing g total with
  | nil => exact Nat.zero_le _
  | cons bytes requests ih =>
    have hrest := ih (M.after bytes)
    rw [calls, List.filter_cons]
    rcases M.moved bytes with hsame | ⟨⟨hflag, hflag'⟩, -⟩
    · have hpads : ¬ (call g bytes).Pads := not_not.mpr hsame
      rw [if_neg (by simpa using hpads)]
      cases hflag : g.1.aligned with
      | true =>
        rw [(M.grow bytes).1 hflag] at hrest
        exact hrest
      | false => exact hrest.trans (by split <;> decide)
    · rw [hflag'] at hrest
      have hnone := List.eq_nil_of_length_eq_zero (Nat.le_zero.mp hrest)
      rw [hflag, hnone]
      split <;> simp

end Moved

end ProgramBreak

/-! ## Heaps -/

open ProgramBreak

namespace Arena

variable {a b : Arena (ProgramBreak × DataSegment)} {s : DataSegment} {n : Nat}

/-- The arena has all that was granted to it, and nobody else has moved the break, which was that
of `s` at first. -/
structure Sole (a : Arena (ProgramBreak × DataSegment)) (s : DataSegment) : Prop where
  moved : Moved s (a.slots.size * unitBytes) a.grower
  start : ∀ base ∈ a.start, base = boundary s.current

namespace Sole

theorem empty (s : DataSegment) : (Arena.empty (ProgramBreak.fresh, s)).Sole s :=
  ⟨Moved.fresh s, by simp [Arena.empty]⟩

theorem congr (S : a.Sole s) (hgrower : b.grower = a.grower) (hstart : b.start = a.start)
    (hsize : b.slots.size = a.slots.size) : b.Sole s := by
  refine ⟨?_, ?_⟩
  · rw [hgrower, hsize]
    exact S.moved
  · rw [hstart]
    exact S.start

/-- A grant begins where the arena ends. -/
theorem accepted_eq (S : a.Sole s) :
    a.accepted (boundary s.current + a.slots.size * unitBytes) = .ok (boundary s.current) := by
  rw [accepted_eq_ok_iff]
  cases hstart : a.start with
  | none =>
    rw [a.unmapped hstart, Nat.zero_mul, Nat.add_zero]
    exact .inl ⟨rfl, (isLeast_boundary s.current).1.2, rfl⟩
  | some base =>
    obtain rfl := S.start base hstart
    exact .inr ⟨rfl, rfl⟩

/-- The arena grows, or there is not enough memory. -/
theorem growth_cases (S : a.Sole s) (n : Nat) :
    a.growth n = .ok (boundary s.current) ∧
        Moved s ((a.slots.size + n + 2) * unitBytes) (Grower.after a.grower (a.asked n)) ∨
      ∃ bytes, a.growth n = .error (.exhausted bytes) ∧
        Moved s (a.slots.size * unitBytes) (Grower.after a.grower (a.asked n)) := by
  unfold growth asked
  split_ifs
  · obtain ⟨-, ⟨hanswer, M⟩ | ⟨hanswer, M⟩⟩ := S.moved.grow ((n + 2) * unitBytes)
    · rw [← Nat.add_mul, ← Nat.add_assoc] at M
      rw [hanswer]
      exact .inl ⟨S.accepted_eq, M⟩
    · rw [hanswer]
      exact .inr ⟨_, rfl, M⟩
  · exact .inr ⟨_, rfl, S.moved⟩

end Sole

end Arena

namespace Heap

variable {h h' : Heap (ProgramBreak × DataSegment)} {chunks : List Chunk} {lists : FreeLists}
  {size : Nat} {answer : Except AllocError Nat} {s : DataSegment}

theorem Outcome.sole (S : h.arena.Sole s) (O : h.Outcome chunks lists size answer h') :
    h'.arena.Sole s := by
  cases O with
  | zero | tooLarge => exact S
  | outOfMemory _ _ _ hgrowth =>
    rcases S.growth_cases (h.growthUnits (unitsFor size)) with ⟨hok, -⟩ | ⟨_, -, M⟩
    · rw [hgrowth] at hok
      cases hok
    · exact ⟨M, S.start⟩
  | found _ _ _ _ _ _ hwithin =>
    exact S.congr hwithin.arena.grower hwithin.arena.start hwithin.size
  | grown _ _ _ hgrowth _ _ _ _ hlength hstart hgrower _ hwithin =>
    rcases S.growth_cases (h.growthUnits (unitsFor size)) with ⟨hok, M⟩ | ⟨_, hfail, -⟩
    · rw [hgrowth] at hok
      cases hok
      rw [← hlength, ← hgrower] at M
      have S₁ : Arena.Sole _ s := ⟨M, fun base hbase => by
        rw [hstart] at hbase
        exact (Option.some.inj hbase).symm⟩
      exact S₁.congr hwithin.arena.grower hwithin.arena.start hwithin.size
    · rw [hgrowth] at hfail
      cases hfail

/-- Growth never fails for the place of a grant. -/
theorem Outcome.eq_exhausted (S : h.arena.Sole s) (O : h.Outcome chunks lists size answer h')
    {e : GrowError}
    (he : answer = .error (.outOfMemory e)) : ∃ bytes, e = .exhausted bytes := by
  cases O with
  | outOfMemory _ _ _ hgrowth =>
    cases he
    rcases S.growth_cases (h.growthUnits (unitsFor size)) with ⟨hok, -⟩ | ⟨bytes, hfail, -⟩
    · rw [hgrowth] at hok
      cases hok
    · rw [hgrowth] at hfail
      cases hfail
      exact ⟨bytes, rfl⟩
  | zero | tooLarge | found | grown => cases he

end Heap

namespace ProgramBreak

/-- Of the program break as it is found, whatever the memory above it holds and whatever requests
the system turns down: the ranges that are granted lie behind each other from the first unit
boundary on, requests that fail do so for exhaustion and leave the break or pad it, which happens
once, and what is no signed word is not granted. Every run of a heap on this break is without a
grant that is misplaced. -/
theorem grants_one_range (s : DataSegment) :
    IsLeast {n | s.current ≤ n ∧ n % unitBytes = 0} (boundary s.current) ∧
    (alignUp s.current unitBytes).bind (Word.sub · s.current) = .ok (padding s.current) ∧
    boundary s.current ≤ s.current + 15 ∧
    (∀ requests,
      Contiguous (boundary s.current) ((calls (fresh, s) requests).filterMap Call.range?) ∧
      (∀ c ∈ calls (fresh, s) requests, c.Fair s) ∧
      ((calls (fresh, s) requests).filter fun c => c.Pads).length ≤ 1) ∧
    ∀ config t, Session.Reachable config (fresh, s) t → ∀ size, ∃ answer u,
      (Session.perform (.allocate size)).Runs t (some answer) u ∧
      (∀ address, answer ≠ .error (.outOfMemory (.misaligned address))) ∧
      ∀ expected actual, answer ≠ .error (.outOfMemory (.discontiguous expected actual)) := by
  refine ⟨isLeast_boundary _, sub_alignUp_eq_padding s.current_lt,
    Nat.le_of_lt_succ (boundary_lt _), fun requests => ?_, ?_⟩
  · have M := Moved.fresh s
    exact ⟨M.contiguous requests, fun c hc => M.fair_of_mem hc, M.length_pads requests⟩
  intro config t hreach size
  obtain ⟨chunks, lists, S, -⟩ := Session.sound_of_reachable hreach
  have hsole := Session.arena_of_reachable (P := fun a => a.Sole s)
    (fun hgrower hstart hsize S => S.congr hgrower hstart hsize) (fun _ O S => O.sole S)
    (Arena.Sole.empty s) hreach
  obtain ⟨answer, h', hrun, O⟩ := S.wellFormed.exists_outcome size
  refine ⟨answer, _, Session.runs_allocate hrun, fun address he => ?_, fun expected actual he => ?_⟩
  · obtain ⟨bytes, hbytes⟩ := O.eq_exhausted hsole he
    cases hbytes
  · obtain ⟨bytes, hbytes⟩ := O.eq_exhausted hsole he
    cases hbytes

/-- A break that is not at a unit boundary. The system turns down the first padding, and the request
after the second. All bits of the memory above are set. -/
def balkySegment : DataSegment where
  current := 4100
  calls := 0
  refuses := fun number _ => number = 1 || number = 4
  memory := fun _ => ⟨0xFFFFFFFFFFFFFFFF, 0xFFFFFFFF, 0xFFFFFFFF⟩
  current_pos := by decide
  current_lt := by decide

set_option maxRecDepth 100000 in
theorem grants_one_range_balky :
    (calls (fresh, balkySegment) [32, 48, Word.signedLimit, 16, 64]).filterMap Call.range? =
      [(4112, 16), (4128, 64)] ∧
    Contiguous 4112 [(4112, 16), (4128, 64)] ∧
    ((calls (fresh, balkySegment) [32, 48, Word.signedLimit, 16, 64]).map fun c =>
      (c.before, c.after)) =
        [(4100, 4100), (4100, 4112), (4112, 4112), (4112, 4128), (4128, 4192)] ∧
    ∃ t, Session.Reachable Session.smallBins (fresh, balkySegment) t ∧ t.live = [⟨4128, 40⟩] ∧
      ∀ size, ∃ answer u, (Session.perform (.allocate size)).Runs t (some answer) u ∧
        ∀ address, answer ≠ .error (.outOfMemory (.misaligned address)) := by
  have hranges : (calls (fresh, balkySegment) [32, 48, Word.signedLimit, 16, 64]).filterMap
      Call.range? = [(4112, 16), (4128, 64)] := by
    decide +kernel
  have hplay : ((Session.start Session.smallBins (fresh, balkySegment)).play [.allocate 20,
      .allocate 50, .allocate 40]).map Session.live = some [⟨4128, 40⟩] := by
    decide +kernel
  obtain ⟨t, hreach, hlive⟩ := Session.exists_reachable_of_play hplay
  obtain ⟨-, -, -, hrequests, hheaps⟩ := grants_one_range balkySegment
  obtain ⟨hcontiguous, -, -⟩ := hrequests [32, 48, Word.signedLimit, 16, 64]
  rw [hranges] at hcontiguous
  refine ⟨hranges, hcontiguous, by decide +kernel, t, hreach, hlive, fun size => ?_⟩
  obtain ⟨answer, u, hrun, hmisaligned, -⟩ := hheaps _ t hreach size
  exact ⟨answer, u, hrun, hmisaligned⟩

end ProgramBreak

end BoundaryTag
