import BoundaryTag.Proofs.LegalUse
import BoundaryTag.Proofs.Lending
import Mathlib

/-!
# Heaps that share the program break

A process has any number of heaps that grow by moving the same program break, and
its requests to them come in any order. The break never moves down, so memory that
is granted lies above all arenas, and an arena is extended only if nothing has moved
the break since it ended there. Requests that fail move it, too: by padding, and by
grants that are given up because they do not continue the arena. An arena that has
been passed by the break keeps its length for good.

Results:

* `perform_eq`: a request to a process, by actions to which the data segment is lent.
* `Apart.step`: a request leaves the arenas apart.
* `Passed.run`: an arena that has been passed by the break.
* `heaps_apart`: every process.
-/

namespace BoundaryTag

variable {ι : Type}

/-- The addresses of the bytes of an arena. -/
def Arena.addresses {G : Type} (a : Arena G) : Set Nat :=
  {x | ∃ base ∈ a.start, base ≤ x ∧ x < base + a.slots.size * unitBytes}

/-- Programs with a heap each, and the data segment of the process they run in. -/
structure Process (ι : Type) where
  sessions : ι → Session ProgramBreak
  segment : DataSegment

namespace Process

/-! ## Requests -/

/-- Heaps without memory, and the data segment as it is found. -/
def start (configs : ι → Config) (segment : DataSegment) : Process ι :=
  ⟨fun i => Session.start (configs i) ProgramBreak.fresh, segment⟩

/-- A session, with the data segment lent to it. -/
def attached (p : Process ι) (i : ι) : Session (ProgramBreak × DataSegment) :=
  (p.sessions i).attach p.segment

variable [DecidableEq ι]

/-- The process after a session has given back the data segment. -/
def put (p : Process ι) (i : ι) (s : Session (ProgramBreak × DataSegment)) : Process ι :=
  ⟨Function.update p.sessions i s.detach.1, s.detach.2⟩

/-- Carries out a request of one of the programs. -/
def perform (i : ι) (r : Request) : Action (Process ι) (Option (Except AllocError Nat)) :=
  Action.within (·.attached i) (·.put i) (Session.perform r)

/-- A legal request, carried out without a fault. -/
def Step (p : Process ι) (i : ι) (r : Request) (q : Process ι) : Prop :=
  (p.sessions i).Allows r ∧ ∃ answer log log', perform i r ⟨p, log⟩ = .ok answer ⟨q, log'⟩

/-- A run of legal requests, of any program at any time. -/
inductive Run : Process ι → List (ι × Request) → Process ι → Prop where
  | nil (p : Process ι) : Run p [] p
  | cons {p q o : Process ι} {i : ι} {r : Request} {rs : List (ι × Request)} :
    p.Step i r q → Run q rs o → Run p ((i, r) :: rs) o

/-- The processes that legal use leads to. -/
def Reachable (configs : ι → Config) (p : Process ι) : Prop :=
  ∃ segment rs, (start configs segment).Run rs p

/-- Plays a run; the process at its end, unless a request is illegal or meets a fault. -/
def play (p : Process ι) : List (ι × Request) → Option (Process ι)
  | [] => some p
  | (i, r) :: rs =>
    if (p.sessions i).Allows r then
      match perform i r ⟨p, #[]⟩ with
      | .ok _ t => t.state.play rs
      | .error _ _ => none
    else none

variable {p q o : Process ι} {i j : ι} {r : Request} {rs : List (ι × Request)}
  {configs : ι → Config}

theorem run_of_play (h : p.play rs = some q) : p.Run rs q := by
  induction rs generalizing p with
  | nil =>
    cases h
    exact Run.nil _
  | cons ir rs ih =>
    obtain ⟨i, r⟩ := ir
    rw [play] at h
    split_ifs at h with hallows
    split at h
    · rename_i answer state hperform
      exact Run.cons ⟨hallows, answer, #[], state.log, hperform⟩ (ih h)
    · cases h

theorem runs_perform {answer : Option (Except AllocError Nat)}
    {s : Session (ProgramBreak × DataSegment)}
    (hrun : (Session.perform r).Runs (p.attached i) answer s) :
    (perform i r).Runs p answer (p.put i s) := Action.runs_within hrun

/-- A request is a step of the session to which the segment is lent. -/
theorem Step.exists_step (h : p.Step i r q) : ∃ t, (p.attached i).Step r t ∧ q = p.put i t := by
  obtain ⟨hallows, answer, log, log', hperform⟩ := h
  obtain ⟨t, hsession, hput⟩ := Action.exists_of_within_eq_ok hperform
  exact ⟨t, ⟨hallows, answer, log, log', hsession⟩, hput⟩

/-! ### Requests on the heaps -/

/-- The process after a heap has given back the data segment. -/
def putHeap (p : Process ι) (i : ι) (lent : Heap ProgramBreak × DataSegment) : Process ι :=
  ⟨Function.update p.sessions i { p.sessions i with heap := lent.1 }, lent.2⟩

/-- An action on the heap of one of the programs, with the data segment lent to it. -/
def onHeap {α : Type} (i : ι) (x : Action (Heap (ProgramBreak × DataSegment)) α) :
    Action (Process ι) α :=
  Action.within (fun p => ((p.sessions i).heap, p.segment)) (·.putHeap i) (Heap.lend x)

/-- The process after a change of one of the sessions. -/
def modify (p : Process ι) (i : ι) (f : Session ProgramBreak → Session ProgramBreak) :
    Process ι :=
  { p with sessions := Function.update p.sessions i (f (p.sessions i)) }

theorem within_onHeap {α : Type} (i : ι) (x : Action (Heap (ProgramBreak × DataSegment)) α) :
    Action.within (·.attached i) (·.put i) (Session.onHeap x) = onHeap i x := by
  funext ⟨p, log⟩
  simp only [onHeap, Heap.lend, Action.within, Session.onHeap, attached, Session.attach]
  cases x ⟨(p.sessions i).heap.attach p.segment, log⟩ <;> rfl

theorem attached_put (p : Process ι) (s : Session (ProgramBreak × DataSegment)) :
    (p.put i s).attached i = s := by
  show Session.attach (Function.update p.sessions i s.detach.1 i) s.detach.2 = s
  rw [Function.update_self]
  rfl

theorem put_put (p : Process ι) (s t : Session (ProgramBreak × DataSegment)) :
    (p.put i s).put i t = p.put i t := by
  unfold put
  rw [Function.update_idem]

theorem put_attached (p : Process ι) : p.put i (p.attached i) = p := by
  show Process.mk (Function.update p.sessions i (p.sessions i)) p.segment = p
  rw [Function.update_eq_self]

/-- A request is one to the heap, with the segment lent to it, and what the program comes to hold or
gives back. -/
theorem perform_eq (i : ι) (r : Request) : perform i r =
    match r with
    | .allocate size => do
      let answer ← onHeap i (Heap.allocate size)
      Action.change (·.modify i (·.receive size answer))
      return some answer
    | .release address => do
      onHeap i (Heap.release address)
      Action.change (·.modify i (·.giveBack address))
      return none
    | .store address bytes => do
      onHeap i (Heap.onArena (Arena.storeBytes address bytes))
      return none := by
  unfold perform Session.perform
  cases r with
  | allocate size =>
    simp only
    rw [Action.within_bind attached_put put_put, within_onHeap]
    congr 1
    funext answer ⟨p, log⟩
    cases answer <;> rfl
  | release address =>
    simp only
    rw [Action.within_bind attached_put put_put, within_onHeap]
    rfl
  | store address bytes =>
    simp only
    rw [Action.within_bind attached_put put_put, within_onHeap]
    congr 1
    funext _ ⟨p, log⟩
    exact congrArg (fun q => EStateM.Result.ok none (Traced.mk q log)) (put_attached p)

/-! ## Arenas above each other -/

/-- The heaps are sound, and their arenas lie apart from each other below the break. -/
structure Apart (p : Process ι) : Prop where
  sound : ∀ i, ∃ chunks lists, (p.sessions i).Sound chunks lists
  below : ∀ i, ∀ base ∈ (p.sessions i).heap.arena.start,
    base + (p.sessions i).heap.arena.slots.size * unitBytes ≤ p.segment.current
  disjoint : ∀ i j, i ≠ j →
    Disjoint (p.sessions i).heap.arena.addresses (p.sessions j).heap.arena.addresses

/-- The break has been moved past the end of an arena. -/
def Passed (p : Process ι) (i : ι) : Prop := ∃ base ∈ (p.sessions i).heap.arena.start,
  base + (p.sessions i).heap.arena.slots.size * unitBytes < p.segment.current

/-- What a request does to the break and to the arena of its heap: either the arena stays as long as
it is, or memory that begins at the break or above it is added, up to the new break. -/
structure Moves (p : Process ι) (i : ι) (q : Process ι) : Prop where
  others : ∀ j ≠ i, q.sessions j = p.sessions j
  current_le : p.segment.current ≤ q.segment.current
  arena : ((q.sessions i).heap.arena.start = (p.sessions i).heap.arena.start ∧
      (q.sessions i).heap.arena.slots.size = (p.sessions i).heap.arena.slots.size) ∨
    ∃ base, (q.sessions i).heap.arena.start = some base ∧
      (∀ old ∈ (p.sessions i).heap.arena.start, base = old) ∧
      p.segment.current ≤ base + (p.sessions i).heap.arena.slots.size * unitBytes ∧
      base + (q.sessions i).heap.arena.slots.size * unitBytes = q.segment.current

namespace Apart

omit [DecidableEq ι] in
theorem start (configs : ι → Config) (segment : DataSegment) : (start configs segment).Apart where
  sound i := ⟨_, _, Session.Sound.start (configs i) ProgramBreak.fresh⟩
  below i base hbase := by cases hbase
  disjoint i j _ := by
    rw [Set.disjoint_left]
    rintro x ⟨base, hbase, -⟩
    cases hbase

omit [DecidableEq ι] in
theorem attached (A : p.Apart) (i : ι) : ∃ chunks lists, (p.attached i).Sound chunks lists := by
  obtain ⟨chunks, lists, S⟩ := A.sound i
  exact ⟨chunks, lists, S.agrees (Heap.agrees_attach _ p.segment) rfl⟩

/-- A legal request of any program succeeds. -/
theorem exists_run_perform (A : p.Apart) (hallows : (p.sessions i).Allows r) :
    ∃ answer q, (perform i r).Runs p answer q := by
  obtain ⟨chunks, lists, S⟩ := A.attached i
  obtain ⟨answer, t, -, -, hrun, -, -⟩ := S.step r hallows
  exact ⟨answer, p.put i t, runs_perform hrun⟩

theorem moves (A : p.Apart) (hstep : p.Step i r q) : p.Moves i q := by
  obtain ⟨t, hlent, rfl⟩ := hstep.exists_step
  obtain ⟨chunks, lists, S⟩ := A.attached i
  have hsession : (p.put i t).sessions i = t.detach.1 := Function.update_self ..
  have hsegment : (p.put i t).segment =
      (Grower.after (p.attached i).heap.arena.grower ((p.attached i).asked r)).2 :=
    congrArg Prod.snd (S.grower_of_step hlent)
  refine ⟨fun j hj => Function.update_of_ne hj .., ?_, ?_⟩
  · rw [hsegment]
    exact ProgramBreak.current_le_after (p.attached i).heap.arena.grower _
  · rw [hsession]
    rcases S.arena_of_step hlent with hsame | ⟨n, base, hasked, hgrowth, hstart, hsize⟩
    · exact .inl hsame
    · obtain ⟨-, grant, hanswer, hadmits, rfl⟩ := Arena.growth_eq_ok_iff.mp hgrowth
      have hend := hadmits.getD_add
      obtain ⟨hlow, hhigh⟩ := ProgramBreak.current_of_answer hanswer
      refine .inr ⟨_, hstart, fun old hold => congrArg (Option.getD · grant) hold, ?_, ?_⟩
      · exact hend.symm ▸ hlow
      · rw [hsegment, hasked, hhigh]
        show _ + t.heap.arena.slots.size * unitBytes = _
        rw [hsize, Nat.add_mul, ← Nat.add_assoc, hend]

omit [DecidableEq ι] in
/-- The addresses of an arena lie below the break. -/
theorem lt_current (A : p.Apart) {x : Nat} (hx : x ∈ (p.sessions i).heap.arena.addresses) :
    x < p.segment.current := by
  obtain ⟨base, hbase, -, hhigh⟩ := hx
  exact Nat.lt_of_lt_of_le hhigh (A.below i base hbase)

omit [DecidableEq ι] in
/-- Memory that is added to an arena lies above all arenas. -/
theorem mem_addresses (A : p.Apart) (M : p.Moves i q) {x : Nat}
    (hx : x ∈ (q.sessions i).heap.arena.addresses) :
    x ∈ (p.sessions i).heap.arena.addresses ∨ p.segment.current ≤ x := by
  obtain ⟨base, hbase, hlow, hhigh⟩ := hx
  rcases M.arena with ⟨hstart, hsize⟩ | ⟨base', hstart, hold, hcurrent, -⟩
  · rw [hstart] at hbase
    rw [hsize] at hhigh
    exact .inl ⟨base, hbase, hlow, hhigh⟩
  · obtain rfl : base' = base := Option.some.inj (hstart.symm.trans hbase)
    cases hp : (p.sessions i).heap.arena.start with
    | none =>
      obtain ⟨chunks, lists, S⟩ := A.sound i
      rw [Arena.unmapped _ hp] at hcurrent
      exact .inr (by omega)
    | some old =>
      obtain rfl := hold old hp
      by_cases hin : x < base' + (p.sessions i).heap.arena.slots.size * unitBytes
      · exact .inl ⟨base', hp, hlow, hin⟩
      · exact .inr (by omega)

omit [DecidableEq ι] in
theorem disjoint_step (A : p.Apart) (M : p.Moves i q) (hj : j ≠ i) :
    Disjoint (q.sessions i).heap.arena.addresses (q.sessions j).heap.arena.addresses := by
  rw [Set.disjoint_left, M.others j hj]
  intro x hx hx'
  rcases A.mem_addresses M hx with hx | hx
  · exact Set.disjoint_left.mp (A.disjoint i j (Ne.symm hj)) hx hx'
  · exact absurd (A.lt_current hx') (Nat.not_lt.mpr hx)

theorem step (A : p.Apart) (hstep : p.Step i r q) : q.Apart := by
  have M := A.moves hstep
  refine ⟨?_, ?_, ?_⟩
  · intro j
    by_cases hj : j = i
    · subst hj
      obtain ⟨t, hlent, rfl⟩ := hstep.exists_step
      obtain ⟨chunks, lists, S⟩ := A.attached j
      obtain ⟨chunks', lists', S', -⟩ := S.of_step hlent
      have hsession : (p.put j t).sessions j = t.detach.1 := Function.update_self ..
      rw [hsession]
      exact ⟨chunks', lists', S'.agrees (Heap.agrees_detach t.heap) rfl⟩
    · rw [M.others j hj]
      exact A.sound j
  · intro j base hbase
    by_cases hj : j = i
    · subst hj
      rcases M.arena with ⟨hstart, hsize⟩ | ⟨base', hstart, -, -, hend⟩
      · rw [hstart] at hbase
        rw [hsize]
        exact Nat.le_trans (A.below j base hbase) M.current_le
      · obtain rfl : base' = base := Option.some.inj (hstart.symm.trans hbase)
        exact Nat.le_of_eq hend
    · rw [M.others j hj] at hbase ⊢
      exact Nat.le_trans (A.below j base hbase) M.current_le
  · intro j k hjk
    by_cases hj : j = i
    · subst hj
      exact A.disjoint_step M (Ne.symm hjk)
    · by_cases hk : k = i
      · subst hk
        exact (A.disjoint_step M hj).symm
      · rw [M.others j hj, M.others k hk]
        exact A.disjoint j k hjk

theorem run (A : p.Apart) (hrun : p.Run rs q) : q.Apart := by
  induction hrun with
  | nil p => exact A
  | cons hstep _ ih => exact ih (A.step hstep)

end Apart

theorem apart_of_reachable (h : Reachable configs p) : p.Apart := by
  obtain ⟨segment, rs, hrun⟩ := h
  exact (Apart.start configs segment).run hrun

/-! ## Arenas that the break has passed -/

/-- An arena that grows ends at the break. -/
theorem Apart.eq_current (A : p.Apart) (hstep : p.Step i r q) {base : Nat}
    (hbase : base ∈ (p.sessions i).heap.arena.start)
    (hgrows : (q.sessions i).heap.arena.slots.size ≠ (p.sessions i).heap.arena.slots.size) :
    base + (p.sessions i).heap.arena.slots.size * unitBytes = p.segment.current := by
  rcases (A.moves hstep).arena with ⟨-, hsize⟩ | ⟨base', -, hold, hcurrent, -⟩
  · exact absurd hsize hgrows
  · obtain rfl := hold base hbase
    exact Nat.le_antisymm (A.below i base' hbase) hcurrent

namespace Passed

/-- The arena stays where it is, and behind the break. -/
theorem step (P : p.Passed i) (A : p.Apart) (hstep : p.Step j r q) : q.Passed i ∧
    (q.sessions i).heap.arena.start = (p.sessions i).heap.arena.start ∧
    (q.sessions i).heap.arena.slots.size = (p.sessions i).heap.arena.slots.size := by
  have M := A.moves hstep
  obtain ⟨base, hbase, hlt⟩ := P
  have hsame : (q.sessions i).heap.arena.start = (p.sessions i).heap.arena.start ∧
      (q.sessions i).heap.arena.slots.size = (p.sessions i).heap.arena.slots.size := by
    by_cases hi : i = j
    · subst hi
      rcases M.arena with hsame | ⟨base', -, hold, hcurrent, -⟩
      · exact hsame
      · obtain rfl := hold base hbase
        exact absurd hcurrent (Nat.not_le.mpr hlt)
    · rw [M.others i hi]
      exact ⟨rfl, rfl⟩
  refine ⟨⟨base, hsame.1.trans hbase, ?_⟩, hsame⟩
  rw [hsame.2]
  exact Nat.lt_of_lt_of_le hlt M.current_le

theorem run (P : p.Passed i) (A : p.Apart) (hrun : p.Run rs q) : q.Passed i ∧
    (q.sessions i).heap.arena.start = (p.sessions i).heap.arena.start ∧
    (q.sessions i).heap.arena.slots.size = (p.sessions i).heap.arena.slots.size := by
  induction hrun with
  | nil p => exact ⟨P, rfl, rfl⟩
  | cons hstep _ ih =>
    obtain ⟨P', hstart, hsize⟩ := P.step A hstep
    obtain ⟨P'', hstart', hsize'⟩ := ih P' (A.step hstep)
    exact ⟨P'', hstart'.trans hstart, hsize'.trans hsize⟩

omit [DecidableEq ι] in
/-- Growth fails, whatever the system would grant. -/
theorem growth_error (P : p.Passed i) (n : Nat) :
    ∃ e, (p.attached i).heap.arena.growth n = .error e := by
  obtain ⟨base, hbase, hlt⟩ := P
  cases hgrowth : (p.attached i).heap.arena.growth n with
  | error e => exact ⟨e, rfl⟩
  | ok base' =>
    obtain ⟨-, grant, hanswer, hadmits, -⟩ := Arena.growth_eq_ok_iff.mp hgrowth
    have hlow : p.segment.current ≤ grant := (ProgramBreak.current_of_answer hanswer).1
    rw [hadmits.2 base hbase] at hlow
    exact absurd hlow (Nat.not_le.mpr hlt)

end Passed

/-- The heap never grows, and serves requests from the chunks that it has. -/
structure Closed (p : Process ι) (i : ι) : Prop where
  extend : ∀ n, ∃ e b, (Arena.extend n).Runs (p.attached i).heap.arena (.error e) b ∧
    (p.attached i).heap.arena.SameMemory b
  allocate : ∀ size, ∃ chunks lists answer h, (p.attached i).heap.WellFormed chunks lists ∧
    (Heap.allocate size).Runs (p.attached i).heap answer h ∧
    ∀ address, answer = .ok address → ∃ f : Focus, f.chunks = chunks ∧ f.lists = lists ∧
      f.chunk.isFree ∧ Heap.unitsFor size ≤ f.chunk.units ∧
      address = (p.attached i).heap.arena.blockAddress
        (f.taken (p.attached i).heap.config (Heap.unitsFor size)).chunk

omit [DecidableEq ι] in
theorem Passed.closed (P : p.Passed i) (A : p.Apart) : p.Closed i := by
  obtain ⟨chunks, lists, S⟩ := A.attached i
  have W := S.wellFormed
  refine ⟨?_, ?_⟩
  · intro n
    obtain ⟨e, hgrowth⟩ := P.growth_error n
    exact ⟨e, _, Arena.runs_extend_error W.placed hgrowth, ⟨rfl, rfl⟩⟩
  · intro size
    obtain ⟨answer, h, hrun, O⟩ := W.exists_outcome size
    refine ⟨chunks, lists, answer, h, W, hrun, ?_⟩
    rintro address rfl
    cases O with
    | found hpos hsize hchunks hlists hfound W' hwithin =>
      subst hchunks hlists
      obtain ⟨-, hfree, hle⟩ := mem_of_choice W.filed hfound
      exact ⟨_, rfl, rfl, hfree, hle, rfl⟩
    | grown hpos hsize hnone hgrowth =>
      obtain ⟨e, herror⟩ := P.growth_error
        ((p.attached i).heap.growthUnits (Heap.unitsFor size))
      rw [hgrowth] at herror
      cases herror

/-! ## One address space -/

/-- The byte `v` stands at the address `x`, in one of the arenas. -/
def Holds (p : Process ι) (x : Nat) (v : UInt8) : Prop :=
  ∃ i, x ∈ (p.sessions i).heap.arena.addresses ∧ (p.sessions i).heap.arena.loadByte x = .ok v

namespace Apart

variable {x : Nat} {v : UInt8}

omit [DecidableEq ι] in
theorem holds_iff (A : p.Apart) (hx : x ∈ (p.sessions i).heap.arena.addresses) :
    p.Holds x v ↔ (p.sessions i).heap.arena.loadByte x = .ok v := by
  constructor
  · rintro ⟨j, hx', hload⟩
    by_cases hij : i = j
    · exact hij ▸ hload
    · exact absurd hx' (Set.disjoint_left.mp (A.disjoint i j hij) hx)
  · exact fun hload => ⟨i, hx, hload⟩

omit [DecidableEq ι] in
/-- At each address of an arena stands one byte. -/
theorem existsUnique_holds (A : p.Apart) (hx : x ∈ (p.sessions i).heap.arena.addresses) :
    ∃! v, p.Holds x v := by
  obtain ⟨chunks, lists, S⟩ := A.sound i
  obtain ⟨base, hbase, hlow, hhigh⟩ := id hx
  obtain ⟨k, rfl⟩ := Nat.exists_eq_add_of_le hlow
  have hstop := S.wellFormed.placed.stop_lt base hbase
  have hk : k / unitBytes < (p.sessions i).heap.arena.slots.size := by
    unfold unitBytes at *
    omega
  obtain ⟨v, hv⟩ := Arena.exists_byteAt hk
  have hload := Arena.loadByte_eq hbase (by omega) hv
  refine ⟨v, (A.holds_iff hx).mpr hload, ?_⟩
  intro w hw
  rw [A.holds_iff hx, hload] at hw
  exact (Except.ok.inj hw).symm

/-- A request to one heap changes no byte of another arena. -/
theorem holds_step (A : p.Apart) (hstep : p.Step i r q) (hj : j ≠ i)
    (hx : x ∈ (p.sessions j).heap.arena.addresses) : q.Holds x v ↔ p.Holds x v := by
  have hsame := (A.moves hstep).others j hj
  have hx' : x ∈ (q.sessions j).heap.arena.addresses := hsame ▸ hx
  rw [A.holds_iff hx, (A.step hstep).holds_iff hx', hsame]

end Apart

/-! ## Every process -/

/-- After every run of legal requests to heaps that share the program break, in any order and
whatever the memory above it holds: the heaps are whole, their arenas share no address, and the next
request succeeds. It changes nothing of another heap, no byte of another arena, and makes an arena
longer only if the break stands at its end. Once the break stands above that end, the arena keeps
its length in every later process, and the heap serves requests from the chunks that it has. -/
theorem heaps_apart (h : Reachable configs p) :
    (∀ i, (p.sessions i).heap.check = .ok none ∧
      ∃ chunks lists, (p.sessions i).heap.WellFormed chunks lists) ∧
    (∀ i j, i ≠ j →
      Disjoint (p.sessions i).heap.arena.addresses (p.sessions j).heap.arena.addresses) ∧
    (∀ i, ∀ x ∈ (p.sessions i).heap.arena.addresses, ∃! v, p.Holds x v) ∧
    (∀ i r, (p.sessions i).Allows r → ∃ answer q, (perform i r).Runs p answer q) ∧
    (∀ i r q, p.Step i r q →
      (∀ j ≠ i, q.sessions j = p.sessions j ∧
        ∀ x ∈ (p.sessions j).heap.arena.addresses, ∀ v, q.Holds x v ↔ p.Holds x v) ∧
      ∀ base ∈ (p.sessions i).heap.arena.start,
        (q.sessions i).heap.arena.slots.size ≠ (p.sessions i).heap.arena.slots.size →
        base + (p.sessions i).heap.arena.slots.size * unitBytes = p.segment.current) ∧
    ∀ i, p.Passed i → ∀ rs q, p.Run rs q →
      (q.sessions i).heap.arena.start = (p.sessions i).heap.arena.start ∧
      (q.sessions i).heap.arenaBytes = (p.sessions i).heap.arenaBytes ∧ q.Closed i := by
  have A := apart_of_reachable h
  refine ⟨?_, A.disjoint, fun i x hx => A.existsUnique_holds hx, fun i r => A.exists_run_perform,
    ?_, ?_⟩
  · intro i
    obtain ⟨chunks, lists, S⟩ := A.sound i
    exact ⟨S.wellFormed.check_eq, chunks, lists, S.wellFormed⟩
  · intro i r q hstep
    refine ⟨?_, fun base hbase hgrows => A.eq_current hstep hbase hgrows⟩
    intro j hj
    exact ⟨(A.moves hstep).others j hj, fun x hx v => A.holds_step hstep hj hx⟩
  · intro i P rs q hrun
    obtain ⟨P', hstart, hsize⟩ := P.run A hrun
    refine ⟨hstart, ?_, P'.closed (A.run hrun)⟩
    unfold Heap.arenaBytes Arena.length
    rw [hsize]

/-- A data segment that does not end at a unit boundary. Above it each unit looks like the header of
a free chunk. -/
def oddSegment : DataSegment where
  current := 4099
  calls := 0
  refuses := fun _ _ => false
  memory := fun address => ⟨UInt64.ofNat address, 7, Status.free.word⟩
  current_pos := by decide
  current_lt := by decide

set_option maxRecDepth 100000 in
/-- The second heap begins where the first one ends, which then cannot grow any more. -/
theorem heaps_apart_two : ∃ p q : Process (Fin 2), Reachable (fun _ => Session.smallBins) p ∧
    (p.sessions 0).live = [⟨4128, 20⟩] ∧ (p.sessions 1).live = [⟨4224, 20⟩] ∧
    Disjoint (p.sessions 0).heap.arena.addresses (p.sessions 1).heap.arena.addresses ∧
    p.Passed 0 ∧ p.Run [(0, .allocate 40)] q ∧ q.Closed 0 ∧
    (q.sessions 0).heap.arenaBytes = (p.sessions 0).heap.arenaBytes := by
  have hplay : ((start (fun _ : Fin 2 => Session.smallBins) oddSegment).play
      [(0, .allocate 20), (1, .allocate 20)]).map (fun p =>
        ((p.sessions 0).live, (p.sessions 1).live, (p.sessions 0).heap.arena.start,
          (p.sessions 0).heap.arena.slots.size, p.segment.current,
          (p.play [(0, .allocate 40)]).isSome)) =
      some ([⟨4128, 20⟩], [⟨4224, 20⟩], some 4112, 6, 4304, true) := by
    decide +kernel
  obtain ⟨p, hp, hseen⟩ := Option.map_eq_some_iff.mp hplay
  simp only [Prod.mk.injEq] at hseen
  obtain ⟨hlive, hlive', hstart, hsize, hcurrent, hlater⟩ := hseen
  obtain ⟨q, hq⟩ := Option.isSome_iff_exists.mp hlater
  have hreach : Reachable (fun _ => Session.smallBins) p := ⟨oddSegment, _, run_of_play hp⟩
  have hpassed : p.Passed 0 := ⟨4112, hstart, by rw [hsize, hcurrent]; decide⟩
  obtain ⟨-, hdisjoint, -, -, -, hpast⟩ := heaps_apart hreach
  obtain ⟨-, hbytes, hclosed⟩ := hpast 0 hpassed _ q (run_of_play hq)
  exact ⟨p, q, hreach, hlive, hlive', hdisjoint 0 1 (by decide), hpassed, run_of_play hq, hclosed,
    hbytes⟩

end Process

end BoundaryTag
