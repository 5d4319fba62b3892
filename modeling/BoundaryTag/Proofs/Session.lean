import BoundaryTag.Arena.Bytes
import BoundaryTag.Heap.Allocation
import BoundaryTag.Proofs.Runs
import Mathlib.Tactic

/-!
# Sessions

A heap is used by a program that asks for blocks, stores into those it holds and
gives them back. A session is a heap together with the blocks in the hands of the
program, and a request is allowed when it is legal use: any size may be asked for,
a held block or the null address may be released, and stores stay within the bytes
that were asked for. The grower is any grower; nothing is known of its answers but
what their type says.

Results:

* `Session.run_of_play`, `Session.exists_reachable_of_play`: a run that is played is a run of
  legal requests.
* `Session.runs_onHeap`: an action on the heap in a session; `runs_allocate`,
  `runs_release` and `runs_store` for the three requests, `heap_release` and `heap_store`
  back to the heap.
* `Session.live_of_perform`: what a program comes to hold.
-/

namespace BoundaryTag

/-- A block in the hands of the program: `size` bytes were asked for, `address` was the answer. -/
structure Block where
  address : Nat
  size : Nat
deriving DecidableEq, Repr

/-- A heap and the blocks that the program holds, the latest first. -/
structure Session (G : Type) where
  heap : Heap G
  live : List Block

/-- What a program does. -/
inductive Request where
  | allocate (size : Nat)
  | release (address : Nat)
  /-- Stores bytes into a block. -/
  | store (address : Nat) (bytes : List UInt8)
deriving DecidableEq, Repr

/-- The byte that a request stores at an address. -/
def Request.byteFor? : Request → Nat → Option UInt8
  | store address bytes, x => if address ≤ x then bytes[x - address]? else none
  | _, _ => none

namespace Session

variable {G α : Type}

/-- A heap without memory, and no blocks. -/
def start (config : Config) (grower : G) : Session G := ⟨Heap.new grower config, []⟩

/-! ## Requests -/

/-- An action on the heap of the session. -/
@[inline] def onHeap (x : Action (Heap G) α) : Action (Session G) α := fun ⟨⟨heap, live⟩, log⟩ =>
  match x ⟨heap, log⟩ with
  | .ok a ⟨heap, log⟩ => .ok a ⟨⟨heap, live⟩, log⟩
  | .error e ⟨heap, log⟩ => .error e ⟨⟨heap, live⟩, log⟩

/-- The session with a block more, if there is one. -/
def receive (s : Session G) (size : Nat) : Except AllocError Nat → Session G
  | .ok address => { s with live := ⟨address, size⟩ :: s.live }
  | .error _ => s

/-- The session without the block at an address. -/
def giveBack (s : Session G) (address : Nat) : Session G :=
  { s with live := s.live.filter (·.address ≠ address) }

/-- Carries out a request; the answer, if it was an allocation. -/
def perform [Grower G] : Request → Action (Session G) (Option (Except AllocError Nat))
  | .allocate size => do
    let answer ← onHeap (Heap.allocate size)
    Action.change (·.receive size answer)
    return some answer
  | .release address => do
    onHeap (Heap.release address)
    Action.change (·.giveBack address)
    return none
  | .store address bytes => do
    onHeap (Heap.onArena (Arena.storeBytes address bytes))
    return none

/-- The requests that are legal use. -/
def Allows (s : Session G) : Request → Prop
  | .allocate size => size < Word.limit
  | .release address => address = nullAddress ∨ ∃ b ∈ s.live, b.address = address
  | .store address bytes =>
    ∃ b ∈ s.live, b.address ≤ address ∧ address + bytes.length ≤ b.address + b.size

instance (s : Session G) : (r : Request) → Decidable (s.Allows r)
  | .allocate size => inferInstanceAs (Decidable (size < Word.limit))
  | .release address =>
    inferInstanceAs (Decidable (address = nullAddress ∨ ∃ b ∈ s.live, b.address = address))
  | .store address bytes =>
    inferInstanceAs (Decidable (∃ b ∈ s.live, b.address ≤ address ∧
      address + bytes.length ≤ b.address + b.size))

/-! ## Runs -/

/-- A legal request, carried out without a fault. -/
def Step [Grower G] (s : Session G) (r : Request) (s' : Session G) : Prop :=
  s.Allows r ∧ ∃ answer log log', perform r ⟨s, log⟩ = .ok answer ⟨s', log'⟩

/-- A run of legal requests. -/
inductive Run [Grower G] : Session G → List Request → Session G → Prop where
  | nil (s : Session G) : Run s [] s
  | cons {s t u : Session G} {r : Request} {rs : List Request} :
    s.Step r t → Run t rs u → Run s (r :: rs) u

/-- The sessions that legal use leads to. -/
def Reachable [Grower G] (config : Config) (grower : G) (s : Session G) : Prop :=
  ∃ rs, (start config grower).Run rs s

/-- Plays a run; the session at its end, unless a request is illegal or meets a fault. -/
def play [Grower G] (s : Session G) : List Request → Option (Session G)
  | [] => some s
  | r :: rs =>
    if s.Allows r then
      match perform r ⟨s, #[]⟩ with
      | .ok _ t => t.state.play rs
      | .error _ _ => none
    else none

section Runs

variable [Grower G] {s t u : Session G} {r : Request} {rs rs' : List Request}

theorem Step.of_runs {answer : Option (Except AllocError Nat)} (hallows : s.Allows r)
    (hrun : (perform r).Runs s answer t) : s.Step r t := by
  obtain ⟨log, hperform⟩ := hrun #[]
  exact ⟨hallows, answer, #[], log, hperform⟩

theorem Run.append (h : s.Run rs t) (h' : t.Run rs' u) : s.Run (rs ++ rs') u := by
  induction h with
  | nil => exact h'
  | cons hstep _ ih => exact Run.cons hstep (ih h')

theorem Reachable.run {config : Config} {grower : G} (h : Reachable config grower s)
    (hrun : s.Run rs t) : Reachable config grower t := by
  obtain ⟨rs', hrun'⟩ := h
  exact ⟨rs' ++ rs, hrun'.append hrun⟩

theorem run_of_play (h : s.play rs = some t) : s.Run rs t := by
  induction rs generalizing s with
  | nil =>
    cases h
    exact Run.nil _
  | cons r rs ih =>
    rw [play] at h
    split_ifs at h with hallows
    split at h
    · rename_i answer state hperform
      exact Run.cons ⟨hallows, answer, #[], state.log, hperform⟩ (ih h)
    · cases h

/-- What is seen at the end of a run that is played is seen of a session that legal use leads to. -/
theorem exists_reachable_of_play {config : Config} {grower : G} {seen : Session G → α} {x : α}
    (h : ((start config grower).play rs).map seen = some x) :
    ∃ s, Reachable config grower s ∧ seen s = x := by
  obtain ⟨s, hs, hseen⟩ := Option.map_eq_some_iff.mp h
  exact ⟨s, ⟨rs, run_of_play hs⟩, hseen⟩

end Runs

/-! ## Requests on the heap -/

theorem runs_onHeap {x : Action (Heap G) α} {s : Session G} {a : α} {h' : Heap G}
    (hx : x.Runs s.heap a h') : (onHeap x).Runs s a { s with heap := h' } := by
  intro log
  obtain ⟨log', h'⟩ := hx log
  refine ⟨log', ?_⟩
  obtain ⟨heap, live⟩ := s
  simp only [onHeap, h']

section Perform

variable [Grower G] {s : Session G} {h' : Heap G} {size address : Nat} {bytes : List UInt8}
  {answer : Except AllocError Nat}

theorem runs_allocate (hrun : (Heap.allocate size).Runs s.heap answer h') :
    (perform (.allocate size)).Runs s (some answer)
      ({ s with heap := h' }.receive size answer) := by
  apply Action.Runs.bind (runs_onHeap hrun)
  exact Action.Runs.bind (Action.runs_change _ _) (Action.runs_pure _ _)

theorem runs_release (hrun : (Heap.release address).Runs s.heap () h') :
    (perform (.release address)).Runs s none ({ s with heap := h' }.giveBack address) := by
  apply Action.Runs.bind (runs_onHeap hrun)
  exact Action.Runs.bind (Action.runs_change _ _) (Action.runs_pure _ _)

theorem runs_store (hrun : (Heap.onArena (Arena.storeBytes address bytes)).Runs s.heap () h') :
    (perform (.store address bytes)).Runs s none { s with heap := h' } :=
  Action.Runs.bind (runs_onHeap hrun) (Action.runs_pure _ _)

end Perform

/-- An action on the heap of the session is one on its heap, and leaves the blocks. -/
theorem onHeap_eq_ok {x : Action (Heap G) α} {s : Session G} {log : Array Event} {a : α}
    {u : Traced (Session G)} (h : onHeap x ⟨s, log⟩ = .ok a u) :
    x ⟨s.heap, log⟩ = .ok a ⟨u.state.heap, u.log⟩ ∧ u.state.live = s.live := by
  obtain ⟨heap, live⟩ := s
  cases hx : x ⟨heap, log⟩ with
  | ok b v =>
    simp only [onHeap, hx] at h
    cases h
    exact ⟨rfl, rfl⟩
  | error e v =>
    simp only [onHeap, hx] at h
    cases h

/-- A release is one by the heap. -/
theorem heap_release [Grower G] {s t : Session G} {address : Nat}
    {answer : Option (Except AllocError Nat)}
    (h : (perform (.release address)).Runs s answer t) :
    (Heap.release address).Runs s.heap () t.heap := by
  intro log
  obtain ⟨log', hrun⟩ := h log
  obtain ⟨a, u, hx, hrest⟩ := Action.exists_of_bind_eq_ok hrun
  cases hrest
  exact ⟨_, (onHeap_eq_ok hx).1⟩

/-- A store is one into the memory of the heap. -/
theorem heap_store [Grower G] {s t : Session G} {address : Nat} {bytes : List UInt8}
    {answer : Option (Except AllocError Nat)}
    (h : (perform (.store address bytes)).Runs s answer t) :
    (Heap.onArena (Arena.storeBytes address bytes)).Runs s.heap () t.heap := by
  intro log
  obtain ⟨log', hrun⟩ := h log
  obtain ⟨a, u, hx, hrest⟩ := Action.exists_of_bind_eq_ok hrun
  cases hrest
  exact ⟨_, (onHeap_eq_ok hx).1⟩

/-! ## What a program comes to hold -/

/-- A program comes to hold what an allocation answers, and nothing else. -/
theorem live_of_perform [Grower G] {s : Session G} {r : Request}
    {answer : Option (Except AllocError Nat)} {log : Array Event} {u : Traced (Session G)}
    (h : perform r ⟨s, log⟩ = .ok answer u) {b : Block} (hb : b ∈ u.state.live) :
    b ∈ s.live ∨ answer = some (.ok b.address) := by
  cases r with
  | allocate size =>
    obtain ⟨a, v, hx, hrest⟩ := Action.exists_of_bind_eq_ok h
    rw [← (onHeap_eq_ok hx).2]
    cases a with
    | error e =>
      cases hrest
      exact .inl hb
    | ok address =>
      cases hrest
      rcases List.mem_cons.mp hb with rfl | hb
      · exact .inr rfl
      · exact .inl hb
  | release address =>
    obtain ⟨a, v, hx, hrest⟩ := Action.exists_of_bind_eq_ok h
    rw [← (onHeap_eq_ok hx).2]
    cases hrest
    exact .inl (List.mem_filter.mp hb).1
  | store address bytes =>
    obtain ⟨a, v, hx, hrest⟩ := Action.exists_of_bind_eq_ok h
    rw [← (onHeap_eq_ok hx).2]
    cases hrest
    exact .inl hb

end Session

end BoundaryTag
