import BoundaryTag.Proofs.Requests

/-!
# Calls by name

What a program does can be told without the addresses of its blocks: a block is
named by the allocation that gave it, and the answers so far say where it is. In
this way the same calls can be made in two runs, whatever the addresses are.

Results:

* `Client.run_of_play`: a run that is played is a run of legal calls.
* `Client.exists_run_iff`: every run of legal requests can be told in calls.
-/

namespace BoundaryTag

variable {G : Type}

namespace Session

/-! ## Calls -/

/-- What a program does, its blocks named by the allocations that gave them. -/
inductive Call where
  | allocate (size : Nat)
  /-- Releases the block of an allocation, which are counted from zero. -/
  | release (name : Nat)
  | store (address : Nat) (bytes : List UInt8)
deriving DecidableEq, Repr

namespace Call

/-- The block that an allocation gave, or the null address where there is none. -/
def blockNamed (answers : List (Except AllocError Nat)) (name : Nat) : Nat :=
  match answers[name]? with
  | some (.ok address) => address
  | _ => nullAddress

/-- The request of a call, after allocations with these answers. -/
def request (answers : List (Except AllocError Nat)) : Call → Request
  | allocate size => .allocate size
  | release name => .release (blockNamed answers name)
  | store address bytes => .store address bytes

/-- Whether the call goes to the heap; a store goes to memory directly. -/
def toHeap : Call → Bool
  | store _ _ => false
  | _ => true

end Call

/-- A session and the answers that its program has received. -/
structure Client (G : Type) where
  session : Session G
  answers : List (Except AllocError Nat)

namespace Client

/-- A heap without memory, and no answers. -/
def start (config : Config) (grower : G) : Client G := ⟨Session.start config grower, []⟩

/-- The grower of the heap. -/
def grower (p : Client G) : G := p.session.heap.arena.grower

/-- The requests that a call makes to the grower. -/
def asked (p : Client G) (c : Call) : List Nat := p.session.asked (c.request p.answers)

/-! ## Runs of calls -/

section Runs

variable [Grower G]

/-- A legal call, carried out without a fault. -/
def Step (p : Client G) (c : Call) (q : Client G) : Prop :=
  p.session.Allows (c.request p.answers) ∧ ∃ answer log log',
    perform (c.request p.answers) ⟨p.session, log⟩ = .ok answer ⟨q.session, log'⟩ ∧
    q.answers = p.answers ++ answer.toList

/-- A run of legal calls, and the requests that they make to the grower. -/
inductive Run : Client G → List Call → List Nat → Client G → Prop where
  | nil (p : Client G) : Run p [] [] p
  | cons {p q r : Client G} {c : Call} {cs : List Call} {requests : List Nat} :
    p.Step c q → Run q cs requests r → Run p (c :: cs) (p.asked c ++ requests) r

/-- Plays a run; the client at its end and the requests to the grower, unless a call is illegal or
meets a fault. -/
def play (p : Client G) : List Call → Option (Client G × List Nat)
  | [] => some (p, [])
  | c :: cs =>
    if p.session.Allows (c.request p.answers) then
      match perform (c.request p.answers) ⟨p.session, #[]⟩ with
      | .ok answer t =>
        ((Client.mk t.state (p.answers ++ answer.toList)).play cs).map fun ⟨q, requests⟩ =>
          (q, p.asked c ++ requests)
      | .error _ _ => none
    else none

variable {p q : Client G} {cs cs' : List Call} {requests : List Nat}

theorem run_of_play (h : p.play cs = some (q, requests)) : p.Run cs requests q := by
  induction cs generalizing p requests with
  | nil =>
    cases h
    exact Run.nil _
  | cons c cs ih =>
    rw [play] at h
    split_ifs at h with hallows
    split at h
    · rename_i answer state hperform
      obtain ⟨⟨r, later⟩, hrest, heq⟩ := Option.map_eq_some_iff.mp h
      cases heq
      exact Run.cons ⟨hallows, answer, #[], state.log, hperform, rfl⟩ (ih hrest)
    · cases h

/-- A step of the client is one of its session. -/
theorem Step.step {c : Call} (h : p.Step c q) :
    p.session.Step (c.request p.answers) q.session := by
  obtain ⟨hallows, answer, log, log', hperform, -⟩ := h
  exact ⟨hallows, answer, log, log', hperform⟩

/-- A run of calls is one of legal requests. -/
theorem Run.exists_run (h : p.Run cs requests q) : ∃ rs, p.session.Run rs q.session := by
  induction h with
  | nil p => exact ⟨[], Session.Run.nil _⟩
  | cons hstep _ ih =>
    obtain ⟨rs, hrun⟩ := ih
    exact ⟨_ :: rs, Session.Run.cons hstep.step hrun⟩

/-- A run may be cut between any two calls. -/
theorem Run.split (h : p.Run (cs ++ cs') requests q) : ∃ r before after,
    requests = before ++ after ∧ p.Run cs before r ∧ r.Run cs' after q := by
  induction cs generalizing p requests with
  | nil => exact ⟨p, [], requests, rfl, Run.nil _, h⟩
  | cons c cs ih =>
    cases h with
    | cons hstep hrest =>
      obtain ⟨r, before, after, rfl, hcs, hcs'⟩ := ih hrest
      exact ⟨r, _, after, (List.append_assoc ..).symm, Run.cons hstep hcs, hcs'⟩

end Runs

/-! ## Names for all blocks -/

/-- Every block in the hands of the program was the answer to an allocation. -/
def Informed (p : Client G) : Prop := ∀ b ∈ p.session.live, Except.ok b.address ∈ p.answers

/-- Every legal request can be told as a call. -/
theorem Informed.exists_call {p : Client G} (I : p.Informed) {r : Request}
    (hallows : p.session.Allows r) : ∃ c : Call, c.request p.answers = r := by
  cases r with
  | allocate size => exact ⟨.allocate size, rfl⟩
  | store address bytes => exact ⟨.store address bytes, rfl⟩
  | release address =>
    obtain rfl | ⟨b, hb, rfl⟩ :
      address = nullAddress ∨ ∃ b ∈ p.session.live, b.address = address := hallows
    · refine ⟨.release p.answers.length, ?_⟩
      simp [Call.request, Call.blockNamed]
    · obtain ⟨name, hname⟩ := List.mem_iff_getElem?.mp (I b hb)
      refine ⟨.release name, ?_⟩
      simp [Call.request, Call.blockNamed, hname]

/-- Every run of legal requests can be told in calls. -/
theorem Informed.exists_run [Grower G] {p : Client G} (I : p.Informed) {rs : List Request}
    {t : Session G} (hrun : p.session.Run rs t) :
    ∃ cs requests q, p.Run cs requests q ∧ q.session = t := by
  obtain ⟨s, answers⟩ := p
  change s.Run rs t at hrun
  induction hrun generalizing answers with
  | nil s => exact ⟨[], [], _, Run.nil _, rfl⟩
  | cons hstep hrest ih =>
    rename_i s t u r rs
    obtain ⟨hallows, answer, log, log', hperform⟩ := hstep
    obtain ⟨c, rfl⟩ := I.exists_call hallows
    have I' : Informed ⟨t, answers ++ answer.toList⟩ := by
      intro b hb
      rcases live_of_perform hperform hb with hold | hnew
      · exact List.mem_append_left _ (I b hold)
      · exact List.mem_append_right _ (by simp [hnew])
    obtain ⟨cs, requests, q, hcs, hq⟩ := ih _ I'
    exact ⟨c :: cs, _, q, Run.cons ⟨hallows, answer, log, log', hperform, rfl⟩ hcs, hq⟩

/-- Calls lead to the same sessions as legal requests. -/
theorem exists_run_iff [Grower G] {config : Config} {g : G} {t : Session G} :
    (∃ cs requests q, (start config g).Run cs requests q ∧ q.session = t) ↔
      Reachable config g t := by
  constructor
  · rintro ⟨cs, requests, q, hrun, rfl⟩
    exact hrun.exists_run
  · rintro ⟨rs, hrun⟩
    exact Informed.exists_run (p := start config g) (fun b hb => by cases hb) hrun

end Client

end Session

end BoundaryTag
