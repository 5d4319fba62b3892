import BoundaryTag.Event
import BoundaryTag.Fault

/-!
# Actions

An action changes a state, leaves events in a log, and ends with a value or a
fault. A fault keeps the state and the log as they stood when it arose, so
what was written before a failed assertion can be told from what was not.

Results: `run_bind_ok`, `run_bind_error` and the `run_` lemmas of the
primitives say what a sequence of actions does to state and log; `within_bind`
that an action on a part of the state may be carried out step by step.
-/

namespace BoundaryTag

/-- A state together with the events recorded so far. -/
structure Traced (σ : Type) where
  state : σ
  log : Array Event

/-- An action on a state `σ` with a result in `α`. -/
abbrev Action (σ α : Type) := EStateM Fault (Traced σ) α

namespace Action

variable {σ τ α β : Type}

/-- Computes from the state without changing it. -/
@[inline] def read (f : σ → Except Fault α) : Action σ α := fun t =>
  match f t.state with
  | .ok a => .ok a t
  | .error e => .error e t

/-- A value that may be a fault. -/
@[inline] def ofExcept (x : Except Fault α) : Action σ α := read fun _ => x

/-- Replaces the state. -/
@[inline] def change (f : σ → σ) : Action σ Unit := fun ⟨s, log⟩ => .ok () ⟨f s, log⟩

/-- Records events. -/
@[inline] def record (events : List Event) : Action σ Unit := fun ⟨s, log⟩ =>
  .ok () ⟨s, log ++ events⟩

/-- Gives up with `fault` unless `condition` holds. -/
@[inline] def require (condition : Bool) (fault : Fault) : Action σ Unit :=
  if condition then pure () else throw fault

/-- An action on a state that is seen in another one, and put back there. -/
@[inline] def within (view : τ → σ) (put : τ → σ → τ) (x : Action σ α) : Action τ α :=
  fun ⟨t, log⟩ =>
    match x ⟨view t, log⟩ with
    | .ok a ⟨s, log⟩ => .ok a ⟨put t s, log⟩
    | .error e ⟨s, log⟩ => .error e ⟨put t s, log⟩

theorem run_read_ok {f : σ → Except Fault α} {t : Traced σ} {a : α} (h : f t.state = .ok a) :
    read f t = .ok a t := by simp [read, h]

theorem run_read_error {f : σ → Except Fault α} {t : Traced σ} {e : Fault}
    (h : f t.state = .error e) : read f t = .error e t := by simp [read, h]

theorem run_bind_ok {x : Action σ α} {f : α → Action σ β} {t u : Traced σ} {a : α}
    (h : x t = .ok a u) : (x >>= f) t = f a u := by
  show EStateM.bind x f t = _
  unfold EStateM.bind
  rw [h]

theorem run_bind_error {x : Action σ α} {f : α → Action σ β} {t u : Traced σ} {e : Fault}
    (h : x t = .error e u) : (x >>= f) t = .error e u := by
  show EStateM.bind x f t = _
  unfold EStateM.bind
  rw [h]

@[simp] theorem run_pure (a : α) (t : Traced σ) : (pure a : Action σ α) t = .ok a t := rfl

@[simp] theorem run_throw (e : Fault) (t : Traced σ) : (throw e : Action σ α) t = .error e t := rfl

@[simp] theorem run_change (f : σ → σ) (t : Traced σ) :
    change f t = .ok () ⟨f t.state, t.log⟩ := rfl

@[simp] theorem run_record (events : List Event) (t : Traced σ) :
    record events t = .ok () ⟨t.state, t.log ++ events⟩ := rfl

theorem run_require_true {condition : Bool} {fault : Fault} (h : condition = true)
    (t : Traced σ) : require condition fault t = .ok () t := by subst h; rfl

theorem run_require_false {condition : Bool} {fault : Fault} (h : condition = false)
    (t : Traced σ) : require condition fault t = .error fault t := by subst h; rfl

section Within

variable {view : τ → σ} {put : τ → σ → τ}

theorem run_within_ok {x : Action σ α} {t : τ} {s : σ} {a : α} {log log' : Array Event}
    (h : x ⟨view t, log⟩ = .ok a ⟨s, log'⟩) :
    within view put x ⟨t, log⟩ = .ok a ⟨put t s, log'⟩ := by
  simp only [within, h]

theorem exists_of_within_eq_ok {x : Action σ α} {t u : τ} {a : α} {log log' : Array Event}
    (h : within view put x ⟨t, log⟩ = .ok a ⟨u, log'⟩) :
    ∃ s, x ⟨view t, log⟩ = .ok a ⟨s, log'⟩ ∧ u = put t s := by
  cases hx : x ⟨view t, log⟩ with
  | ok b v =>
    simp only [within, hx] at h
    cases h
    exact ⟨_, rfl, rfl⟩
  | error e v =>
    simp only [within, hx] at h
    cases h

/-- What is put back is what is seen next. -/
theorem within_bind (hview : ∀ t s, view (put t s) = s)
    (hput : ∀ t s s', put (put t s) s' = put t s') (x : Action σ α) (f : α → Action σ β) :
    within view put (x >>= f) = within view put x >>= fun a => within view put (f a) := by
  funext ⟨t, log⟩
  show within view put (EStateM.bind x f) _ = EStateM.bind (within view put x) _ _
  unfold within EStateM.bind
  simp only
  cases x ⟨view t, log⟩ with
  | ok a u => simp only [hview, hput]
  | error e u => rfl

end Within

end Action

end BoundaryTag
