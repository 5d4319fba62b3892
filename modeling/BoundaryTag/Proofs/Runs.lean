import BoundaryTag.Heap.Basic

/-!
# Successful runs

`x.Runs s a s'` says that the action `x` ends without a fault when it is
started in the state `s`, whatever stands in the log: it gives the value `a`
and leaves the state `s'`. Every statement about what an operation does is a
statement of this form, so that none of them is silent about faults.

Results:

* `Action.Runs.bind` composes runs, and the `runs_` lemmas give the run of each
  primitive.
* `Action.Runs.unique`: an action that runs has no other outcome.
* `Heap.runs_onArena` lifts a run on the arena to the heap.
-/

namespace BoundaryTag

namespace Action

variable {σ α β : Type}

/-- The action succeeds from `s` with the value `a` and the state `s'`, under every log. -/
def Runs (x : Action σ α) (s : σ) (a : α) (s' : σ) : Prop :=
  ∀ log, ∃ log', x ⟨s, log⟩ = .ok a ⟨s', log'⟩

namespace Runs

theorem bind {x : Action σ α} {f : α → Action σ β} {s s' s'' : σ} {a : α} {b : β}
    (hx : x.Runs s a s') (hf : (f a).Runs s' b s'') : (x >>= f).Runs s b s'' := by
  intro log
  obtain ⟨log₁, h₁⟩ := hx log
  obtain ⟨log₂, h₂⟩ := hf log₁
  exact ⟨log₂, by rw [run_bind_ok h₁, h₂]⟩

/-- A run determines the outcome under every log. -/
theorem unique {x : Action σ α} {s s' s'' : σ} {a b : α} {log log' : Array Event}
    (hx : x.Runs s a s') (h : x ⟨s, log⟩ = .ok b ⟨s'', log'⟩) : b = a ∧ s'' = s' := by
  obtain ⟨log₁, h₁⟩ := hx log
  rw [h₁] at h
  cases h
  exact ⟨rfl, rfl⟩

end Runs

/-- An action that succeeds has succeeded in its first part. -/
theorem exists_of_bind_eq_ok {x : Action σ α} {f : α → Action σ β} {t v : Traced σ} {b : β}
    (h : (x >>= f) t = .ok b v) : ∃ a u, x t = .ok a u ∧ f a u = .ok b v := by
  cases hx : x t with
  | ok a u => exact ⟨a, u, rfl, (run_bind_ok hx).symm.trans h⟩
  | error e u =>
    rw [run_bind_error hx] at h
    cases h

theorem runs_pure (a : α) (s : σ) : (pure a : Action σ α).Runs s a s := fun log => ⟨log, rfl⟩

theorem runs_read {f : σ → Except Fault α} {s : σ} {a : α} (h : f s = .ok a) :
    (read f).Runs s a s := fun log => ⟨log, run_read_ok h⟩

theorem runs_ofExcept {x : Except Fault α} {a : α} (h : x = .ok a) (s : σ) :
    (ofExcept x).Runs s a s := runs_read h

theorem runs_change (f : σ → σ) (s : σ) : (change f).Runs s () (f s) :=
  fun log => ⟨log, run_change f ⟨s, log⟩⟩

theorem runs_record (events : List Event) (s : σ) : (record events : Action σ Unit).Runs s () s :=
  fun log => ⟨log ++ events, rfl⟩

theorem runs_require {condition : Bool} (fault : Fault) (h : condition = true) (s : σ) :
    (require condition fault).Runs s () s := fun log => ⟨log, run_require_true h _⟩

theorem runs_within {τ : Type} {view : τ → σ} {put : τ → σ → τ} {x : Action σ α} {t : τ} {s : σ}
    {a : α} (hx : x.Runs (view t) a s) : (within view put x).Runs t a (put t s) := by
  intro log
  obtain ⟨log', h⟩ := hx log
  exact ⟨log', run_within_ok h⟩

end Action

namespace Heap

variable {G α : Type}

/-- The heap with another arena. -/
def withArena (h : Heap G) (a : Arena G) : Heap G := { h with arena := a }

@[simp] theorem arena_withArena (h : Heap G) (a : Arena G) : (h.withArena a).arena = a := rfl

@[simp] theorem config_withArena (h : Heap G) (a : Arena G) :
    (h.withArena a).config = h.config := rfl

@[simp] theorem head_withArena (h : Heap G) (a : Arena G) (k : SizeClass) :
    (h.withArena a).head k = h.head k := rfl

theorem runs_onArena {x : Action (Arena G) α} {h : Heap G} {a : α} {b : Arena G}
    (hx : x.Runs h.arena a b) : (onArena x).Runs h a (h.withArena b) := by
  intro log
  obtain ⟨log', h'⟩ := hx log
  exact ⟨log', run_onArena_ok h'⟩

/-- Actions on the arena may be lifted one by one. -/
theorem onArena_bind {β : Type} (x : Action (Arena G) α) (f : α → Action (Arena G) β) :
    onArena (x >>= f) = onArena x >>= fun a => onArena (f a) := by
  funext ⟨⟨arena, config, heads⟩, log⟩
  show onArena (EStateM.bind x f) _ = EStateM.bind (onArena x) _ _
  unfold onArena EStateM.bind
  simp only
  cases x ⟨arena, log⟩ <;> rfl

/-- The heap with another first chunk of the list `k`. -/
def withHead (h : Heap G) (k : SizeClass) (c : Option Nat) : Heap G :=
  { h with heads := h.heads.set k.val c k.isLt }

@[simp] theorem arena_withHead (h : Heap G) (k : SizeClass) (c : Option Nat) :
    (h.withHead k c).arena = h.arena := rfl

@[simp] theorem config_withHead (h : Heap G) (k : SizeClass) (c : Option Nat) :
    (h.withHead k c).config = h.config := rfl

theorem head_withHead (h : Heap G) (k j : SizeClass) (c : Option Nat) :
    (h.withHead k c).head j = if j = k then c else h.head j := by
  simp only [head, withHead, Fin.getElem_fin, Vector.getElem_set]
  by_cases hjk : j = k
  · subst hjk; simp
  · have hne : k.val ≠ j.val := fun he => hjk (Fin.ext he.symm)
    simp [hjk, hne]

theorem runs_setHead (h : Heap G) (k : SizeClass) (c : Option Nat) :
    (setHead k c).Runs h () (h.withHead k c) := Action.runs_change _ _

end Heap

end BoundaryTag
