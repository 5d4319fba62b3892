import BoundaryTag.Heap.Basic

/-!
# Heaps that share a resource

Some growers act on something that they do not own, such as the program break
of the process. A heap then holds its own part of the grower only, and the
shared part is lent to it for the length of one action.
-/

namespace BoundaryTag.Heap

variable {G S α : Type}

/-- The heap with its grower joined to the shared part. -/
def attach (h : Heap G) (shared : S) : Heap (G × S) :=
  let ⟨⟨start, slots, grower, unmapped⟩, config, heads⟩ := h
  ⟨⟨start, slots, (grower, shared), unmapped⟩, config, heads⟩

/-- The heap and the shared part. -/
def detach (h : Heap (G × S)) : Heap G × S :=
  let ⟨⟨start, slots, (grower, shared), unmapped⟩, config, heads⟩ := h
  (⟨⟨start, slots, grower, unmapped⟩, config, heads⟩, shared)

@[simp] theorem detach_attach (h : Heap G) (shared : S) : (h.attach shared).detach = (h, shared) :=
  rfl

@[simp] theorem attach_detach (h : Heap (G × S)) : h.detach.1.attach h.detach.2 = h := rfl

/-- An action of the joined heap as an action on the heap beside the shared part. -/
def lend (x : Action (Heap (G × S)) α) : Action (Heap G × S) α :=
  Action.within (fun (h, shared) => h.attach shared) (fun _ h => h.detach) x

end BoundaryTag.Heap
