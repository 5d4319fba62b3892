import BoundaryTag.Arena.FreeList
import BoundaryTag.Config

/-!
# Heaps

A heap is an arena whose free chunks are filed in eleven lists, one for each
size class of its configuration. The bins are last in, first out; the overflow
list ascends in the arena. The heap keeps the heads, and the lists run
through the tags of the chunks.
-/

namespace BoundaryTag

/-- An arena with its free lists. -/
structure Heap (G : Type) where
  arena : Arena G
  config : Config
  /-- The first chunk of each list. -/
  heads : Vector (Option Nat) classCount

namespace Heap

variable {G α : Type}

/-- A heap without memory. -/
def new (grower : G) (config : Config) : Heap G :=
  ⟨Arena.empty grower, config, Vector.replicate classCount none⟩

/-- The first chunk of a list. -/
def head (h : Heap G) (k : SizeClass) : Option Nat := h.heads[k]

/-- The size class of a chunk. -/
def classAt (h : Heap G) (c : Nat) : Except Fault SizeClass :=
  return h.config.classOf (← h.arena.units c)

/-- An action on the arena of the heap. -/
@[inline] def onArena (x : Action (Arena G) α) : Action (Heap G) α :=
  fun ⟨⟨arena, config, heads⟩, log⟩ =>
    match x ⟨arena, log⟩ with
    | .ok a ⟨arena, log⟩ => .ok a ⟨⟨arena, config, heads⟩, log⟩
    | .error e ⟨arena, log⟩ => .error e ⟨⟨arena, config, heads⟩, log⟩

/-- Replaces the first chunk of a list. -/
def setHead (k : SizeClass) (head : Option Nat) : Action (Heap G) Unit :=
  Action.change fun ⟨arena, config, heads⟩ => ⟨arena, config, heads.set k.val head k.isLt⟩

theorem run_onArena_ok {x : Action (Arena G) α} {t : Traced (Heap G)} {a : α} {arena : Arena G}
    {log : Array Event} (h : x ⟨t.state.arena, t.log⟩ = .ok a ⟨arena, log⟩) :
    onArena x t = .ok a ⟨{ t.state with arena := arena }, log⟩ := by
  simp only [onArena, h]

theorem run_onArena_error {x : Action (Arena G) α} {t : Traced (Heap G)} {e : Fault}
    {arena : Arena G} {log : Array Event}
    (h : x ⟨t.state.arena, t.log⟩ = .error e ⟨arena, log⟩) :
    onArena x t = .error e ⟨{ t.state with arena := arena }, log⟩ := by
  simp only [onArena, h]

end Heap

end BoundaryTag
