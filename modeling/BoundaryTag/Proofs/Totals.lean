import BoundaryTag.Proofs.Inspection

/-!
# The totals of well-formed heaps

The counters are sums over the chunks of the arena, and together the chunks cover
every byte of it.

Results:

* `WellFormed.stats_eq`: the counters, as sums over the chunks.
* `WellFormed.coveredBytes_eq`: what the counters cover is the arena.
-/

namespace BoundaryTag

variable {G : Type} {a : Arena G} {pre post l chunks : List Chunk} {lists : FreeLists}
  {c : Chunk} {i j : Nat}

/-- The data units of the chunks together. -/
def unitSum (chunks : List Chunk) : Nat := (chunks.map Chunk.units).sum

@[simp] theorem unitSum_append (pre post : List Chunk) :
    unitSum (pre ++ post) = unitSum pre + unitSum post := by simp [unitSum]

/-- The totals of the chunks. -/
def Stats.ofChunks (arenaBytes : Nat) (l : List Chunk) : Stats where
  arenaBytes := arenaBytes
  chunks := l.length
  freeChunks := freeCount l
  freeUnits := unitSum (l.filter Chunk.isFree)
  usedChunks := (used l).length
  usedUnits := unitSum (used l)

/-- Free chunks and chunks in use share the units. -/
theorem unitSum_filter_add_used (l : List Chunk) :
    unitSum (l.filter Chunk.isFree) + unitSum (used l) = unitSum l := by
  induction l with
  | nil => rfl
  | cons c l ih =>
    unfold unitSum used at *
    cases hc : c.isFree <;> simp [hc] <;> omega

theorem freeCount_add_used (l : List Chunk) : freeCount l + (used l).length = l.length := by
  induction l with
  | nil => rfl
  | cons c l ih =>
    unfold freeCount used at *
    cases hc : c.isFree <;> simp [hc] <;> omega

/-- The chunks of a tiling cover it with their data and their tags. -/
theorem Tiles.sum_eq (h : Tiles i l j) : i + unitSum l + 2 * l.length = j := by
  induction l generalizing i with
  | nil => exact h
  | cons c l ih =>
    obtain ⟨rfl, -, h⟩ := h
    have := ih h
    unfold unitSum Chunk.stop at *
    simp only [List.map_cons, List.sum_cons, List.length_cons]
    omega

namespace Stats

theorem count_ofChunks (bytes : Nat) (pre : List Chunk) (c : Chunk)
    (h : unitSum (pre ++ [c]) + 2 * (pre ++ [c]).length < Word.limit) :
    (ofChunks bytes pre).count c.units c.isFree = .ok (ofChunks bytes (pre ++ [c])) := by
  have hunits := unitSum_filter_add_used pre
  have hcounts := freeCount_add_used pre
  simp only [unitSum_append, List.length_append, List.length_singleton] at h
  have hc : unitSum [c] = c.units := by simp [unitSum]
  rw [hc] at h
  have hchunks : Word.add pre.length 1 = .ok (pre.length + 1) := Word.add_eq_ok (by omega)
  unfold count
  cases hfree : c.isFree
  · have h₁ : Word.add (used pre).length 1 = .ok ((used pre).length + 1) :=
      Word.add_eq_ok (by omega)
    have h₂ : Word.add (unitSum (used pre)) c.units = .ok (unitSum (used pre) + c.units) :=
      Word.add_eq_ok (by omega)
    simp only [ofChunks, hchunks, h₁, h₂, bind, Except.bind, pure, Except.pure]
    simp [used, freeCount, hfree, unitSum]
  · have h₁ : Word.add (freeCount pre) 1 = .ok (freeCount pre + 1) := Word.add_eq_ok (by omega)
    have h₂ : Word.add (unitSum (pre.filter Chunk.isFree)) c.units =
        .ok (unitSum (pre.filter Chunk.isFree) + c.units) := Word.add_eq_ok (by omega)
    simp only [ofChunks, hchunks, h₁, h₂, bind, Except.bind, pure, Except.pure, if_true]
    simp [used, freeCount, hfree, unitSum]

theorem coveredBytes_ofChunks (bytes : Nat) (l : List Chunk)
    (h : (unitSum l + 2 * l.length) * unitBytes < Word.limit) :
    (ofChunks bytes l).coveredBytes = .ok ((unitSum l + 2 * l.length) * unitBytes) := by
  have hunits := unitSum_filter_add_used l
  have hlt : unitSum l + 2 * l.length < Word.limit := by
    unfold unitBytes at h
    omega
  unfold coveredBytes ofChunks
  simp only
  rw [Word.add_eq_ok (by omega), Word.mul_eq_ok (by omega), hunits]
  simp only [bind, Except.bind]
  rw [Word.add_eq_ok hlt]
  exact Word.mul_eq_ok h

end Stats

namespace Heap

/-- One chunk is counted, and the totals go on with the one above. -/
theorem statsFrom_bind {next : Option Nat} (h : a.nextAdjacent i = .ok next) (s : Stats) :
    statsFrom a i s = (do s.count (← a.units i) (← a.isFree i)) >>= fun t =>
      next.elim (.ok t) (statsFrom a · t) := by
  rw [statsFrom]
  split
  · rename_i e he
    rw [h] at he
    cases he
  · rename_i he
    rw [h] at he
    cases he
    simp only [bind_assoc]
    rfl
  · rename_i d he
    rw [h] at he
    cases he
    simp only [bind_assoc]
    rfl

/-- One step of the walk that adds up the chunks. -/
theorem statsFrom_step {units : Nat} {free : Bool} {next : Option Nat} {s s' : Stats}
    (hunits : a.units i = .ok units) (hfree : a.isFree i = .ok free)
    (hcount : s.count units free = .ok s') (hnext : a.nextAdjacent i = .ok next) :
    statsFrom a i s = next.elim (.ok s') (statsFrom a · s') := by
  rw [statsFrom_bind hnext]
  simp only [hunits, hfree, hcount, bind, Except.bind]

namespace WellFormed

variable {h : Heap G}

theorem size_lt (W : h.WellFormed chunks lists) :
    h.arena.slots.size * unitBytes < Word.limit := by
  have := W.short
  unfold maxUnits at this
  unfold unitBytes Word.limit
  omega

theorem arenaBytes_eq (W : h.WellFormed chunks lists) :
    h.arenaBytes = .ok (h.arena.slots.size * unitBytes) := Word.mul_eq_ok W.size_lt

theorem count_ofChunks (W : h.WellFormed (pre ++ c :: post) lists) (bytes : Nat) :
    (Stats.ofChunks bytes pre).count c.units c.isFree =
      .ok (Stats.ofChunks bytes (pre ++ [c])) := by
  obtain ⟨hpre, hu, -⟩ := tiles_split.mp W.tiles
  have hsum := (hpre.concat hu).sum_eq
  have hlt := (W.tagged c (by simp)).stop_lt_limit W.short
  exact Stats.count_ofChunks bytes pre c (by omega)

/-- The walk from a chunk on, with the chunks below it added up. -/
theorem statsFrom_eq (W : h.WellFormed (pre ++ c :: post) lists) (bytes : Nat) :
    statsFrom h.arena c.index (Stats.ofChunks bytes pre) =
      .ok (Stats.ofChunks bytes (pre ++ c :: post)) := by
  have hc := W.tagged c (by simp)
  have habove := (tiles_split.mp W.tiles).2.2
  have hnext := habove.nextAdjacent_eq hc W.short
  induction post generalizing pre c with
  | nil =>
    rw [statsFrom_step hc.units_eq hc.isFree_eq (W.count_ofChunks bytes) hnext]
    rfl
  | cons d post ih =>
    rw [statsFrom_step hc.units_eq hc.isFree_eq (W.count_ofChunks bytes) hnext]
    rw [List.append_cons pre c (d :: post)] at W ⊢
    have hd := W.tagged d (by simp)
    have habove' := (tiles_split.mp W.tiles).2.2
    exact ih W hd habove' (habove'.nextAdjacent_eq hd W.short)

/-- The counters are the totals of the chunks. -/
theorem stats_eq (W : h.WellFormed chunks lists) :
    h.stats = .ok (Stats.ofChunks (h.arena.slots.size * unitBytes) chunks) := by
  unfold stats Arena.first Arena.length
  simp only [W.arenaBytes_eq, bind, Except.bind]
  cases chunks with
  | nil =>
    have hempty : 0 = h.arena.slots.size := W.tiles
    rw [← hempty]
    rfl
  | cons c chunks =>
    have hc := W.tagged c (by simp)
    rw [if_pos (by have := hc.index_lt; omega)]
    have hzero : c.index = 0 := W.tiles.1
    have hwalk := @statsFrom_eq _ [] chunks lists c h W (h.arena.slots.size * unitBytes)
    rw [hzero] at hwalk
    exact hwalk

/-- The chunks cover the arena. -/
theorem coveredBytes_eq (W : h.WellFormed chunks lists) (bytes : Nat) :
    (Stats.ofChunks bytes chunks).coveredBytes = .ok (h.arena.slots.size * unitBytes) := by
  have hsum := W.tiles.sum_eq
  have hlt := W.size_lt
  rw [Nat.zero_add] at hsum
  rw [Stats.coveredBytes_ofChunks _ _ (by rw [hsum]; exact hlt), hsum]

end WellFormed

end Heap

end BoundaryTag
