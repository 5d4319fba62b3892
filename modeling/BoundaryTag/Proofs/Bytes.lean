import BoundaryTag.Arena.Bytes
import BoundaryTag.Proofs.Operations

/-!
# Bytes of blocks

A holder of a block stores bytes by address. A store changes the bytes it names
and no others, so a store within the data of a chunk in use touches no tag, and
the heap stays well formed. Offsets count from the start of the arena.

Results:

* `Arena.exists_storeBytes`: stores inside the arena succeed, and what they change.
* `WellFormed.store`: a store into a block.
* `Arena.loadByte_eq`, `Arena.loadBytes_eq`: loads read the bytes.
-/

namespace BoundaryTag

variable {G : Type} {chunks : List Chunk} {lists : FreeLists} {c : Chunk} {base k x : Nat}

namespace Arena

variable {a b : Arena G}

/-- The byte at an offset. -/
def byteAt (a : Arena G) (x : Nat) : Option UInt8 :=
  a.slots[x / unitBytes]?.map (·.byte (x % unitBytes))

/-! ## Stores -/

/-- The arena with one byte replaced. -/
def withByte (a : Arena G) (x : Nat) (v : UInt8) : Arena G :=
  a.modified (x / unitBytes) (·.setByte (x % unitBytes) v)

theorem byteAt_withByte (hx : k / unitBytes < a.slots.size) (v : UInt8) (x : Nat) :
    (a.withByte k v).byteAt x = if x = k then some v else a.byteAt x := by
  have hmod : ∀ n, n % unitBytes < 16 := fun n => Nat.mod_lt _ (by decide)
  unfold byteAt withByte
  rw [getElem?_modified]
  by_cases hslot : k / unitBytes = x / unitBytes
  · rw [if_pos hslot, ← hslot, Array.getElem?_eq_getElem hx]
    simp only [Option.map_some]
    rw [Slot.byte_setByte _ (hmod k) (hmod x)]
    by_cases hbyte : x % unitBytes = k % unitBytes
    · have hxk : x = k := by
        rw [← Nat.div_add_mod x unitBytes, ← Nat.div_add_mod k unitBytes, hslot, hbyte]
      rw [if_pos hbyte, if_pos hxk]
    · have hne : x ≠ k := fun h => hbyte (by rw [h])
      rw [if_neg hbyte, if_neg hne]
  · have hne : x ≠ k := fun h => hslot (by rw [h])
    rw [if_neg hslot, if_neg hne]

theorem runs_storeByte (hbase : base ∈ a.start) (hlt : base + k < Word.limit)
    (hk : k / unitBytes < a.slots.size) (v : UInt8) :
    (storeByte (base + k) v).Runs a () (a.withByte k v) := by
  apply Action.Runs.bind (Action.runs_read (by exact rfl))
  rw [offsetOf_eq hbase hlt]
  exact runs_update hk _

/-- The arena `b` is `a` with `bytes` stored from the offset `k` on. -/
structure Stored (a : Arena G) (k : Nat) (bytes : List UInt8) (b : Arena G) : Prop where
  start : b.start = a.start
  size : b.slots.size = a.slots.size
  grower : b.grower = a.grower
  /-- Slots without one of the bytes are as before. -/
  slots : ∀ i, (i + 1) * unitBytes ≤ k ∨ k + bytes.length ≤ i * unitBytes →
    b.slots[i]? = a.slots[i]?
  bytes : ∀ x, b.byteAt x =
    if k ≤ x ∧ x < k + bytes.length then bytes[x - k]? else a.byteAt x

/-- Stores that stay inside the arena succeed. -/
theorem exists_storeBytes (hbase : base ∈ a.start)
    (hlt : base + a.slots.size * unitBytes < Word.limit) (bytes : List UInt8)
    (hk : k + bytes.length ≤ a.slots.size * unitBytes) :
    ∃ b, (storeBytes (base + k) bytes).Runs a () b ∧ a.Stored k bytes b := by
  induction bytes generalizing a k with
  | nil =>
    refine ⟨a, Action.runs_pure _ _, ⟨rfl, rfl, rfl, fun _ _ => rfl, ?_⟩⟩
    intro x
    rw [if_neg (by simp only [List.length_nil]; omega)]
  | cons v rest ih =>
    rw [List.length_cons] at hk
    have hslot : k / unitBytes < a.slots.size := by
      unfold unitBytes at *
      omega
    have hsize : (a.withByte k v).slots.size = a.slots.size := size_modified _ _ _
    obtain ⟨b, hrun, hb⟩ := ih (a := a.withByte k v) (k := k + 1) hbase (by rw [hsize]; exact hlt)
      (by rw [hsize]; omega)
    refine ⟨b, ?_, ⟨hb.start, ?_, hb.grower, ?_, ?_⟩⟩
    · exact Action.Runs.bind (runs_storeByte hbase (by omega) hslot v) hrun
    · rw [hb.size, hsize]
    · intro i hi
      rw [List.length_cons] at hi
      have hne : k / unitBytes ≠ i := by
        unfold unitBytes at *
        omega
      rw [hb.slots i (by omega), withByte, getElem?_modified, if_neg hne]
    · intro x
      rw [hb.bytes, byteAt_withByte hslot, List.length_cons]
      by_cases hx : x = k
      · subst hx
        rw [if_neg (by omega), if_pos rfl, if_pos (by omega), Nat.sub_self]
        rfl
      · rw [if_neg hx]
        by_cases hin : k + 1 ≤ x ∧ x < k + 1 + rest.length
        · rw [if_pos hin, if_pos (by omega), show x - k = x - (k + 1) + 1 by omega]
          rfl
        · rw [if_neg hin, if_neg (by omega)]

/-! ## Loads -/

theorem exists_byteAt (hx : x / unitBytes < a.slots.size) : ∃ v, a.byteAt x = some v := by
  rw [byteAt, Array.getElem?_eq_getElem hx]
  exact ⟨_, rfl⟩

theorem loadByte_eq (hbase : base ∈ a.start) (hlt : base + x < Word.limit) {v : UInt8}
    (hv : a.byteAt x = some v) : a.loadByte (base + x) = .ok v := by
  obtain ⟨s, hs, rfl⟩ := Option.map_eq_some_iff.mp (by exact hv)
  simp only [loadByte, offsetOf_eq hbase hlt, slot_eq_ok_iff.mpr hs, bind, Except.bind]
  rfl

/-- A list of computations that all succeed. -/
theorem mapM_eq_ok {α β ε : Type} {l : List α} {f : α → Except ε β} {g : α → β}
    (h : ∀ x ∈ l, f x = .ok (g x)) : l.mapM f = .ok (l.map g) := by
  induction l with
  | nil => rfl
  | cons x l ih =>
    rw [List.mapM_cons, h x (by simp), ih fun y hy => h y (by simp [hy])]
    rfl

/-- Loads that stay inside the arena give its bytes. -/
theorem loadBytes_eq (hbase : base ∈ a.start)
    (hlt : base + a.slots.size * unitBytes < Word.limit) {n : Nat}
    (hk : k + n ≤ a.slots.size * unitBytes) :
    a.loadBytes (base + k) n =
      .ok ((List.range n).map fun i => (a.byteAt (k + i)).getD 0) := by
  apply mapM_eq_ok
  intro i hi
  rw [List.mem_range] at hi
  have hx : (k + i) / unitBytes < a.slots.size := by
    unfold unitBytes at *
    omega
  obtain ⟨v, hv⟩ := exists_byteAt hx
  rw [Nat.add_assoc, loadByte_eq hbase (by omega) hv, hv]
  rfl

end Arena

/-! ## Stores into blocks -/

namespace Heap.WellFormed

variable {h : Heap G}

/-- A heap whose tags are as before is as well formed as before. -/
theorem sameTags {b : Arena G} (W : h.WellFormed chunks lists) (hstart : b.start = h.arena.start)
    (hsize : b.slots.size = h.arena.slots.size)
    (hslots : ∀ i ∈ tagSlots chunks, b.slots[i]? = h.arena.slots[i]?) :
    (h.withArena b).WellFormed chunks lists := by
  refine ⟨?_, ?_, W.settled, W.heads, ?_, W.filed, ?_,
    W.placed.congr hstart hsize⟩
  · rw [arena_withArena, hsize]; exact W.tiles
  · intro c hc
    have hindex := hslots c.index (mem_tagSlots.mpr ⟨c, hc, .inl rfl⟩)
    have hfooter := hslots c.footer (mem_tagSlots.mpr ⟨c, hc, .inr rfl⟩)
    exact (W.tagged c hc).sameSlots hindex hfooter
  · intro k
    apply (W.threaded k).congr
    intro i hi
    have hi' := tagSlots_subset (fun c hc => (W.filed.mem_iff.mp hc).1) hi
    rw [arena_withArena, Arena.linkAt, Arena.linkAt, hslots i hi']
  · rw [arena_withArena, hsize]; exact W.short

/-- A store into the data of a chunk in use. -/
theorem store (W : h.WellFormed chunks lists) (hc : c ∈ used chunks) (hbase : base ∈ h.arena.start)
    {bytes : List UInt8} (hlow : unitBytes * (c.index + 1) ≤ k)
    (hhigh : k + bytes.length ≤ unitBytes * (c.index + 1 + c.units)) :
    ∃ b, (onArena (Arena.storeBytes (base + k) bytes)).Runs h () (h.withArena b) ∧
      (h.withArena b).WellFormed chunks lists ∧ h.arena.Stored k bytes b := by
  have hmem := (mem_used.mp hc).1
  have hstop := (W.tiles.bounds hmem).2.1
  unfold Chunk.stop at hstop
  obtain ⟨b, hrun, hb⟩ := Arena.exists_storeBytes (k := k) hbase (W.placed.stop_lt base hbase) bytes
    (by unfold unitBytes at *; omega)
  refine ⟨b, runs_onArena hrun, W.sameTags hb.start hb.size fun i hi => hb.slots i ?_, hb⟩
  obtain ⟨d, hd, hi⟩ := mem_tagSlots.mp hi
  have hfooter : c.footer = c.index + 1 + c.units := Nat.add_right_comm _ _ _
  have hdfooter := d.index_lt_footer
  have hdstop := d.footer_lt_stop
  have hcstop := c.footer_lt_stop
  unfold unitBytes at *
  by_cases hdc : d = c
  · subst hdc
    omega
  · have := W.tiles.ascending.apart hd hmem hdc
    omega

end Heap.WellFormed

end BoundaryTag
