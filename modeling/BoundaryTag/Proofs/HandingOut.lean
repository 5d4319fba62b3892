import BoundaryTag.Proofs.RoundTrip

/-!
# Handing out

A free chunk is handed out whole unless more than two units are left over. Then only
its upper part is, which takes over its footer, and the rest keeps its header. The rest
stands in the list where the chunk stood as long as its class is the same; otherwise it
has come into a lower class, which is a bin, and is at the front there. No other chunk
and no other entry of a list is touched.

Results:

* `Focus.handedOut_taken`: what a chunk that is taken becomes.
* `Heap.exists_take_handedOut`: the same of any listed chunk of a well-formed heap.
-/

namespace BoundaryTag

variable {G : Type} {config : Config} {f : Focus} {k : SizeClass} {n : Nat}

namespace Focus

/-- The chunk `g.chunk` was handed out of the free chunk `f.chunk` for `n` units, and `rest` is what
is left of that one. -/
structure HandedOut (config : Config) (n : Nat) (f : Focus) (rest : List Chunk) (g : Focus) :
    Prop where
  /-- All other chunks are as before. -/
  below : g.below = f.below ++ rest
  above : g.above = f.above
  inUse : g.chunk.status = .inUse
  footer : g.chunk.footer = f.chunk.footer
  whole : f.chunk.units ≤ n + 2 → rest = [] ∧ g.chunk = f.chunk.withStatus .inUse
  /-- The rest is the lower part of the chunk, and free as that was. -/
  part : n + 2 < f.chunk.units → rest = [f.chunk.withUnits (f.chunk.units - n - 2)] ∧
    1 ≤ f.chunk.units - n - 2 ∧ g.chunk.units = n ∧
    g.chunk.index = (f.chunk.withUnits (f.chunk.units - n - 2)).stop
  /-- In the same class the rest stands where the chunk stood. -/
  stays : ∀ r ∈ rest, config.classOf r.units = config.classOf f.chunk.units →
    ∃ l₁ l₂, f.lists (config.classOf f.chunk.units) = l₁ ++ f.chunk :: l₂ ∧
      g.lists = Function.update f.lists (config.classOf f.chunk.units) (l₁ ++ r :: l₂)
  /-- In another class it is at the front of a bin. -/
  moves : ∀ r ∈ rest, config.classOf r.units ≠ config.classOf f.chunk.units →
    config.classOf r.units ≠ SizeClass.overflow ∧
      g.lists = Function.update (f.lists.without [f.chunk]) (config.classOf r.units)
        (r :: f.lists (config.classOf r.units))
  /-- All other chunks are in the lists as before. -/
  others : g.lists.without rest = f.lists.without [f.chunk]

section Shrunk

variable {rest : Nat} (F : Filed config f.chunks f.lists) (hasc : Ascending f.chunks)
  (hfree : f.chunk.isFree)

include F hasc hfree

omit hasc in
/-- The lists with a chunk that has shrunk within its class. -/
theorem exists_lists_shrunk (hclass : config.classOf rest = config.classOf f.chunk.units) :
    ∃ l₁ l₂, f.lists (config.classOf f.chunk.units) = l₁ ++ f.chunk :: l₂ ∧
      (f.shrunk config rest).lists = Function.update f.lists (config.classOf f.chunk.units)
        (l₁ ++ f.chunk.withUnits rest :: l₂) := by
  have hlisted := F.mem_iff.mpr ⟨show f.chunk ∈ f.chunks by simp [chunks], hfree, rfl⟩
  obtain ⟨l₁, l₂, hsplit, hl₁⟩ := List.eq_append_cons_of_mem hlisted
  refine ⟨l₁, l₂, hsplit, ?_⟩
  show (if _ then f.lists.resize config f.chunk rest else _) = _
  rw [if_pos hclass, FreeLists.resize, hsplit, List.replace_append_right hl₁,
    List.replace_cons_self]

omit hfree in
/-- The lists with a chunk that has shrunk into another class. -/
theorem lists_shrunk_of_ne (hrest : rest ≤ f.chunk.units)
    (hclass : config.classOf rest ≠ config.classOf f.chunk.units) :
    config.classOf rest ≠ SizeClass.overflow ∧
      (f.shrunk config rest).lists = Function.update (f.lists.without [f.chunk])
        (config.classOf rest) (f.chunk.withUnits rest :: f.lists (config.classOf rest)) := by
  have hlt : config.classOf rest < config.classOf f.chunk.units :=
    lt_of_le_of_ne (config.classOf_mono hrest) hclass
  have hbin : config.classOf rest ≠ SizeClass.overflow := by
    intro hover
    rw [hover] at hlt
    exact absurd (Fin.le_last _) (not_le.mpr hlt)
  have hother : f.lists.without [f.chunk] (config.classOf rest) =
      f.lists (config.classOf rest) := by
    rw [← F.remove_eq_without hasc.nodup, FreeLists.remove, Function.update_of_ne hclass]
  refine ⟨hbin, ?_⟩
  show (if _ then _ else (f.lists.remove config f.chunk).insert config f.below
    (f.chunk.withUnits rest) f.above) = _
  rw [if_neg hclass, F.remove_eq_without hasc.nodup, FreeLists.insert, Chunk.units_withUnits,
    if_neg hbin, hother]

/-- All other chunks are in the lists as if the chunk had left. -/
theorem without_shrunk (hrest : rest < f.chunk.units) :
    (f.shrunk config rest).lists.without [f.chunk.withUnits rest] =
      f.lists.without [f.chunk] := by
  have hshort : (f.chunk.withUnits rest).stop ≤ f.chunk.stop := by
    show f.chunk.index + rest + 2 ≤ f.chunk.index + f.chunk.units + 2
    omega
  have hasc' : Ascending (f.shrunk config rest).chunks := hasc.shorten rfl hshort
  rw [← (filed_shrunk F hasc hfree).remove_eq_without hasc'.nodup,
    ← F.remove_eq_without hasc.nodup, remove_shrunk F hasc hfree hrest]

end Shrunk

/-- A free chunk is handed out, whole or in part. -/
theorem handedOut_taken (F : Filed config f.chunks f.lists) (hasc : Ascending f.chunks)
    (hfree : f.chunk.isFree) (n : Nat) :
    ∃ rest, f.HandedOut config n rest (f.taken config n) := by
  by_cases hlt : n + 2 < f.chunk.units
  · rw [taken_of_lt config f hlt]
    have hrest : f.chunk.units - (n + 2) < f.chunk.units := by omega
    refine ⟨[f.chunk.withUnits (f.chunk.units - (n + 2))], rfl, rfl, rfl, Chunk.footer_top hlt,
      fun h => absurd hlt (Nat.not_lt.mpr h), fun _ => ?_, ?_, ?_,
      without_shrunk F hasc hfree hrest⟩
    · exact ⟨rfl, by omega, rfl, rfl⟩
    · intro r hr hclass
      obtain rfl := List.mem_singleton.mp hr
      exact exists_lists_shrunk F hfree hclass
    · intro r hr hclass
      obtain rfl := List.mem_singleton.mp hr
      exact lists_shrunk_of_ne F hasc (Nat.le_of_lt hrest) hclass
  · rw [taken_of_not_lt config f hlt]
    refine ⟨[], (List.append_nil _).symm, rfl, rfl, rfl, fun _ => ⟨rfl, rfl⟩,
      fun h => absurd h hlt, by simp, by simp, ?_⟩
    rw [FreeLists.without_nil]
    exact F.remove_eq_without hasc.nodup _

end Focus

/-! ## Heaps -/

namespace Heap

variable {h : Heap G}

/-- Of any well-formed heap, any listed chunk is handed out for any number of units that it has: the
heap is well formed again, with the chunk split as told, and the slots of the chunks in use are as
they were. -/
theorem exists_take_handedOut (W : h.WellFormed f.chunks f.lists) (hlisted : f.chunk ∈ f.lists k)
    (hn : 1 ≤ n) (hle : n ≤ f.chunk.units) :
    ∃ rest g h', (Heap.take f.chunk.index n).Runs h g.chunk.index h' ∧
      h'.WellFormed g.chunks g.lists ∧ f.HandedOut h.config n rest g ∧
      h.Keeps (usedSlots f.chunks) h' := by
  obtain ⟨-, hfree, -⟩ := W.filed.mem_iff.mp hlisted
  obtain ⟨h', hrun, W', hwithin⟩ := W.take hfree hn hle
  obtain ⟨rest, hhanded⟩ := Focus.handedOut_taken W.filed W.tiles.ascending hfree n
  exact ⟨rest, _, h', hrun, W', hhanded, W.keeps_of_within hwithin⟩

set_option maxRecDepth 100000 in
/-- One unit is taken of a free chunk of four units in a heap in use. -/
theorem exists_take_handedOut_small :
    ∃ s, Session.Reachable Session.smallBins Session.smallBuffer s ∧
      s.live = [⟨4304, 40⟩, ⟨4112, 20⟩] ∧ ∃ (f g : Focus) (rest : List Chunk) (h' : Heap Region),
        s.heap.WellFormed f.chunks f.lists ∧ f.chunk.index = 6 ∧ 4 ≤ f.chunk.units ∧
        (Heap.take 6 1).Runs s.heap g.chunk.index h' ∧ h'.WellFormed g.chunks g.lists ∧
        f.HandedOut s.heap.config 1 rest g := by
  have hplay : ((Session.start Session.smallBins Session.smallBuffer).play [.allocate 20,
      .allocate 5, .allocate 40, .release 4256]).map (fun s => (s.live,
        (s.heap.firstFit 4).toOption)) =
      some ([⟨4304, 40⟩, ⟨4112, 20⟩], some (some 6)) := by
    decide +kernel
  obtain ⟨s, hreach, hseen⟩ := Session.exists_reachable_of_play hplay
  rw [Prod.mk.injEq] at hseen
  obtain ⟨hlive, hfit⟩ := hseen
  obtain ⟨chunks, lists, S, -⟩ := Session.sound_of_reachable hreach
  have W := S.wellFormed
  rw [W.firstFit_eq] at hfit
  obtain ⟨c, hchoice, hindex⟩ := Option.map_eq_some_iff.mp (Option.some.inj hfit)
  obtain ⟨hmem, hfree, hle⟩ := mem_of_choice W.filed hchoice
  obtain ⟨pre, post, rfl⟩ := List.append_of_mem hmem
  let f : Focus := ⟨pre, c, post, lists⟩
  have Wf : s.heap.WellFormed f.chunks f.lists := W
  obtain ⟨rest, g, h', hrun, W', hhanded, -⟩ := exists_take_handedOut Wf
    (Wf.filed.mem_iff.mpr ⟨hmem, hfree, rfl⟩) (Nat.le_refl 1) (Nat.le_trans (by decide) hle)
  have hrun' : (Heap.take 6 1).Runs s.heap g.chunk.index h' := hindex ▸ hrun
  exact ⟨s, hreach, hlive, f, g, rest, h', Wf, hindex, hle, hrun', W', hhanded⟩

end Heap

end BoundaryTag
