import BoundaryTag.Proofs.LegalUse

/-!
# Allocation and release as a round trip

A block that is released at once gives back the chunk from which it was taken. Its
part of the chunk has free space nowhere but below, where the rest of the chunk
is, so the release joins just these two. In the lists the chunk has left its
place, and a bin gets it back at the front. The search for a block of the same
size then ends at this chunk again.

Results:

* `Focus.reclaimed_taken`: the chunk is whole again.
* `Focus.lists_refiled`: what the lists are then.
* `exists_release_restores`: the same after every run of legal requests.
-/

namespace BoundaryTag

variable {G : Type} {config : Config} {chunks : List Chunk} {lists : FreeLists} {c d : Chunk}
  {f : Focus} {j k n size : Nat}

namespace Chunk

/-- The rest of a chunk and its upper part are the chunk. -/
theorem join_top (hfree : c.isFree) (hlt : n + 2 < c.units) :
    (c.withUnits (c.units - (n + 2))).join ((c.top n).withStatus .free) = c := by
  obtain ⟨index, units, status⟩ := c
  rw [isFree_iff] at hfree
  simp only [join, top, withUnits, withStatus, mk.injEq, true_and] at hfree hlt ⊢
  exact ⟨by omega, hfree.symm⟩

end Chunk

namespace Focus

/-! ## The chunk is whole again -/

theorem joinAbove_of_used (h : ∀ d ∈ f.above.head?, d.isFree = false) :
    f.joinAbove config = f := by
  obtain ⟨below, c, above, lists⟩ := f
  cases above with
  | nil => rfl
  | cons d rest =>
    have hd : d.isFree = false := h d rfl
    simp [joinAbove, hd]

theorem joinBelow_of_used (h : ∀ d ∈ f.below.getLast?, d.isFree = false) :
    f.joinBelow config = f := by
  unfold joinBelow
  split
  · rfl
  · rename_i d hd
    rw [h d hd]
    rfl

theorem joinBelow_concat {below above : List Chunk} (hd : d.isFree) :
    joinBelow config ⟨below ++ [d], c, above, lists⟩ = ⟨below, d.join c, above,
      ((lists.remove config d).remove config c).insert config below (d.join c) above⟩ := by
  simp [joinBelow, hd]

/-- The chunk has left its list and come back. -/
def refiled (config : Config) (f : Focus) : Focus :=
  { f with lists := (f.lists.remove config f.chunk).insert config f.below f.chunk f.above }

/-- A chunk that was handed out whole. -/
theorem reclaimed_whole (hsettled : Settled f.chunks) (hfree : f.chunk.isFree) :
    reclaimed config ⟨f.below, f.chunk.withStatus .inUse, f.above,
      f.lists.remove config f.chunk⟩ = f.refiled config := by
  obtain ⟨-, -, hlast, hhead⟩ := settled_middle.mp hsettled
  have hfreed : freed config ⟨f.below, f.chunk.withStatus .inUse, f.above,
      f.lists.remove config f.chunk⟩ = f.refiled config := by
    have hback : (f.chunk.withStatus .inUse).withStatus .free = f.chunk :=
      Chunk.withStatus_free hfree
    unfold freed refiled
    simp only [hback]
  rw [reclaimed, hfreed, joinAbove_of_used, joinBelow_of_used]
  · intro d hd
    exact Bool.eq_false_iff.mpr fun hd' => hlast d hd ⟨hd', hfree⟩
  · intro d hd
    exact Bool.eq_false_iff.mpr fun hd' => hhead d hd ⟨hfree, hd'⟩

section Shrunk

variable {rest : Nat} (F : Filed config f.chunks f.lists) (hasc : Ascending f.chunks)
  (hfree : f.chunk.isFree)

include F hasc hfree

/-- The lists follow a chunk that shrinks. -/
theorem filed_shrunk :
    Filed config (f.shrunk config rest).chunks (f.shrunk config rest).lists := by
  have hc : f.chunk ∉ f.below ++ f.above := nodup_middle (nodup_tagSlots hasc)
  unfold shrunk
  split
  · rename_i hclass
    exact F.resize hfree hc hclass
  · exact (F.remove hfree hc).insert hfree

/-- What has shrunk leaves the lists as it would have left them before. -/
theorem remove_shrunk (hlt : rest < f.chunk.units) :
    (f.shrunk config rest).lists.remove config (f.chunk.withUnits rest) =
      f.lists.remove config f.chunk := by
  have hc : f.chunk ∉ f.below ++ f.above := nodup_middle (nodup_tagSlots hasc)
  have hshort : (f.chunk.withUnits rest).stop ≤ f.chunk.stop := by
    unfold Chunk.stop Chunk.withUnits
    simp only
    omega
  have hnew : f.chunk.withUnits rest ∉ f.below ++ f.above :=
    nodup_middle (nodup_tagSlots (hasc.shorten rfl hshort))
  unfold shrunk
  split
  · rename_i hclass
    refine FreeLists.remove_resize hclass fun hmem => ?_
    rcases List.mem_cons.mp (List.perm_middle.mem_iff.mp (F.mem_iff.mp hmem).1) with heq | hmem
    · have hunits := congrArg Chunk.units heq
      exact Nat.ne_of_lt hlt hunits
    · exact hnew hmem
  · exact (F.remove hfree hc).remove_insert hfree hnew

end Shrunk

/-- A chunk of which the upper part was handed out. -/
theorem reclaimed_top (htiles : Tiles 0 f.chunks j) (hsettled : Settled f.chunks)
    (F : Filed config f.chunks f.lists) (hfree : f.chunk.isFree) (hn : 1 ≤ n)
    (hlt : n + 2 < f.chunk.units) :
    reclaimed config ⟨f.below ++ [f.chunk.withUnits (f.chunk.units - (n + 2))], f.chunk.top n,
      f.above, (f.shrunk config (f.chunk.units - (n + 2))).lists⟩ = f.refiled config := by
  obtain ⟨-, -, -, hhead⟩ := settled_middle.mp hsettled
  have hasc := htiles.ascending
  have hsplit := (htiles.split_top hlt hn).ascending
  rw [List.append_cons] at hsplit
  have htop : (f.chunk.top n).withStatus .free ∉
      f.below ++ [f.chunk.withUnits (f.chunk.units - (n + 2))] ++ f.above :=
    nodup_middle (nodup_tagSlots (hsplit.shorten rfl (Nat.le_refl _)))
  have hfiled : Filed config (f.below ++ [f.chunk.withUnits (f.chunk.units - (n + 2))] ++ f.above)
      (f.shrunk config (f.chunk.units - (n + 2))).lists := by
    rw [List.append_assoc]
    exact filed_shrunk F hasc hfree
  have hrest : f.chunk.units - (n + 2) < f.chunk.units := by omega
  have hfree' : (f.chunk.withUnits (f.chunk.units - (n + 2))).isFree := hfree
  rw [reclaimed, joinAbove_of_used]
  · unfold freed
    simp only
    rw [joinBelow_concat hfree', Chunk.join_top hfree hlt, FreeLists.remove_comm,
      hfiled.remove_insert rfl htop, remove_shrunk F hasc hfree hrest]
    rfl
  · intro d hd
    exact Bool.eq_false_iff.mpr fun hd' => hhead d hd ⟨hfree, hd'⟩

/-- What was handed out and is released. -/
theorem reclaimed_taken (htiles : Tiles 0 f.chunks j) (hsettled : Settled f.chunks)
    (F : Filed config f.chunks f.lists) (hfree : f.chunk.isFree) (hn : 1 ≤ n) :
    (f.taken config n).reclaimed config = f.refiled config := by
  by_cases hlt : n + 2 < f.chunk.units
  · rw [taken_of_lt config f hlt, reclaimed_top htiles hsettled F hfree hn hlt]
  · rw [taken_of_not_lt config f hlt, reclaimed_whole hsettled hfree]

/-! ## The lists afterwards -/

/-- The chunk is at the front of its list, if that is a bin; all else is in the lists as before. -/
theorem lists_refiled (F : Filed config f.chunks f.lists) (k : SizeClass) :
    (f.refiled config).lists k =
      if k = config.classOf f.chunk.units ∧ k ≠ SizeClass.overflow then
        f.chunk :: (f.lists k).erase f.chunk
      else f.lists k := by
  show (f.lists.remove config f.chunk).insert config f.below f.chunk f.above k = _
  unfold FreeLists.insert FreeLists.remove
  by_cases hk : k = config.classOf f.chunk.units
  · subst hk
    rw [Function.update_self, Function.update_self]
    by_cases hover : config.classOf f.chunk.units = SizeClass.overflow
    · rw [if_pos hover, if_neg (by simp [hover]), hover, F.ordered]
      rfl
    · rw [if_neg hover, if_pos ⟨rfl, hover⟩]
  · rw [Function.update_of_ne hk, Function.update_of_ne hk, if_neg fun h => hk h.1]

/-- The search ends at the chunk again. -/
theorem choice_refiled (F : Filed config f.chunks f.lists)
    (F' : Filed config f.chunks (f.refiled config).lists)
    (hfound : config.choice f.lists n = some f.chunk) :
    config.choice (f.refiled config).lists n = some f.chunk := by
  obtain ⟨-, -, hle⟩ := mem_of_choice F hfound
  obtain ⟨hfirst, hlower⟩ := (choice_eq_some_iff F).mp hfound
  refine (choice_eq_some_iff F').mpr ⟨?_, ?_⟩
  · rw [lists_refiled F]
    split
    · exact List.find?_cons_of_pos (by simpa using hle)
    · exact hfirst
  · intro k hk d hd
    exact hlower k hk d (F.mem_iff.mpr (F'.mem_iff.mp hd))

/-! ## The same chunk again -/

/-- What is handed out is told by the chunks. -/
theorem taken_refiled : ((f.refiled config).taken config n).chunk = (f.taken config n).chunk ∧
    ((f.refiled config).taken config n).chunks = (f.taken config n).chunks := by
  by_cases hlt : n + 2 < f.chunk.units
  · rw [taken_of_lt config f hlt, taken_of_lt config (f.refiled config) hlt]
    exact ⟨rfl, rfl⟩
  · rw [taken_of_not_lt config f hlt, taken_of_not_lt config (f.refiled config) hlt]
    exact ⟨rfl, rfl⟩

/-- What is handed out is the upper end of the chunk. -/
theorem span_taken : f.chunk.index ≤ (f.taken config n).chunk.index ∧
    (f.taken config n).chunk.stop = f.chunk.stop := by
  by_cases hlt : n + 2 < f.chunk.units
  · rw [taken_of_lt config f hlt]
    refine ⟨?_, ?_⟩
    · unfold Chunk.top
      simp only
      omega
    · rw [Chunk.stop_eq_footer_add, Chunk.footer_top hlt, ← Chunk.stop_eq_footer_add]
  · rw [taken_of_not_lt config f hlt]
    exact ⟨Nat.le_refl _, rfl⟩

theorem mem_used_taken : (f.taken config n).chunk ∈ used (f.taken config n).chunks :=
  mem_used.mpr ⟨by simp [chunks], status_taken⟩

end Focus

/-! ## Heaps -/

namespace Heap

variable {h h₁ : Heap G} {S : Set Nat}

namespace WellFormed

/-- The block that was handed out last is released. -/
theorem release_taken (W : h.WellFormed f.chunks f.lists)
    (hfound : h.config.choice f.lists n = some f.chunk) (hn : 1 ≤ n)
    (W₁ : h₁.WellFormed (f.taken h.config n).chunks (f.taken h.config n).lists)
    (hwithin : h.Within S h₁) :
    ∃ h₂, (Heap.release (h.arena.blockAddress (f.taken h.config n).chunk)).Runs h₁ () h₂ ∧
      h₂.WellFormed f.chunks (f.refiled h.config).lists ∧
      h₂.config.choice (f.refiled h.config).lists n = some f.chunk ∧ h₂.config = h.config ∧
      h₂.arena.start = h.arena.start := by
  obtain ⟨-, hfree, -⟩ := mem_of_choice W.filed hfound
  obtain ⟨h₂, hrun, W₂, hwithin₂⟩ := W₁.release_chunk Focus.status_taken
  rw [hwithin.config, Focus.reclaimed_taken W.tiles W.settled W.filed hfree hn] at W₂
  rw [Arena.blockAddress_congr hwithin.arena.start] at hrun
  have hconfig := hwithin₂.config.trans hwithin.config
  have F₂ := W₂.filed
  rw [hconfig] at F₂
  refine ⟨h₂, hrun, W₂, ?_, hconfig, hwithin₂.arena.start.trans hwithin.arena.start⟩
  rw [hconfig]
  exact Focus.choice_refiled W.filed F₂ hfound

variable [Grower G]

/-- A block comes to lie at the upper end of the only chunk that is large enough. -/
theorem allocate_only (W : h.WellFormed f.chunks f.lists) (hpos : size ≠ 0) (hsize : Holdable size)
    (hfree : f.chunk.isFree) (hle : unitsFor size ≤ f.chunk.units)
    (honly : ∀ d ∈ f.chunks, d.isFree → unitsFor size ≤ d.units → d = f.chunk) :
    ∃ q h' chunks' lists', (Heap.allocate size).Runs h (.ok q) h' ∧ h'.WellFormed chunks' lists' ∧
      ∃ d ∈ used chunks', q = h'.arena.blockAddress d ∧ d.stop = f.chunk.stop := by
  have hfound := choice_of_unique W.filed (by simp [Focus.chunks]) hfree hle honly
  obtain ⟨h', hrun, W', hwithin⟩ := allocate_found hpos hsize W hfound
  rw [← Arena.blockAddress_congr hwithin.arena.start] at hrun
  exact ⟨_, h', _, _, hrun, W', _, Focus.mem_used_taken, rfl, Focus.span_taken.2⟩

/-- A block that was handed out from `h` is released, and again a block is allocated. -/
theorem roundTrip (hpos : size ≠ 0) (hsize : Holdable size) (W : h.WellFormed f.chunks f.lists)
    (hfound : h.config.choice f.lists (unitsFor size) = some f.chunk)
    (W₁ : h₁.WellFormed (f.taken h.config (unitsFor size)).chunks
      (f.taken h.config (unitsFor size)).lists)
    (hwithin : h.Within S h₁) {c₁ : Chunk} (hc₁ : c₁ = (f.taken h.config (unitsFor size)).chunk) :
    ∃ h₂, (Heap.release (h.arena.blockAddress c₁)).Runs h₁ () h₂ ∧
      h₂.WellFormed f.chunks (f.refiled h.config).lists ∧
      (∃ h₃ lists₃, (Heap.allocate size).Runs h₂ (.ok (h.arena.blockAddress c₁)) h₃ ∧
        h₃.WellFormed (f.taken h.config (unitsFor size)).chunks lists₃) ∧
      ∀ t, 1 ≤ t → t ≤ size →
        (∀ d ∈ f.chunks, d.isFree → unitsFor t ≤ d.units → d = f.chunk) →
        ∃ q h₃ chunks₃ lists₃, (Heap.allocate t).Runs h₂ (.ok q) h₃ ∧
          h₃.WellFormed chunks₃ lists₃ ∧ ∃ d ∈ used chunks₃, q = h₃.arena.blockAddress d ∧
            d.index < c₁.stop ∧ c₁.index < d.stop := by
  subst hc₁
  obtain ⟨-, hfree, hle⟩ := mem_of_choice W.filed hfound
  obtain ⟨h₂, hrun, W₂, hfound₂, hconfig, hstart⟩ :=
    W.release_taken hfound (unitsFor_pos hpos) W₁ hwithin
  have W₂' : h₂.WellFormed (f.refiled h.config).chunks (f.refiled h.config).lists := W₂
  obtain ⟨hchunk, hchunks⟩ := @Focus.taken_refiled h.config f (unitsFor size)
  refine ⟨h₂, hrun, W₂, ?_, ?_⟩
  · obtain ⟨h₃, hrun₃, W₃, -⟩ := allocate_found hpos hsize W₂' hfound₂
    rw [hconfig, Arena.blockAddress_congr hstart, hchunk] at hrun₃
    rw [hconfig, hchunks] at W₃
    exact ⟨h₃, _, hrun₃, W₃⟩
  · intro t ht hts honly
    have hunits : unitsFor t ≤ unitsFor size := by
      unfold unitsFor
      omega
    have hsize' : Holdable t := by
      unfold Holdable at hsize ⊢
      omega
    obtain ⟨q, h₃, chunks₃, lists₃, hrun₃, W₃, d, hd, haddress, hstop⟩ :=
      W₂'.allocate_only (Nat.ne_of_gt ht) hsize' hfree (Nat.le_trans hunits hle) honly
    have hstop₁ : (f.taken h.config (unitsFor size)).chunk.stop = f.chunk.stop :=
      Focus.span_taken.2
    have hstop₂ : d.stop = f.chunk.stop := hstop
    have hlt₁ := (f.taken h.config (unitsFor size)).chunk.index_lt_stop
    have hlt₂ := d.index_lt_stop
    exact ⟨q, h₃, chunks₃, lists₃, hrun₃, W₃, d, hd, haddress, by omega, by omega⟩

end WellFormed

end Heap

/-! ## Sessions -/

namespace Session

variable [Grower G] {grower : G} {s : Session G}

/-- After every run of legal requests: a block is allocated, in the chunk `c₁`, and released at
once. This leaves the free chunk `c`, of which `c₁` was the upper end. If no growth was needed, all
chunks are as before, and the lists too, but for `c` being at the front of its list, if that is a
bin. Of the same size, the next block comes to lie in `c₁` again, among the same chunks; of a
smaller size, in a chunk that overlaps `c₁`, if no free chunk but `c` is large enough. -/
theorem exists_release_restores (h : Reachable config grower s) {p : Nat} {h₁ : Heap G}
    {log log₁ : Array Event}
    (hallocate : Heap.allocate size ⟨s.heap, log⟩ = .ok (.ok p) ⟨h₁, log₁⟩) :
    ∃ chunks lists chunks₁ lists₁ c₁ h₂ chunks₂ lists₂ c,
      s.heap.WellFormed chunks lists ∧ h₁.WellFormed chunks₁ lists₁ ∧ c₁ ∈ used chunks₁ ∧
      p = h₁.arena.blockAddress c₁ ∧
      (Heap.release p).Runs h₁ () h₂ ∧ h₂.WellFormed chunks₂ lists₂ ∧ c ∈ chunks₂ ∧ c.isFree ∧
      c.index ≤ c₁.index ∧ c₁.stop = c.stop ∧
      ((∃ d ∈ chunks, d.isFree ∧ Heap.unitsFor size ≤ d.units) →
        chunks₂ = chunks ∧ ∀ k, lists₂ k =
          if k = config.classOf c.units ∧ k ≠ SizeClass.overflow then c :: (lists k).erase c
          else lists k) ∧
      (∃ h₃ lists₃, (Heap.allocate size).Runs h₂ (.ok p) h₃ ∧ h₃.WellFormed chunks₁ lists₃) ∧
      ∀ t, 1 ≤ t → t ≤ size →
        (∀ d ∈ chunks₂, d.isFree → Heap.unitsFor t ≤ d.units → d = c) →
        ∃ q h₃ chunks₃ lists₃, (Heap.allocate t).Runs h₂ (.ok q) h₃ ∧
          h₃.WellFormed chunks₃ lists₃ ∧ ∃ d ∈ used chunks₃, q = h₃.arena.blockAddress d ∧
            d.index < c₁.stop ∧ c₁.index < d.stop := by
  obtain ⟨chunks, lists, sound, rfl⟩ := sound_of_reachable h
  have W := sound.wellFormed
  obtain ⟨answer, h', hrun, O⟩ := W.exists_outcome size
  obtain ⟨hanswer, rfl⟩ := hrun.unique hallocate
  cases O with
  | zero | tooLarge | outOfMemory => cases hanswer
  | found hpos hsize hchunks hlists hfound W₁ hwithin =>
    rename_i f
    cases hanswer
    subst hchunks hlists
    obtain ⟨-, hfree, -⟩ := mem_of_choice W.filed hfound
    obtain ⟨h₂, hrelease, W₂, hagain, hsmaller⟩ := W.roundTrip hpos hsize hfound W₁ hwithin rfl
    refine ⟨_, _, _, _, _, h₂, _, _, f.chunk, W, W₁, Focus.mem_used_taken, ?_, hrelease, W₂,
      by simp [Focus.chunks], hfree, Focus.span_taken.1, Focus.span_taken.2, ?_, hagain, hsmaller⟩
    · rw [Arena.blockAddress_congr hwithin.arena.start]
    · exact fun _ => ⟨rfl, Focus.lists_refiled W.filed⟩
  | grown hpos hsize hnone hgrowth hf W₀ K hfound hlength hstart hgrower W₁ hwithin =>
    rename_i f h₀ base
    cases hanswer
    obtain ⟨-, hfree, -⟩ := mem_of_choice W₀.filed hfound
    obtain ⟨h₂, hrelease, W₂, hagain, hsmaller⟩ := W₀.roundTrip hpos hsize hfound W₁ hwithin rfl
    refine ⟨_, _, _, _, _, h₂, _, _, f.chunk, W, W₁, Focus.mem_used_taken, ?_, hrelease, W₂,
      by simp [Focus.chunks], hfree, Focus.span_taken.1, Focus.span_taken.2, ?_, hagain, hsmaller⟩
    · rw [Arena.blockAddress_congr hwithin.arena.start]
    · rintro ⟨d, hd, hdfree, hle⟩
      exact absurd hle (Nat.not_le.mpr ((choice_eq_none_iff W.filed).mp hnone d hd hdfree))

set_option maxRecDepth 100000 in
/-- The upper end of a chunk of seven units is handed out, given back and handed out again. -/
theorem exists_release_restores_seven : ∃ s h₁ h₂ h₃ log₁, Reachable smallBins smallBuffer s ∧
    Heap.allocate 16 ⟨s.heap, #[]⟩ = .ok (.ok 4208) ⟨h₁, log₁⟩ ∧
    (Heap.release 4208).Runs h₁ () h₂ ∧ (Heap.allocate 16).Runs h₂ (.ok 4208) h₃ := by
  have hplay : ((start smallBins smallBuffer).play
      [.allocate 60, .allocate 5, .release 4112]).bind (fun s =>
        match Heap.allocate 16 ⟨s.heap, #[]⟩ with
        | .ok (.ok p) _ => some p
        | .ok (.error _) _ => none
        | .error _ _ => none) = some 4208 := by
    decide +kernel
  obtain ⟨s, hs, hp⟩ := Option.bind_eq_some_iff.mp hplay
  split at hp
  · rename_i p state hallocate
    cases hp
    have hreach : Reachable smallBins smallBuffer s := ⟨_, run_of_play hs⟩
    obtain ⟨-, -, -, -, -, h₂, -, -, -, -, -, -, -, hrelease, -, -, -, -, -, -, ⟨h₃, -, hagain, -⟩,
      -⟩ := exists_release_restores hreach hallocate
    exact ⟨s, _, h₂, h₃, _, hreach, hallocate, hrelease, hagain⟩
  · cases hp
  · cases hp

end Session

end BoundaryTag
