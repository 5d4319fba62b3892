import BoundaryTag.Proofs.LegalUse

/-!
# The order of releases

Blocks that are released in different orders are merged in different ways, but what
is left is the same. Where no two neighbours are free, the free chunks are the gaps
between the chunks in use, so the chunks in use and the length of the arena
determine all others; and a release takes one chunk out of those in use. Only the
bins remember the order, in which they are filled from the front.

Results:

* `Tiles.eq_fill`: the chunks in use determine the tiling.
* `Sound.run_releases`: what a sequence of releases leaves.
* `releases_commute`: two sequences that differ in their order.
-/

namespace BoundaryTag

variable {G : Type} {chunks chunks' l : List Chunk} {lists lists' : FreeLists} {c : Chunk}
  {config : Config} {i j : Nat}

/-! ## The gaps between chunks in use -/

/-- The free chunk from slot `i` to slot `j`, unless there is no room. -/
def gap (i j : Nat) : List Chunk := if i < j then [⟨i, j - (i + 2), .free⟩] else []

/-- The slots from `i` to `j`, with free chunks in the gaps that the given chunks leave. -/
def fill : Nat → List Chunk → Nat → List Chunk
  | i, [], j => gap i j
  | i, c :: rest, j => gap i c.index ++ c :: fill c.stop rest j

theorem gap_self (i : Nat) : gap i i = [] := if_neg (Nat.lt_irrefl i)

theorem gap_stop (hfree : c.isFree) : gap c.index c.stop = [c] := by
  obtain ⟨index, units, status⟩ := c
  rw [Chunk.isFree_iff] at hfree
  unfold gap Chunk.stop
  simp only at hfree ⊢
  rw [if_pos (by omega), hfree, show index + units + 2 - (index + 2) = units by omega]

/-- The chunks in use determine a tiling without free neighbours. -/
theorem Tiles.eq_fill (h : Tiles i l j) (hsettled : Settled l) : l = fill i (used l) j := by
  induction l generalizing i with
  | nil =>
    obtain rfl : i = j := h
    exact (gap_self i).symm
  | cons c l ih =>
    obtain ⟨rfl, -, hl⟩ := h
    obtain ⟨hhead, hrest⟩ := List.isChain_cons.mp hsettled
    have hfill := ih hl hrest
    cases hc : c.isFree
    · rw [used_cons_of_used (Chunk.isFree_eq_false_iff.mp hc), fill, gap_self, List.nil_append,
        ← hfill]
    · -- what follows a free chunk is the end of the arena or a chunk in use
      rw [used_cons_of_free hc]
      cases l with
      | nil =>
        obtain rfl : c.stop = j := hl
        exact (gap_stop hc).symm
      | cons d l =>
        have hd : d.isFree = false := Bool.eq_false_iff.mpr fun hd => hhead d rfl ⟨hc, hd⟩
        rw [used_cons_of_used (Chunk.isFree_eq_false_iff.mp hd)] at hfill ⊢
        rw [fill, hl.1, gap_self, List.nil_append] at hfill
        rw [fill, hl.1, gap_stop hc, List.singleton_append, ← hfill]

/-- The lists that hold one chunk. -/
def FreeLists.only (config : Config) (c : Chunk) : FreeLists :=
  fun k => if k = config.classOf c.units then [c] else []

/-- A single free chunk is alone in the list of its class. -/
theorem Filed.eq_only (F : Filed config [c] lists) (hfree : c.isFree) :
    lists = FreeLists.only config c := by
  funext k
  have hperm := F.perm k
  unfold FreeLists.only
  split_ifs with hk
  · subst hk
    rw [Config.members_cons_self hfree] at hperm
    exact List.perm_singleton.mp hperm
  · rw [Config.members_cons_of_not fun h => hk h.2.symm] at hperm
    exact List.perm_nil.mp hperm

namespace Heap.WellFormed

variable {h h' : Heap G}

/-- Heaps of the same size with the same chunks in use have the same chunks. -/
theorem chunks_eq (W : h.WellFormed chunks lists) (W' : h'.WellFormed chunks' lists')
    (hsize : h'.arena.slots.size = h.arena.slots.size) (hused : used chunks' = used chunks) :
    chunks' = chunks := by
  rw [W'.tiles.eq_fill W'.settled, W.tiles.eq_fill W.settled, hused, hsize]

/-- Without a chunk in use the arena is one free chunk, alone in its list. -/
theorem eq_whole (W : h.WellFormed chunks lists) (hnone : used chunks = [])
    (hpos : 0 < h.arena.slots.size) :
    chunks = [⟨0, h.arena.slots.size - 2, .free⟩] ∧
      lists = FreeLists.only h.config ⟨0, h.arena.slots.size - 2, .free⟩ := by
  have hchunks := W.tiles.eq_fill W.settled
  rw [hnone, fill, gap, if_pos hpos, Nat.zero_add] at hchunks
  exact ⟨hchunks, (hchunks ▸ W.filed).eq_only rfl⟩

end Heap.WellFormed

namespace Session

variable {s t u : Session G} {grower : G} {p : Nat} {ps qs : List Nat}

/-! ## Sequences of releases -/

/-- The session `t`, of the chunks `chunks'`, is what the release of the blocks at `ps` leaves of
the session `s`, of the chunks `chunks`. -/
structure Freed (s : Session G) (chunks : List Chunk) (ps : List Nat) (t : Session G)
    (chunks' : List Chunk) : Prop where
  config : t.heap.config = s.heap.config
  start : t.heap.arena.start = s.heap.arena.start
  size : t.heap.arena.slots.size = s.heap.arena.slots.size
  live : t.live = s.live.filter (·.address ∉ ps)
  used : used chunks' = (used chunks).filter (s.heap.arena.blockAddress · ∉ ps)

namespace Freed

theorem refl (s : Session G) (chunks : List Chunk) : s.Freed chunks [] s chunks :=
  ⟨rfl, rfl, rfl, by simp, by simp⟩

theorem cons {chunks'' : List Chunk} (F : s.Freed chunks [p] t chunks')
    (F' : t.Freed chunks' ps u chunks'') : s.Freed chunks (p :: ps) u chunks'' where
  config := F'.config.trans F.config
  start := F'.start.trans F.start
  size := F'.size.trans F.size
  live := by
    rw [F'.live, F.live, List.filter_filter]
    apply List.filter_congr
    simp [Bool.and_comm]
  used := by
    rw [F'.used, F.used, List.filter_filter, Arena.blockAddress_congr F.start]
    apply List.filter_congr
    simp [Bool.and_comm]

/-- The blocks that are released later are still there. -/
theorem exists_live (F : s.Freed chunks [p] t chunks') (hnodup : (p :: ps).Nodup)
    (hlive : ∀ q ∈ p :: ps, ∃ b ∈ s.live, b.address = q) :
    ∀ q ∈ ps, ∃ b ∈ t.live, b.address = q := by
  intro q hq
  obtain ⟨b, hb, rfl⟩ := hlive q (List.mem_cons_of_mem _ hq)
  refine ⟨b, ?_, rfl⟩
  rw [F.live, List.mem_filter]
  have hne : b.address ≠ p := fun heq => (List.nodup_cons.mp hnodup).1 (heq ▸ hq)
  exact ⟨hb, by simpa using hne⟩

end Freed

namespace Sound

/-- Without blocks no chunk is in use. -/
theorem used_eq_nil (S : s.Sound chunks lists) (hnone : s.live = []) : used chunks = [] := by
  have hperm := S.addresses
  rw [hnone] at hperm
  exact List.map_eq_nil_iff.mp (List.nil_perm.mp hperm)

variable [Grower G]

/-- A release takes the chunk of its block out of those in use. -/
theorem step_release (S : s.Sound chunks lists) (hlive : ∃ b ∈ s.live, b.address = p)
    (hstep : s.Step (.release p) t) :
    ∃ chunks' lists', t.Sound chunks' lists' ∧ s.Freed chunks [p] t chunks' := by
  obtain ⟨b, hb, rfl⟩ := hlive
  obtain ⟨c, hc, haddr⟩ := S.exists_chunk hb
  obtain ⟨hmem, hused⟩ := mem_used.mp hc
  obtain ⟨pre, post, rfl⟩ := List.append_of_mem hmem
  obtain ⟨h', hrun, W, hwithin⟩ :=
    Heap.WellFormed.release_chunk (f := ⟨pre, c, post, lists⟩) S.wellFormed hused
  rw [← haddr] at hrun
  obtain ⟨hallows, answer, log, log', hperform⟩ := hstep
  obtain ⟨-, rfl⟩ := (runs_release hrun).unique hperform
  refine ⟨_, _, S.of_runs hallows (runs_release hrun) W, hwithin.config, hwithin.arena.start,
    hwithin.size, by simp [giveBack], ?_⟩
  -- the other chunks have other addresses
  have hother : ∀ l : List Chunk, (∀ d ∈ l, d ∈ pre ++ post) →
      l.filter (s.heap.arena.blockAddress · ∉ [b.address]) = l := by
    intro l hl
    rw [List.filter_eq_self]
    intro d hd
    have hne : d ≠ c := by
      rintro rfl
      exact nodup_middle S.wellFormed.consistent.holds.apart (hl d hd)
    have hdmem : d ∈ pre ++ c :: post :=
      List.perm_middle.mem_iff.mpr (List.mem_cons_of_mem _ (hl d hd))
    simp only [List.mem_singleton, decide_eq_true_eq, haddr]
    exact fun heq => hne (S.wellFormed.eq_of_address hdmem hmem heq)
  rw [Focus.used_reclaimed, used_append, used_cons_of_used hused, List.filter_append,
    List.filter_cons_of_neg (by simp [haddr]), hother, hother]
  · exact fun d hd => List.mem_append_right _ (mem_used.mp hd).1
  · exact fun d hd => List.mem_append_left _ (mem_used.mp hd).1

/-- Releases take the chunks of their blocks out of those in use. -/
theorem run_releases (S : s.Sound chunks lists) (hlive : ∀ p ∈ ps, ∃ b ∈ s.live, b.address = p)
    (hnodup : ps.Nodup) (hrun : s.Run (ps.map .release) t) :
    ∃ chunks' lists', t.Sound chunks' lists' ∧ s.Freed chunks ps t chunks' := by
  induction ps generalizing s chunks lists with
  | nil =>
    cases hrun
    exact ⟨chunks, lists, S, Freed.refl _ _⟩
  | cons p ps ih =>
    cases hrun with
    | cons hstep hrest =>
      obtain ⟨chunks₁, lists₁, S₁, F₁⟩ := S.step_release (hlive p (List.mem_cons_self ..)) hstep
      obtain ⟨chunks₂, lists₂, S₂, F₂⟩ :=
        ih S₁ (F₁.exists_live hnodup hlive) (List.nodup_cons.mp hnodup).2 hrest
      exact ⟨chunks₂, lists₂, S₂, F₁.cons F₂⟩

/-- Blocks can be released one after the other. -/
theorem exists_releases (S : s.Sound chunks lists)
    (hlive : ∀ p ∈ ps, ∃ b ∈ s.live, b.address = p) (hnodup : ps.Nodup) :
    ∃ t, s.Run (ps.map .release) t := by
  induction ps generalizing s chunks lists with
  | nil => exact ⟨s, Run.nil s⟩
  | cons p ps ih =>
    have hp := hlive p (List.mem_cons_self ..)
    have hallows : s.Allows (.release p) := .inr hp
    obtain ⟨answer, s₁, -, -, hrun, -, -⟩ := S.step (.release p) hallows
    have hstep := Step.of_runs hallows hrun
    obtain ⟨chunks₁, lists₁, S₁, F₁⟩ := S.step_release hp hstep
    obtain ⟨t, hrest⟩ := ih S₁ (F₁.exists_live hnodup hlive) (List.nodup_cons.mp hnodup).2
    exact ⟨t, Run.cons hstep hrest⟩

end Sound

/-! ## Two orders -/

variable [Grower G]

/-- After every run of legal requests: blocks can be released in any order, and the order leaves no
trace but in the bins. The chunks, the counters, the lengths of the lists and the overflow list are
the same, and each bin has the same chunks. When all blocks have been released, all of the arena is
one free chunk, alone in its list. -/
theorem releases_commute (h : Reachable config grower s)
    (hlive : ∀ p ∈ ps, ∃ b ∈ s.live, b.address = p) (hnodup : ps.Nodup) (horder : ps.Perm qs) :
    (∃ t u, s.Run (ps.map .release) t ∧ s.Run (qs.map .release) u) ∧
    ∀ t u, s.Run (ps.map .release) t → s.Run (qs.map .release) u →
      ∃ chunks lists lists', t.heap.WellFormed chunks lists ∧ u.heap.WellFormed chunks lists' ∧
        lists SizeClass.overflow = lists' SizeClass.overflow ∧
        (∀ k, (lists k).Perm (lists' k)) ∧
        (∃ stats, t.heap.stats = .ok stats ∧ u.heap.stats = .ok stats) ∧
        (∃ lengths, t.heap.freeListLengths = .ok lengths ∧ u.heap.freeListLengths = .ok lengths) ∧
        ((∀ b ∈ s.live, b.address ∈ ps) → t.live = [] ∧ u.live = [] ∧
          (0 < s.heap.arena.slots.size → chunks = [⟨0, s.heap.arena.slots.size - 2, .free⟩] ∧
            lists = FreeLists.only config ⟨0, s.heap.arena.slots.size - 2, .free⟩ ∧
            lists' = FreeLists.only config ⟨0, s.heap.arena.slots.size - 2, .free⟩)) := by
  obtain ⟨chunks₀, lists₀, S, rfl⟩ := sound_of_reachable h
  have hlive' : ∀ p ∈ qs, ∃ b ∈ s.live, b.address = p := fun p hp =>
    hlive p (horder.mem_iff.mpr hp)
  have hnodup' : qs.Nodup := horder.nodup_iff.mp hnodup
  have hsame : ∀ p, p ∉ ps ↔ p ∉ qs := fun p => not_congr horder.mem_iff
  obtain ⟨t₁, hrun₁⟩ := S.exists_releases hlive hnodup
  obtain ⟨u₁, hrun₁'⟩ := S.exists_releases hlive' hnodup'
  refine ⟨⟨t₁, u₁, hrun₁, hrun₁'⟩, ?_⟩
  intro t u hrun hrun'
  obtain ⟨chunks, lists, T, F⟩ := S.run_releases hlive hnodup hrun
  obtain ⟨chunks', lists', U, F'⟩ := S.run_releases hlive' hnodup' hrun'
  have hsize : u.heap.arena.slots.size = t.heap.arena.slots.size := F'.size.trans F.size.symm
  have hconfig : u.heap.config = t.heap.config := F'.config.trans F.config.symm
  have hchunks : chunks' = chunks := by
    apply T.wellFormed.chunks_eq U.wellFormed hsize
    rw [F.used, F'.used]
    apply List.filter_congr
    simp [hsame]
  subst hchunks
  have W := T.wellFormed
  have W' := U.wellFormed
  refine ⟨chunks', lists, lists', W, W', ?_, ?_, ⟨_, W.stats_eq, ?_⟩,
    ⟨_, W.freeListLengths_eq, ?_⟩, ?_⟩
  · rw [W.filed.ordered, W'.filed.ordered, hconfig]
  · intro k
    have hperm := W'.filed.perm k
    rw [hconfig] at hperm
    exact (W.filed.perm k).trans hperm.symm
  · rw [W'.stats_eq, hsize]
  · rw [W'.freeListLengths_eq, hconfig]
  · intro hall
    have hnone : t.live = [] := by
      rw [F.live, List.filter_eq_nil_iff]
      intro b hb
      simpa using hall b hb
    have hnone' : u.live = [] := by
      rw [F'.live, List.filter_eq_nil_iff]
      intro b hb
      simpa using horder.mem_iff.mp (hall b hb)
    refine ⟨hnone, hnone', ?_⟩
    intro hpos
    obtain ⟨hwhole, hlists⟩ := W.eq_whole (T.used_eq_nil hnone) (F.size ▸ hpos)
    obtain ⟨-, hlists'⟩ := W'.eq_whole (U.used_eq_nil hnone') (F'.size ▸ hpos)
    rw [F.size] at hwhole hlists
    rw [F.config] at hlists
    rw [F'.size, F'.config] at hlists'
    exact ⟨hwhole, hlists, hlists'⟩

/-- Two blocks with a free chunk between them. -/
theorem releases_commute_small : ∃ s t u chunks lists lists', Reachable smallBins smallBuffer s ∧
    s.live = [⟨4304, 40⟩, ⟨4112, 20⟩] ∧ s.Run [.release 4304, .release 4112] t ∧
    s.Run [.release 4112, .release 4304] u ∧ t.heap.WellFormed chunks lists ∧
    u.heap.WellFormed chunks lists' ∧ (∀ k, (lists k).Perm (lists' k)) ∧ t.live = [] := by
  obtain ⟨s, hs, hlive⟩ := reachable_small
  have horder : [4304, 4112].Perm [4112, 4304] := List.Perm.swap ..
  obtain ⟨⟨t, u, hrun, hrun'⟩, hsame⟩ :=
    releases_commute hs (by rw [hlive]; decide) (by decide) horder
  obtain ⟨chunks, lists, lists', W, W', -, hperm, -, -, hall⟩ := hsame t u hrun hrun'
  obtain ⟨hnone, -, -⟩ := hall (by rw [hlive]; decide)
  exact ⟨s, t, u, chunks, lists, lists', hs, hlive, hrun, hrun', W, W', hperm, hnone⟩

end Session

end BoundaryTag
