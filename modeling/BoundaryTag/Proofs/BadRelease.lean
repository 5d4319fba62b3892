import BoundaryTag.Proofs.LegalUse
import BoundaryTag.Proofs.Marks
import BoundaryTag.Proofs.Requests

/-!
# Bad releases

A release looks at one status word: the one in the slot below its address. Memory is
full of slots that were headers once, and a program may write what it likes into its
blocks. As long as no program writes the word of a chunk in use where a status word
would stand, that word marks the headers of the chunks in use and nothing else, and
every address that is not the one of a block in the hands of the program is rejected
before anything is written. A block that is released twice in a row is rejected
whatever the memory holds, since the first release takes the mark away.

Results:

* `Heap.release_rejected`: an address whose slot is not marked.
* `Sound.marked_step`, `Sound.marked_run`: the marks along a run.
* `bad_releases_caught`: bad releases.
-/

namespace BoundaryTag

variable {G : Type} {chunks chunks' : List Chunk} {lists lists' : FreeLists} {c i address : Nat}

/-! ## Rejection -/

/-- The faults by which a release rejects an address: no chunk can be there, or none in use. -/
def Fault.IsRejection (e : Fault) (address : Nat) : Prop :=
  e = .foreignPointer address ∨ ∃ found, found ≠ some Status.inUse ∧ e = .notInUse address found

namespace Arena

variable {a : Arena G}

theorem chunkAt_congr {b : Arena G} (hstart : b.start = a.start)
    (hsize : b.slots.size = a.slots.size) : b.chunkAt = a.chunkAt := by
  unfold chunkAt offsetOf length
  rw [hstart, hsize]

/-- The bytes of the word of a chunk in use. -/
theorem loadBytes_of_marked {base : Nat} (hbase : base ∈ a.start)
    (hlt : base + a.slots.size * unitBytes < Word.limit)
    (hi : a.wordAt i = some Status.inUse.word) :
    a.loadBytes (base + (unitBytes * i + 12)) 4 = .ok [0x53, 0x55, 0, 0] := by
  obtain ⟨s, hs, hword⟩ := Option.map_eq_some_iff.mp (by exact hi)
  have hsize := (Array.getElem?_eq_some_iff.mp hs).1
  have hbyte : ∀ q < 4, a.byteAt (unitBytes * i + 12 + q) =
      some (UInt8.ofNat (digit Status.inUse.word.toNat q)) := by
    intro q hq
    have hslot : (unitBytes * i + 12 + q) / unitBytes = i := by unfold unitBytes; omega
    have hplace : (unitBytes * i + 12 + q) % unitBytes = 12 + q := by unfold unitBytes; omega
    rw [byteAt, hslot, hplace, hs, Option.map_some, Slot.byte, if_neg (by omega),
      if_neg (by omega), hword, Nat.add_sub_cancel_left]
  rw [loadBytes_eq hbase hlt (by unfold unitBytes; omega)]
  have hbytes : (List.range 4).map (fun q => (a.byteAt (unitBytes * i + 12 + q)).getD 0) =
      (List.range 4).map fun q => UInt8.ofNat (digit Status.inUse.word.toNat q) := by
    apply List.map_congr_left
    intro q hq
    rw [hbyte q (List.mem_range.mp hq)]
    rfl
  rw [hbytes]
  decide

/-- The address of the chunk that is found there. -/
theorem Placed.eq_of_chunkAt (hp : a.Placed) (hlt : address < Word.limit)
    (h : a.chunkAt address = .ok c) : address = a.start.getD 0 + unitBytes * (c + 1) := by
  obtain ⟨base, hbase⟩ := Option.isSome_iff_exists.mp (isSome_start (chunkAt_eq_ok_iff.mp h).2)
  have hend : base + unitBytes * a.length ≤ Word.limit := by
    have hstop := hp.stop_lt base hbase
    rw [Nat.mul_comm] at hstop
    exact Nat.le_of_lt hstop
  rw [hbase]
  exact ((chunkAt_eq_ok_iff_address hbase hend hlt).mp h).1

theorem eq_of_dataAddress (h : a.dataAddress i = .ok address) :
    address = a.start.getD 0 + unitBytes * (i + 1) := by
  unfold dataAddress at h
  cases hslot : a.slot i with
  | ok s =>
    rw [hslot] at h
    cases h
    rfl
  | error e =>
    rw [hslot] at h
    cases h

end Arena

/-- The headers of the chunks in use. -/
def usedHeaders (chunks : List Chunk) : Set Nat := {i | ∃ c ∈ used chunks, c.index = i}

namespace Heap

/-- A release is rejected where the slot below the address is not marked, and nothing is written. -/
theorem release_rejected (h : Heap G) (hnull : address ≠ nullAddress)
    (hunmarked : ∀ c, h.arena.chunkAt address = .ok c →
      h.arena.wordAt c ≠ some Status.inUse.word) (log : Array Event) :
    ∃ e, release address ⟨h, log⟩ = .error e ⟨h, log⟩ ∧ e.IsRejection address := by
  unfold release
  rw [if_neg hnull]
  cases hchunk : h.arena.chunkAt address with
  | error e =>
    have hforeign := Arena.eq_of_chunkAt_eq_error hchunk
    exact ⟨e, Action.run_bind_error (Action.run_read_error hchunk), .inl hforeign⟩
  | ok c =>
    have hc : c < h.arena.slots.size := by
      have := (Arena.chunkAt_eq_ok_iff.mp hchunk).2
      omega
    have hword : h.arena.wordAt c = some h.arena.slots[c].status := by
      rw [Arena.wordAt, Array.getElem?_eq_getElem hc]
      rfl
    have hstatus := Arena.status_eq_of_wordAt hword
    have hfound : Status.ofWord? h.arena.slots[c].status ≠ some .inUse := fun hinUse =>
      hunmarked c hchunk (by rw [hword, Status.ofWord?_eq_some_iff.mp hinUse])
    refine ⟨_, ?_, .inr ⟨_, hfound, rfl⟩⟩
    rw [Action.run_bind_ok (Action.run_read_ok hchunk),
      Action.run_bind_ok (Action.run_read_ok hstatus)]
    exact Action.run_bind_error (Action.run_require_false (decide_eq_false hfound) _)

end Heap

namespace Session

variable {s t : Session G} {b : Block} {r : Request} {rs : List Request}

/-- The release of an address is rejected: it ends with a fault, and heap and blocks are as
before. -/
def Rejects [Grower G] (s : Session G) (address : Nat) : Prop :=
  ∀ log, ∃ e, perform (.release address) ⟨s, log⟩ = .error e ⟨s, log⟩ ∧ e.IsRejection address

theorem rejects_of_unmarked [Grower G] (hnull : address ≠ nullAddress)
    (hunmarked : ∀ c, s.heap.arena.chunkAt address = .ok c →
      s.heap.arena.wordAt c ≠ some Status.inUse.word) : s.Rejects address := by
  intro log
  obtain ⟨e, hrun, he⟩ := s.heap.release_rejected hnull hunmarked log
  refine ⟨e, Action.run_bind_error ?_, he⟩
  simp only [onHeap, hrun]

/-! ## Tidy runs -/

/-- A store leaves the word of a chunk in use nowhere in its block where a status word would stand:
in the last four bytes of a unit. -/
def Tidy (s : Session G) (r : Request) (t : Session G) : Prop :=
  match r with
  | .store address bytes =>
    ∃ b ∈ s.live, (b.address ≤ address ∧ address + bytes.length ≤ b.address + b.size) ∧
      ∀ j < Heap.unitsFor b.size,
        t.heap.arena.loadBytes (b.address + (unitBytes * j + 12)) 4 ≠ .ok [0x53, 0x55, 0, 0]
  | _ => True

instance (s : Session G) (t : Session G) : (r : Request) → Decidable (s.Tidy r t)
  | .store _ _ => inferInstanceAs (Decidable (∃ b ∈ s.live, _ ∧ _))
  | .allocate _ => .isTrue trivial
  | .release _ => .isTrue trivial

/-- A run of legal requests whose stores are tidy. -/
inductive TidyRun [Grower G] : Session G → List Request → Session G → Prop where
  | nil (s : Session G) : TidyRun s [] s
  | cons {s t u : Session G} {r : Request} {rs : List Request} :
    s.Step r t → s.Tidy r t → TidyRun t rs u → TidyRun s (r :: rs) u

/-- The sessions that tidy runs lead to. -/
def TidilyReachable [Grower G] (config : Config) (grower : G) (s : Session G) : Prop :=
  ∃ rs, (start config grower).TidyRun rs s

/-- Plays a run; the session at its end, unless a request is illegal, untidy or meets a fault. -/
def playTidily [Grower G] (s : Session G) : List Request → Option (Session G)
  | [] => some s
  | r :: rs => (s.play [r]).bind fun t => if s.Tidy r t then t.playTidily rs else none

theorem tidyRun_of_playTidily [Grower G] (h : s.playTidily rs = some t) : s.TidyRun rs t := by
  induction rs generalizing s with
  | nil =>
    cases h
    exact .nil _
  | cons r rs ih =>
    obtain ⟨u, hplay, hrest⟩ := Option.bind_eq_some_iff.mp h
    split_ifs at hrest with htidy
    cases run_of_play hplay with
    | cons hstep hnil =>
      cases hnil
      exact .cons hstep htidy (ih hrest)

/-! ## Marks along a run -/

theorem ensures_onHeap {α : Type} {x : Action (Heap G) α} {P : Heap G → Prop}
    {Q : α → Heap G → Prop} (hx : x.Ensures P Q) :
    (onHeap x).Ensures (fun s => P s.heap) fun a s => Q a s.heap := by
  rintro ⟨⟨heap, live⟩, log⟩ a u hP hrun
  cases hheap : x ⟨heap, log⟩ with
  | ok b v =>
    simp only [onHeap, hheap] at hrun
    cases hrun
    exact hx hP hheap
  | error e v =>
    simp only [onHeap, hheap] at hrun
    cases hrun

section Marks

variable [Grower G] {M : Set Nat}

/-- A mark that comes up belongs to a block of the program. -/
theorem ensures_perform_allocate (size : Nat) :
    (perform (G := G) (.allocate size)).Ensures
      (fun s => s.heap.MarkedIn M ∧ Grower.Zeroes s.heap.arena.grower)
      fun _ t => t.heap.MarkedIn
        (M ∪ {i | ∃ b ∈ t.live, t.heap.arena.dataAddress i = .ok b.address}) := by
  refine .bind (ensures_onHeap (Heap.ensures_allocate size)) fun answer => ?_
  refine .bind (Action.ensures_change ?_) fun _ => Action.ensures_pure fun _ => id
  intro s hM
  cases answer with
  | error e => exact hM.mono (Set.union_subset_union_right _ (by rintro i ⟨_, h, _⟩; cases h))
  | ok address =>
    refine hM.mono (Set.union_subset_union_right _ ?_)
    rintro i ⟨_, hanswer, haddress⟩
    cases hanswer
    exact ⟨_, List.mem_cons_self .., haddress⟩

theorem ensures_perform_release (hnull : address ≠ nullAddress) :
    (perform (G := G) (.release address)).Ensures
      (fun s => s.heap.MarkedIn M ∧ s.heap.arena.chunkAt address = .ok c)
      fun _ t => t.heap.MarkedIn (M \ {c}) := by
  refine .bind (ensures_onHeap (Heap.ensures_release hnull)) fun _ => ?_
  exact .bind (Action.ensures_change fun _ => id) fun _ => Action.ensures_pure fun _ => id

end Marks

namespace Sound

/-- A chunk in use that is not released stays in use. -/
theorem mem_used_of_follows (S : s.Sound chunks lists) (F : s.Follows chunks r t chunks')
    {d : Chunk} (hd : d ∈ used chunks) (hr : r ≠ .release (s.heap.arena.blockAddress d)) :
    d ∈ used chunks' := by
  obtain ⟨b, hb, haddr⟩ := S.exists_block hd
  have hr' : r ≠ .release b.address := haddr ▸ hr
  exact F.chunk b hb (F.live b hb hr') d hd haddr

variable [Grower G]

theorem marked_allocate {size : Nat} (S : s.Sound chunks lists) (S' : t.Sound chunks' lists')
    (F : s.Follows chunks (.allocate size) t chunks') (hM : s.heap.MarkedIn (usedHeaders chunks))
    (hzero : Grower.Zeroes s.heap.arena.grower) (hstep : s.Step (.allocate size) t) :
    t.heap.MarkedIn (usedHeaders chunks') := by
  obtain ⟨-, answer, log, log', hperform⟩ := hstep
  refine (ensures_perform_allocate size ⟨hM, hzero⟩ hperform).mono ?_
  rintro i (⟨d, hd, rfl⟩ | ⟨b, hb, haddress⟩)
  · exact ⟨d, S.mem_used_of_follows F hd (by simp), rfl⟩
  · obtain ⟨d, hd, haddr⟩ := S'.exists_chunk hb
    have hindex : t.heap.arena.blockAddress d = t.heap.arena.start.getD 0 + unitBytes * (i + 1) :=
      haddr.symm.trans (Arena.eq_of_dataAddress haddress)
    refine ⟨d, hd, ?_⟩
    unfold Arena.blockAddress unitBytes at hindex
    omega

/-- A release takes the mark of the chunk of its block away. -/
theorem marked_release (S : s.Sound chunks lists) {M : Set Nat} (hM : s.heap.MarkedIn M)
    (hb : b ∈ s.live) {d : Chunk} (hd : d ∈ used chunks)
    (haddr : b.address = s.heap.arena.blockAddress d) (hstep : s.Step (.release b.address) t) :
    t.heap.MarkedIn (M \ {d.index}) := by
  obtain ⟨-, answer, log, log', hperform⟩ := hstep
  obtain ⟨base, hbase⟩ := S.wellFormed.exists_start (mem_used.mp hd).1
  have hchunk := S.wellFormed.chunkAt_eq (mem_used.mp hd).1 hbase
  rw [← Arena.blockAddress_eq hbase, ← haddr] at hchunk
  have hnull : b.address ≠ nullAddress := Nat.ne_of_gt (S.address_pos hb)
  exact ensures_perform_release hnull (t := ⟨s, log⟩) ⟨hM, hchunk⟩ hperform

theorem marked_store {bytes : List UInt8} (S : s.Sound chunks lists)
    (hM : s.heap.MarkedIn (usedHeaders chunks)) (hstep : s.Step (.store address bytes) t)
    (htidy : s.Tidy (.store address bytes) t) : t.heap.MarkedIn (usedHeaders chunks) := by
  obtain ⟨hallows, answer, log, log', hperform⟩ := hstep
  obtain ⟨base, hbase, k, a, rfl, hrun, S', hstored⟩ := S.exists_stored hallows
  obtain ⟨-, rfl⟩ := hrun.unique hperform
  obtain ⟨b, hb, ⟨hlow, hhigh⟩, htidy⟩ := htidy
  obtain ⟨d, hd, haddr⟩ := S.exists_chunk hb
  rw [Arena.blockAddress_eq hbase] at haddr
  intro i hi
  by_cases hout : (i + 1) * unitBytes ≤ k ∨ k + bytes.length ≤ i * unitBytes
  · refine hM i ?_
    rw [Arena.wordAt, ← hstored.slots i hout]
    exact hi
  · have hunit : d.index + 1 ≤ i := by unfold unitBytes at *; omega
    obtain ⟨j, rfl⟩ := Nat.exists_eq_add_of_le hunit
    have hj : j < Heap.unitsFor b.size := by unfold Heap.unitsFor unitBytes at *; omega
    have hload := Arena.loadBytes_of_marked (hstored.start.trans hbase)
      (S'.wellFormed.placed.stop_lt base (hstored.start.trans hbase)) hi
    have hplace : b.address + (unitBytes * j + 12) =
        base + (unitBytes * (d.index + 1 + j) + 12) := by unfold unitBytes at *; omega
    rw [← hplace] at hload
    exact absurd hload (htidy j hj)

/-- A tidy step leaves no mark but in the headers of chunks in use. -/
theorem marked_step (S : s.Sound chunks lists) (S' : t.Sound chunks' lists')
    (F : s.Follows chunks r t chunks') (hM : s.heap.MarkedIn (usedHeaders chunks))
    (hzero : Grower.Zeroes s.heap.arena.grower) (hstep : s.Step r t) (htidy : s.Tidy r t) :
    t.heap.MarkedIn (usedHeaders chunks') := by
  cases r with
  | allocate size => exact S.marked_allocate S' F hM hzero hstep
  | store address bytes =>
    refine (S.marked_store hM hstep htidy).mono ?_
    rintro i ⟨d, hd, rfl⟩
    exact ⟨d, S.mem_used_of_follows F hd (by simp), rfl⟩
  | release address =>
    rcases hstep.1 with rfl | ⟨b, hb, rfl⟩
    · obtain ⟨-, answer, log, log', hperform⟩ := hstep
      obtain ⟨-, rfl⟩ := (runs_release (Heap.WellFormed.release_null s.heap)).unique hperform
      refine hM.mono ?_
      rintro i ⟨d, hd, rfl⟩
      refine ⟨d, S.mem_used_of_follows F hd ?_, rfl⟩
      unfold nullAddress Arena.blockAddress unitBytes
      simp
    · obtain ⟨d, hd, haddr⟩ := S.exists_chunk hb
      refine (S.marked_release hM hb hd haddr hstep).mono ?_
      rintro i ⟨⟨e, he, rfl⟩, hne⟩
      refine ⟨e, S.mem_used_of_follows F he ?_, rfl⟩
      intro heq
      have hsame := haddr.symm.trans (Request.release.inj heq)
      rw [S.wellFormed.eq_of_address (mem_used.mp hd).1 (mem_used.mp he).1 hsame] at hne
      exact hne rfl

theorem marked_run (S : s.Sound chunks lists) (hM : s.heap.MarkedIn (usedHeaders chunks))
    (hzero : Grower.Zeroes s.heap.arena.grower) (hrun : s.TidyRun rs t) :
    ∃ chunks' lists', t.Sound chunks' lists' ∧ t.heap.MarkedIn (usedHeaders chunks') := by
  induction hrun generalizing chunks lists with
  | nil s => exact ⟨chunks, lists, S, hM⟩
  | cons hstep htidy hrest ih =>
    obtain ⟨chunks₁, lists₁, S₁, F₁⟩ := S.of_step hstep
    refine ih S₁ (S.marked_step S₁ F₁ hM hzero hstep htidy) ?_
    rw [S.grower_of_step hstep]
    exact hzero.after _

/-! ## Bad releases -/

/-- Where the marks are right, every address is rejected that is not the one of a block. -/
theorem rejects (S : s.Sound chunks lists) (hM : s.heap.MarkedIn (usedHeaders chunks))
    (hlt : address < Word.limit) (hnull : address ≠ nullAddress)
    (hlive : ∀ b ∈ s.live, b.address ≠ address) : s.Rejects address := by
  apply rejects_of_unmarked hnull
  intro c hchunk hword
  obtain ⟨d, hd, rfl⟩ := hM c hword
  obtain ⟨b, hb, haddr⟩ := S.exists_block hd
  exact hlive b hb (haddr.trans (S.wellFormed.placed.eq_of_chunkAt hlt hchunk).symm)

/-- A block that has been released is rejected, whatever is marked. -/
theorem rejects_released (S : s.Sound chunks lists) (hb : b ∈ s.live) :
    ∃ t, (perform (.release b.address)).Runs s none t ∧ t.Rejects b.address := by
  obtain ⟨d, hd, haddr⟩ := S.exists_chunk hb
  obtain ⟨base, hbase⟩ := S.wellFormed.exists_start (mem_used.mp hd).1
  have haddr' := haddr.trans (Arena.blockAddress_eq hbase d)
  obtain ⟨h', -, -, hrelease, -, -, -⟩ := S.wellFormed.release hd hbase
  rw [← haddr'] at hrelease
  have hrun := runs_release hrelease
  have hallows : s.Allows (.release b.address) := .inr ⟨b, hb, rfl⟩
  have hstep := Step.of_runs hallows hrun
  refine ⟨_, hrun, rejects_of_unmarked (Nat.ne_of_gt (S.address_pos hb)) ?_⟩
  intro c hchunk hword
  -- The arena is where it was, so the address leads to the header that has lost its mark.
  obtain ⟨-, hstart, hsize⟩ := S.arena_of_quiet hstep (by simp)
  rw [Arena.chunkAt_congr hstart hsize, haddr',
    S.wellFormed.chunkAt_eq (mem_used.mp hd).1 hbase] at hchunk
  cases hchunk
  have hunmarked := S.marked_release (M := Set.univ) (fun _ _ => trivial) hb hd haddr hstep
  exact (hunmarked d.index hword).2 rfl

end Sound

/-- While the memory that is granted is zero and stores are tidy, the word of a chunk in use marks
the headers of the chunks in use and nothing else, so the release of any address but null and those
of the live blocks is rejected, with everything as before. And whatever the memory holds, a live
block can be released once, and is rejected when it is released again. -/
theorem bad_releases_caught [Grower G] (config : Config) (grower : G) :
    (Grower.Zeroes grower → ∀ s, TidilyReachable config grower s →
      ∃ chunks lists, s.heap.WellFormed chunks lists ∧
        (∀ i, s.heap.arena.wordAt i = some Status.inUse.word ↔ ∃ c ∈ used chunks, c.index = i) ∧
        ∀ address < Word.limit, address ≠ nullAddress → (∀ b ∈ s.live, b.address ≠ address) →
          s.Rejects address) ∧
    ∀ s, Reachable config grower s → ∀ b ∈ s.live,
      ∃ t, (perform (.release b.address)).Runs s none t ∧ t.Rejects b.address := by
  constructor
  · rintro hzero s ⟨rs, hrun⟩
    have hstart : (start config grower).heap.MarkedIn (usedHeaders []) := by
      intro i hi
      cases hi
    obtain ⟨chunks, lists, S, hM⟩ := (Sound.start config grower).marked_run hstart hzero hrun
    refine ⟨chunks, lists, S.wellFormed, ?_, ?_⟩
    · refine fun i => ⟨hM i, ?_⟩
      rintro ⟨c, hc, rfl⟩
      obtain ⟨hmem, hused⟩ := mem_used.mp hc
      rw [(S.wellFormed.tagged c hmem).word, hused]
    · intro address hlt hnull hlive
      exact S.rejects hM hlt hnull hlive
  · intro s hs b hb
    obtain ⟨chunks, lists, S, -⟩ := sound_of_reachable hs
    exact S.rejects_released hb

set_option maxRecDepth 100000 in
/-- A store that comes close to the word of a chunk in use. -/
theorem tidilyReachable_small : ∃ s, TidilyReachable smallBins smallBuffer s ∧
    s.live = [⟨4304, 40⟩, ⟨4112, 20⟩] := by
  have hplay : ((start smallBins smallBuffer).playTidily [.allocate 20, .allocate 5, .allocate 40,
      .release 4256, .store 4124 [0x53, 0x55, 1, 0]]).map live =
        some [⟨4304, 40⟩, ⟨4112, 20⟩] := by
    decide +kernel
  obtain ⟨s, hs, hlive⟩ := Option.map_eq_some_iff.mp hplay
  exact ⟨s, ⟨_, tidyRun_of_playTidily hs⟩, hlive⟩

set_option maxRecDepth 100000 in
/-- A store of the word of a chunk in use. -/
theorem reachable_untidy : ∃ s, Reachable smallBins smallBuffer s ∧ s.live = [⟨4112, 20⟩] := by
  have hplay : ((start smallBins smallBuffer).play [.allocate 20,
      .store 4124 [0x53, 0x55, 0, 0]]).map live = some [⟨4112, 20⟩] := by
    decide +kernel
  exact exists_reachable_of_play hplay

theorem bad_releases_caught_small :
    (∃ s, TidilyReachable smallBins smallBuffer s ∧ s.live = [⟨4304, 40⟩, ⟨4112, 20⟩] ∧
      s.Rejects 4113 ∧ s.Rejects 4256) ∧
    ∃ s t, Reachable smallBins smallBuffer s ∧ s.live = [⟨4112, 20⟩] ∧
      (perform (.release 4112)).Runs s none t ∧ t.Rejects 4112 := by
  obtain ⟨htidy, hagain⟩ := bad_releases_caught smallBins smallBuffer
  constructor
  · obtain ⟨s, hs, hlive⟩ := tidilyReachable_small
    obtain ⟨-, -, -, -, hrejects⟩ := htidy (Grower.zeroes_region _) s hs
    rw [hlive] at hrejects
    refine ⟨s, hs, hlive, ?_, ?_⟩
    · exact hrejects 4113 (by decide) (by decide) (by decide)
    · exact hrejects 4256 (by decide) (by decide) (by decide)
  · obtain ⟨s, hs, hlive⟩ := reachable_untidy
    have hblock : ⟨4112, 20⟩ ∈ s.live := hlive ▸ List.mem_singleton_self _
    obtain ⟨t, hrun, hrejects⟩ := hagain s hs _ hblock
    exact ⟨s, t, hs, hlive, hrun, hrejects⟩

end Session

end BoundaryTag
