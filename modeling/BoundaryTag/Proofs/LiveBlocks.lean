import BoundaryTag.Proofs.LegalUse

/-!
# Live blocks

The blocks in the hands of a program, seen against the arena. Each is the data of
a chunk in use, and each chunk in use is the data of one block, so blocks share no
byte with each other or with a tag. A block stays in its chunk until it is
released, its bytes change only when it is stored to, and the counters of the heap
count the blocks.

Results:

* `blocks_apart_and_kept`: where the blocks lie, and what a request does to them.
* `blocks_accounted`: blocks, chunks, counters and lists agree.
-/

namespace BoundaryTag

variable {G : Type}

/-- The addresses of the bytes that were asked for. -/
def Block.bytes (b : Block) : Set Nat := {x | b.address ≤ x ∧ x < b.address + b.size}

/-- The addresses of the bytes of a slot. -/
def Arena.slotBytes (a : Arena G) (i : Nat) : Set Nat :=
  {x | a.start.getD 0 + unitBytes * i ≤ x ∧ x < a.start.getD 0 + unitBytes * (i + 1)}

namespace Session

variable {s s' t : Session G} {chunks : List Chunk} {lists : FreeLists} {c d : Chunk}
  {b b' : Block} {r : Request} {config : Config} {grower : G}

/-- Each block lies at a unit boundary in the data of a chunk in use, apart from the other blocks
and from all tags. -/
structure Apart (s : Session G) (chunks : List Chunk) : Prop where
  aligned : ∀ b ∈ s.live, b.address % unitBytes = 0
  inside : ∀ b ∈ s.live, ∃ base ∈ s.heap.arena.start, ∃ c ∈ used chunks,
    b.address = base + unitBytes * (c.index + 1) ∧ b.size ≤ unitBytes * c.units
  blocks : s.live.Pairwise fun b b' => b.address ≠ b'.address ∧ ∀ x ∈ b.bytes, x ∉ b'.bytes
  tags : ∀ b ∈ s.live, ∀ i ∈ tagSlots chunks, ∀ x ∈ b.bytes, x ∉ s.heap.arena.slotBytes i

/-- Blocks and chunks in use belong together one to one. -/
structure Owned (s : Session G) (chunks : List Chunk) (owner : Block → Chunk) : Prop where
  nodup : (s.live.map Block.address).Nodup
  perm : (s.live.map owner).Perm (used chunks)
  address : ∀ b ∈ s.live, b.address = s.heap.arena.blockAddress (owner b)
  /-- A chunk has at most two units more than its block needs. -/
  units : ∀ b ∈ s.live, Heap.unitsFor b.size ≤ (owner b).units ∧
    (owner b).units ≤ Heap.unitsFor b.size + 2

namespace Sound

/-! ## Where blocks lie -/

theorem address_aligned (S : s.Sound chunks lists) (hb : b ∈ s.live) :
    b.address % unitBytes = 0 := by
  obtain ⟨c, hc, haddr⟩ := S.exists_chunk hb
  obtain ⟨base, hbase⟩ := S.wellFormed.exists_start (mem_used.mp hc).1
  have haligned := S.wellFormed.placed.aligned base hbase
  rw [haddr, Arena.blockAddress_eq hbase, Nat.add_mul_mod_self_left, haligned]

theorem nodup_address (S : s.Sound chunks lists) : (s.live.map Block.address).Nodup := by
  refine S.addresses.nodup_iff.mpr (List.Nodup.map_on ?_ (S.wellFormed.nodup.filter _))
  intro c hc d hd haddr
  exact S.wellFormed.eq_of_address (mem_used.mp hc).1 (mem_used.mp hd).1 haddr

/-- The bytes of a block are data of its chunk. -/
theorem bytes_subset (S : s.Sound chunks lists) (hb : b ∈ s.live) (hc : c ∈ used chunks)
    (haddr : b.address = s.heap.arena.blockAddress c) {x : Nat} (hx : x ∈ b.bytes) :
    s.heap.arena.start.getD 0 + unitBytes * (c.index + 1) ≤ x ∧
      x < s.heap.arena.start.getD 0 + unitBytes * c.footer := by
  have hsize := S.size_le hb hc haddr
  obtain ⟨hlow, hhigh⟩ := hx
  unfold Arena.blockAddress at haddr
  unfold Chunk.footer unitBytes at *
  omega

theorem notMem_other (S : s.Sound chunks lists) (hb : b ∈ s.live) (hb' : b' ∈ s.live)
    (hne : b.address ≠ b'.address) {x : Nat} (hx : x ∈ b.bytes) : x ∉ b'.bytes := by
  obtain ⟨c, hc, haddr⟩ := S.exists_chunk hb
  obtain ⟨d, hd, haddr'⟩ := S.exists_chunk hb'
  have hcd : c ≠ d := fun h => hne (by rw [haddr, haddr', h])
  have happart := S.wellFormed.tiles.ascending.apart (mem_used.mp hc).1 (mem_used.mp hd).1 hcd
  intro hx'
  have hin := S.bytes_subset hb hc haddr hx
  have hin' := S.bytes_subset hb' hd haddr' hx'
  unfold Chunk.stop Chunk.footer unitBytes at *
  omega

/-- No byte of a block is a byte of a tag. -/
theorem notMem_tag (S : s.Sound chunks lists) (hb : b ∈ s.live) {i : Nat}
    (hi : i ∈ tagSlots chunks) {x : Nat} (hx : x ∈ b.bytes) :
    x ∉ s.heap.arena.slotBytes i := by
  obtain ⟨c, hc, haddr⟩ := S.exists_chunk hb
  obtain ⟨d, hd, hi⟩ := mem_tagSlots.mp hi
  rintro ⟨hlow, hhigh⟩
  have hin := S.bytes_subset hb hc haddr hx
  have hdfooter := d.index_lt_footer
  have hdstop := d.footer_lt_stop
  have hcfooter : c.footer < c.stop := c.footer_lt_stop
  unfold unitBytes at *
  by_cases hdc : d = c
  · subst hdc
    omega
  · have happart := S.wellFormed.tiles.ascending.apart hd (mem_used.mp hc).1 hdc
    omega

theorem apart (S : s.Sound chunks lists) : s.Apart chunks := by
  refine ⟨fun b hb => S.address_aligned hb, ?_, ?_, ?_⟩
  · intro b hb
    obtain ⟨c, hc, haddr⟩ := S.exists_chunk hb
    obtain ⟨base, hbase⟩ := S.wellFormed.exists_start (mem_used.mp hc).1
    exact ⟨base, hbase, c, hc, haddr.trans (Arena.blockAddress_eq hbase c), S.size_le hb hc haddr⟩
  · have hne := List.pairwise_map.mp S.nodup_address
    refine hne.imp_of_mem fun hb hb' hne => ⟨hne, ?_⟩
    intro x hx
    exact S.notMem_other hb hb' hne hx
  · intro b hb i hi x hx
    exact S.notMem_tag hb hi hx

/-- The bytes of a block can be read. -/
theorem exists_loadByte (S : s.Sound chunks lists) (hb : b ∈ s.live) {i : Nat} (hi : i < b.size) :
    ∃ v, s.heap.arena.loadByte (b.address + i) = .ok v := by
  obtain ⟨c, hc, haddr⟩ := S.exists_chunk hb
  obtain ⟨base, hbase⟩ := S.wellFormed.exists_start (mem_used.mp hc).1
  obtain ⟨x, hx, hlt, hin, -, -⟩ := S.locate hbase hb hc haddr hi
  obtain ⟨v, hv⟩ := Arena.exists_byteAt hin
  exact ⟨v, hx ▸ Arena.loadByte_eq hbase hlt hv⟩

/-- What a request leaves of the bytes of a block. -/
theorem loadByte_step [Grower G] (S : s.Sound chunks lists) (hstep : s.Step r s')
    (hb : b ∈ s.live) (hb' : b ∈ s'.live) {x : Nat} (hx : x ∈ b.bytes) :
    ∃ v, s.heap.arena.loadByte x = .ok v ∧
      s'.heap.arena.loadByte x = .ok ((r.byteFor? x).getD v) := by
  obtain ⟨hlow, hhigh⟩ := hx
  obtain ⟨i, rfl⟩ := Nat.exists_eq_add_of_le hlow
  have hi : i < b.size := by omega
  obtain ⟨v, hload⟩ := S.exists_loadByte hb hi
  obtain ⟨chunks', lists', -, F⟩ := S.of_step hstep
  have hbytes := F.bytes b hb hb' i hi
  refine ⟨v, hload, ?_⟩
  rw [hbytes, hload]
  cases r.byteFor? (b.address + i) <;> rfl

/-! ## Blocks and chunks in use -/

/-- Every block has a chunk, and every chunk in use has a block. -/
theorem exists_owner (S : s.Sound chunks lists) : ∃ owner, s.Owned chunks owner := by
  have hall : ∀ b : Block, ∃ c, b ∈ s.live →
      c ∈ used chunks ∧ b.address = s.heap.arena.blockAddress c := by
    intro b
    by_cases hb : b ∈ s.live
    · obtain ⟨c, hc, haddr⟩ := S.exists_chunk hb
      exact ⟨c, fun _ => ⟨hc, haddr⟩⟩
    · exact ⟨⟨0, 0, .free⟩, fun h => absurd h hb⟩
  choose owner howner using hall
  refine ⟨owner, S.nodup_address, ?_, fun b hb => (howner b hb).2, fun b hb =>
    S.sizes b hb (owner b) (howner b hb).1 (howner b hb).2⟩
  have hnodup : (s.live.map owner).Nodup := by
    refine List.Nodup.map_on ?_ (S.nodup_address.of_map _)
    intro b hb b' hb' heq
    apply List.inj_on_of_nodup_map S.nodup_address hb hb'
    rw [(howner b hb).2, (howner b' hb').2, heq]
  apply (List.perm_ext_iff_of_nodup hnodup (S.wellFormed.nodup.filter _)).mpr
  intro c
  constructor
  · intro hc
    obtain ⟨b, hb, rfl⟩ := List.mem_map.mp hc
    exact (howner b hb).1
  · intro hc
    obtain ⟨b, hb, haddr⟩ := S.exists_block hc
    obtain ⟨hmem, haddr'⟩ := howner b hb
    refine List.mem_map.mpr ⟨b, hb, ?_⟩
    exact S.wellFormed.eq_of_address (mem_used.mp hmem).1 (mem_used.mp hc).1
      (haddr'.symm.trans haddr)

/-- A block that is not released stays in its chunk. -/
theorem owned_run [Grower G] {owner : Block → Chunk} {rs : List Request} (S : s.Sound chunks lists)
    (O : s.Owned chunks owner) (hb : b ∈ s.live) (hrun : s.Run rs t)
    (hrs : Request.release b.address ∉ rs) :
    b ∈ t.live ∧ ∃ chunks' lists', t.heap.WellFormed chunks' lists' ∧ owner b ∈ used chunks' ∧
      b.address = t.heap.arena.blockAddress (owner b) := by
  obtain ⟨chunks', lists', S', -, hkeeps⟩ := S.run hrun
  obtain ⟨hb', hchunk⟩ := hkeeps b hb hrs
  have hmem : owner b ∈ used chunks := O.perm.mem_iff.mp (List.mem_map_of_mem hb)
  obtain ⟨hmem', hsame⟩ := hchunk _ hmem (O.address b hb)
  exact ⟨hb', chunks', lists', S'.wellFormed, hmem', (O.address b hb).trans hsame.symm⟩

end Sound

/-- The counters count the blocks and the units of their chunks. -/
theorem Owned.stats {owner : Block → Chunk} (O : s.Owned chunks owner)
    (W : s.heap.WellFormed chunks lists) :
    ∃ stats, s.heap.stats = .ok stats ∧ stats.usedChunks = s.live.length ∧
      stats.usedUnits = (s.live.map fun b => (owner b).units).sum ∧
      stats.chunks = stats.freeChunks + stats.usedChunks ∧ stats.freeChunks = freeCount chunks ∧
      s.heap.arenaBytes = .ok stats.arenaBytes ∧ stats.coveredBytes = .ok stats.arenaBytes := by
  refine ⟨_, W.stats_eq, ?_, ?_, (freeCount_add_used chunks).symm, rfl, W.arenaBytes_eq,
    W.coveredBytes_eq _⟩
  · have hlength := O.perm.length_eq
    rw [List.length_map] at hlength
    exact hlength.symm
  · have hsum := (O.perm.map Chunk.units).sum_eq
    rw [List.map_map] at hsum
    exact hsum.symm

/-! ## Every session of legal use -/

/-- Blocks lie apart, and no request changes the bytes of a block but one that stores to them. -/
theorem blocks_apart_and_kept [Grower G] (h : Reachable config grower s) :
    ∃ chunks lists, s.heap.WellFormed chunks lists ∧ s.Apart chunks ∧
      ∀ r s', s.Step r s' → ∀ b ∈ s.live, b ∈ s'.live → ∀ x ∈ b.bytes,
        ∃ v, s.heap.arena.loadByte x = .ok v ∧
          s'.heap.arena.loadByte x = .ok ((r.byteFor? x).getD v) := by
  obtain ⟨chunks, lists, S, -⟩ := sound_of_reachable h
  refine ⟨chunks, lists, S.wellFormed, S.apart, ?_⟩
  intro r s' hstep b hb hb' x hx
  exact S.loadByte_step hstep hb hb' hx

theorem blocks_apart_and_kept_small : ∃ s, Reachable smallBins smallBuffer s ∧
    s.live = [⟨4304, 40⟩, ⟨4112, 20⟩] ∧
    ∃ chunks lists, s.heap.WellFormed chunks lists ∧ s.Apart chunks := by
  obtain ⟨s, hs, hlive⟩ := reachable_small
  obtain ⟨chunks, lists, W, hapart, -⟩ := blocks_apart_and_kept hs
  exact ⟨s, hs, hlive, chunks, lists, W, hapart⟩

/-- Blocks and chunks in use belong together one to one, a block keeps its chunk until it is
released, and the counters and lists of the heap count just these chunks and the free ones. -/
theorem blocks_accounted [Grower G] (h : Reachable config grower s) :
    ∃ chunks lists owner, s.heap.WellFormed chunks lists ∧ s.Owned chunks owner ∧
      (∀ b ∈ s.live, ∀ rs t, s.Run rs t → .release b.address ∉ rs → b ∈ t.live ∧
        ∃ chunks' lists', t.heap.WellFormed chunks' lists' ∧ owner b ∈ used chunks' ∧
          b.address = t.heap.arena.blockAddress (owner b)) ∧
      (∃ stats, s.heap.stats = .ok stats ∧ stats.usedChunks = s.live.length ∧
        stats.usedUnits = (s.live.map fun b => (owner b).units).sum ∧
        stats.chunks = stats.freeChunks + stats.usedChunks ∧ stats.freeChunks = freeCount chunks ∧
        s.heap.arenaBytes = .ok stats.arenaBytes ∧ stats.coveredBytes = .ok stats.arenaBytes) ∧
      ∃ lengths, s.heap.freeListLengths = .ok lengths ∧
        lengths = (List.finRange classCount).map (fun k =>
          (s.heap.config.members k chunks).length) ∧
        lengths.sum = freeCount chunks := by
  obtain ⟨chunks, lists, S, -⟩ := sound_of_reachable h
  obtain ⟨owner, O⟩ := S.exists_owner
  have W := S.wellFormed
  refine ⟨chunks, lists, owner, W, O, ?_, O.stats W, ?_⟩
  · intro b hb rs t hrun hrs
    exact S.owned_run O hb hrun hrs
  · exact ⟨_, W.freeListLengths_eq, rfl, sum_length_members _ _⟩

theorem blocks_accounted_small : ∃ s, Reachable smallBins smallBuffer s ∧
    s.live = [⟨4304, 40⟩, ⟨4112, 20⟩] ∧
    ∃ stats, s.heap.stats = .ok stats ∧ stats.usedChunks = 2 := by
  obtain ⟨s, hs, hlive⟩ := reachable_small
  obtain ⟨chunks, lists, owner, -, -, -, ⟨stats, hstats, hused, -⟩, -⟩ := blocks_accounted hs
  rw [hlive] at hused
  exact ⟨s, hs, hlive, stats, hstats, hused⟩

end Session

end BoundaryTag
