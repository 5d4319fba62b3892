import BoundaryTag.Proofs.Bytes
import BoundaryTag.Proofs.Session

/-!
# Sound sessions

A session is sound when its heap is well formed and the blocks in the hands of the
program are the data of the chunks in use. Every legal request ends without a
fault and leaves a sound session; the blocks that stay in the hands of the program
keep their chunks, and their bytes but for those stored.

Results:

* `Sound.step`: one legal request.
* `Sound.run`, `sound_of_reachable`: a run of them.
-/

namespace BoundaryTag

variable {G : Type}

namespace Arena

variable {a b : Arena G} {base k x : Nat}

/-- What is loaded after a store. -/
theorem loadByte_stored {bytes : List UInt8} (hbase : base ∈ a.start)
    (hstored : a.Stored k bytes b) (hlt : base + x < Word.limit)
    (hx : x / unitBytes < a.slots.size) : b.loadByte (base + x) =
      ((Request.store (base + k) bytes).byteFor? (base + x)).elim (a.loadByte (base + x)) .ok := by
  have hbase' : base ∈ b.start := hstored.start.trans hbase
  have hbyte := hstored.bytes x
  show _ = (if base + k ≤ base + x then bytes[base + x - (base + k)]? else none).elim _ _
  rw [Nat.add_sub_add_left]
  by_cases hin : k ≤ x ∧ x < k + bytes.length
  · have hget : bytes[x - k]? = some bytes[x - k] := List.getElem?_eq_getElem (by omega)
    rw [if_pos hin, hget] at hbyte
    rw [if_pos (by omega), hget, loadByte_eq hbase' hlt hbyte]
    rfl
  · obtain ⟨v, hv⟩ := exists_byteAt hx
    have hnone : (if base + k ≤ base + x then bytes[x - k]? else none) = none := by
      split_ifs
      · exact List.getElem?_eq_none (by omega)
      · rfl
    rw [if_neg hin, hv] at hbyte
    rw [hnone, loadByte_eq hbase' hlt hbyte, loadByte_eq hbase hlt hv]
    rfl

end Arena

namespace Heap

variable {h h' : Heap G} {chunks : List Chunk} {lists : FreeLists} {c d : Chunk} {base : Nat}

/-- The chunks of an arena have different addresses. -/
theorem WellFormed.eq_of_address (W : h.WellFormed chunks lists) (hc : c ∈ chunks) (hd : d ∈ chunks)
    (haddr : h.arena.blockAddress c = h.arena.blockAddress d) : c = d := by
  have hindex : c.index = d.index := by
    unfold Arena.blockAddress unitBytes at haddr
    omega
  apply W.tiles.ascending.eq_of_overlap (i := c.index) hc hd ⟨Nat.le_refl _, c.index_lt_stop⟩
  exact ⟨Nat.le_of_eq hindex.symm, hindex ▸ d.index_lt_stop⟩

theorem WellFormed.nodup (W : h.WellFormed chunks lists) : chunks.Nodup :=
  nodup_of_nodup_tagSlots W.consistent.holds.apart

/-- An arena with a chunk has a start. -/
theorem WellFormed.exists_start (W : h.WellFormed chunks lists) (hc : c ∈ chunks) :
    ∃ base, base ∈ h.arena.start := by
  obtain ⟨base, hbase, -⟩ := W.dataAddress_eq hc
  exact ⟨base, hbase⟩

theorem WellFormed.blockAddress_keeps {K : Set Nat} (W : h.WellFormed chunks lists)
    (H : h.Keeps K h') (hc : c ∈ chunks) :
    h'.arena.blockAddress c = h.arena.blockAddress c := by
  obtain ⟨base, hbase⟩ := W.exists_start hc
  rw [Arena.blockAddress_eq hbase, Arena.blockAddress_eq (H.start base hbase)]

/-- Chunks keep their addresses where the arena begins as before. -/
theorem WellFormed.map_blockAddress {K : Set Nat} {l : List Chunk} (W : h.WellFormed chunks lists)
    (H : h.Keeps K h') (hl : ∀ d ∈ l, d ∈ used chunks) :
    l.map h'.arena.blockAddress = l.map h.arena.blockAddress := by
  apply List.map_congr_left
  intro d hd
  exact W.blockAddress_keeps H (mem_used.mp (hl d hd)).1

end Heap

namespace Session

variable {s s' : Session G} {chunks chunks' : List Chunk} {lists lists' : FreeLists} {c : Chunk}
  {b : Block} {r : Request}

/-- The heap is well formed, and the blocks are the data of the chunks in use, each with at most two
units more than were asked for. -/
structure Sound (s : Session G) (chunks : List Chunk) (lists : FreeLists) : Prop where
  wellFormed : s.heap.WellFormed chunks lists
  addresses : (s.live.map Block.address).Perm ((used chunks).map s.heap.arena.blockAddress)
  sizes : ∀ b ∈ s.live, ∀ c ∈ used chunks, b.address = s.heap.arena.blockAddress c →
    Heap.unitsFor b.size ≤ c.units ∧ c.units ≤ Heap.unitsFor b.size + 2

/-- What a request leaves of the blocks that stay in the hands of the program. -/
structure Follows (s : Session G) (chunks : List Chunk) (r : Request) (s' : Session G)
    (chunks' : List Chunk) : Prop where
  config : s'.heap.config = s.heap.config
  /-- The arena stays where it is. -/
  start : ∀ base ∈ s.heap.arena.start, s'.heap.arena.start = some base
  /-- Only a released block is lost. -/
  live : ∀ b ∈ s.live, r ≠ .release b.address → b ∈ s'.live
  /-- A block stays in its chunk. -/
  chunk : ∀ b ∈ s.live, b ∈ s'.live → ∀ c ∈ used chunks,
    b.address = s.heap.arena.blockAddress c → c ∈ used chunks'
  /-- Only the bytes that are stored change. -/
  bytes : ∀ b ∈ s.live, b ∈ s'.live → ∀ i < b.size,
    s'.heap.arena.loadByte (b.address + i) =
      (r.byteFor? (b.address + i)).elim (s.heap.arena.loadByte (b.address + i)) .ok

theorem mem_giveBack {address : Nat} :
    b ∈ (s.giveBack address).live ↔ b ∈ s.live ∧ b.address ≠ address := by
  simp [giveBack]

/-- The address of a chunk does not change. -/
theorem Follows.blockAddress_eq (F : s.Follows chunks r s' chunks') (S : s.Sound chunks lists)
    (hc : c ∈ chunks) : s'.heap.arena.blockAddress c = s.heap.arena.blockAddress c := by
  obtain ⟨base, hbase⟩ := S.wellFormed.exists_start hc
  rw [Arena.blockAddress_eq hbase, Arena.blockAddress_eq (F.start base hbase)]

/-- The addresses that are left when one is given back. -/
theorem addresses_giveBack {address : Nat} {m : List Nat}
    (h : (s.live.map Block.address).Perm (address :: m)) (hm : address ∉ m) :
    ((s.giveBack address).live.map Block.address).Perm m := by
  have hleft : (address :: m).filter (· ≠ address) = m := by
    rw [List.filter_cons_of_neg (by simp), List.filter_eq_self]
    intro x hx
    exact decide_eq_true fun heq => hm (heq ▸ hx)
  have hfilter := h.filter (· ≠ address)
  rw [hleft, List.filter_map] at hfilter
  exact hfilter

namespace Sound

theorem exists_chunk (S : s.Sound chunks lists) (hb : b ∈ s.live) :
    ∃ c ∈ used chunks, b.address = s.heap.arena.blockAddress c := by
  have hmem := S.addresses.mem_iff.mp (List.mem_map_of_mem hb)
  obtain ⟨c, hc, haddr⟩ := List.mem_map.mp hmem
  exact ⟨c, hc, haddr.symm⟩

theorem exists_block (S : s.Sound chunks lists) (hc : c ∈ used chunks) :
    ∃ b ∈ s.live, b.address = s.heap.arena.blockAddress c :=
  List.mem_map.mp (S.addresses.mem_iff.mpr (List.mem_map_of_mem hc))

theorem start (config : Config) (g : G) : (Session.start config g).Sound [] fun _ => [] :=
  ⟨Heap.WellFormed.new g config, List.Perm.nil, by simp [Session.start]⟩

/-- The addresses are seen through the start of the arena only. -/
theorem withArena {a : Arena G} (S : s.Sound chunks lists)
    (W : (s.heap.withArena a).WellFormed chunks lists) (hstart : a.start = s.heap.arena.start) :
    ({ s with heap := s.heap.withArena a } : Session G).Sound chunks lists := by
  have hsame := Arena.blockAddress_congr hstart
  refine ⟨W, ?_, ?_⟩
  · show List.Perm _ (List.map a.blockAddress _)
    rw [hsame]
    exact S.addresses
  · show ∀ b ∈ s.live, ∀ c ∈ _, b.address = a.blockAddress c → _
    rw [hsame]
    exact S.sizes

/-- A block of `size` bytes lies in the data of its chunk. -/
theorem size_le (S : s.Sound chunks lists) (hb : b ∈ s.live) (hc : c ∈ used chunks)
    (haddr : b.address = s.heap.arena.blockAddress c) : b.size ≤ unitBytes * c.units := by
  have hunits := (S.sizes b hb c hc haddr).1
  unfold Heap.unitsFor at hunits
  unfold unitBytes
  omega

/-- Where a byte of a block lies. -/
theorem locate (S : s.Sound chunks lists) {base : Nat} (hbase : base ∈ s.heap.arena.start)
    (hb : b ∈ s.live) (hc : c ∈ used chunks)
    (haddr : b.address = s.heap.arena.blockAddress c) {i : Nat} (hi : i < b.size) :
    ∃ x, b.address + i = base + x ∧ base + x < Word.limit ∧
      x / unitBytes < s.heap.arena.slots.size ∧ c.index ≤ x / unitBytes ∧
      x / unitBytes < c.stop := by
  have hstop := (S.wellFormed.tiles.bounds (mem_used.mp hc).1).2.1
  have hlimit := S.wellFormed.placed.stop_lt base hbase
  have hsize := S.size_le hb hc haddr
  rw [Arena.blockAddress_eq hbase] at haddr
  unfold Chunk.stop unitBytes at *
  exact ⟨16 * (c.index + 1) + i, by omega, by omega, by omega, by omega, by omega⟩

/-- The bytes of a block whose slots are kept. -/
theorem loadByte_keeps (S : s.Sound chunks lists) {h' : Heap G} {K : Set Nat}
    (H : s.heap.Keeps K h') (hb : b ∈ s.live) (hc : c ∈ used chunks)
    (haddr : b.address = s.heap.arena.blockAddress c)
    (hK : ∀ i, c.index ≤ i → i < c.stop → i ∈ K) {i : Nat} (hi : i < b.size) :
    h'.arena.loadByte (b.address + i) = s.heap.arena.loadByte (b.address + i) := by
  obtain ⟨base, hbase⟩ := S.wellFormed.exists_start (mem_used.mp hc).1
  obtain ⟨x, hx, hlt, hin, hlow, hhigh⟩ := S.locate hbase hb hc haddr hi
  obtain ⟨v, hv⟩ := Arena.exists_byteAt hin
  have hv' : h'.arena.byteAt x = some v := by
    rw [Arena.byteAt, H.slots _ (hK _ hlow hhigh)]
    exact hv
  rw [hx, Arena.loadByte_eq hbase hlt hv, Arena.loadByte_eq (H.start base hbase) hlt hv']

/-- A block that stays is found in its chunk, and only there. -/
theorem eq_of_address (S : s.Sound chunks lists) {h' : Heap G} {K : Set Nat}
    (W : h'.WellFormed chunks' lists') (H : s.heap.Keeps K h') (hc : c ∈ used chunks)
    (hc' : c ∈ used chunks') (haddr : b.address = s.heap.arena.blockAddress c) {d : Chunk}
    (hd : d ∈ used chunks') (haddr' : b.address = h'.arena.blockAddress d) : d = c := by
  apply W.eq_of_address (mem_used.mp hd).1 (mem_used.mp hc').1
  rw [S.wellFormed.blockAddress_keeps H (mem_used.mp hc).1, ← haddr, haddr']

theorem sizes_keeps (S : s.Sound chunks lists) {h' : Heap G} {K : Set Nat}
    (W : h'.WellFormed chunks' lists') (H : s.heap.Keeps K h')
    (hb : b ∈ s.live) (hstay : ∀ c ∈ used chunks, b.address = s.heap.arena.blockAddress c →
      c ∈ used chunks') :
    ∀ d ∈ used chunks', b.address = h'.arena.blockAddress d →
      Heap.unitsFor b.size ≤ d.units ∧ d.units ≤ Heap.unitsFor b.size + 2 := by
  intro d hd haddr'
  obtain ⟨c, hc, haddr⟩ := S.exists_chunk hb
  obtain rfl := S.eq_of_address W H hc (hstay c hc haddr) haddr hd haddr'
  exact S.sizes b hb d hc haddr

/-- A request that stores nothing and keeps the slots of the chunks that stay in use. -/
theorem follows_of_keeps (S : s.Sound chunks lists)
    (H : s.heap.Keeps (usedSlots chunks ∩ usedSlots chunks') s'.heap)
    (hquiet : ∀ x, r.byteFor? x = none)
    (hlive : ∀ b ∈ s.live, r ≠ .release b.address → b ∈ s'.live)
    (hstay : ∀ b ∈ s.live, b ∈ s'.live → ∀ c ∈ used chunks,
      b.address = s.heap.arena.blockAddress c → c ∈ used chunks') :
    s.Follows chunks r s' chunks' := by
  refine ⟨H.config, H.start, hlive, hstay, ?_⟩
  intro b hb hb' i hi
  obtain ⟨c, hc, haddr⟩ := S.exists_chunk hb
  have hc' := hstay b hb hb' c hc haddr
  rw [hquiet]
  refine S.loadByte_keeps H hb hc haddr ?_ hi
  intro j hlow hhigh
  exact ⟨⟨c, hc, hlow, hhigh⟩, ⟨c, hc', hlow, hhigh⟩⟩

/-! ## One request -/

theorem allocate [Grower G] (S : s.Sound chunks lists) (size : Nat) :
    ∃ answer s' chunks' lists', (perform (.allocate size)).Runs s answer s' ∧
      s'.Sound chunks' lists' ∧ s.Follows chunks (.allocate size) s' chunks' := by
  rcases S.wellFormed.allocate size with
    ⟨e, a, hrun, ha⟩ | ⟨c, h', chunks', lists', base, hrun, W, hbase, hused, hlow, hhigh, H⟩
  · have H := Heap.Keeps.of_sameMemory (usedSlots chunks ∩ usedSlots chunks) ha
    have S' := S.withArena (S.wellFormed.sameMemory ha) ha.start
    refine ⟨_, _, chunks, lists, runs_allocate hrun, S', ?_⟩
    exact S.follows_of_keeps H (fun _ => rfl) (fun b hb _ => hb) fun b _ _ c hc _ => hc
  · have hsubset : ∀ d ∈ used chunks, d ∈ used chunks' := fun d hd =>
      hused.mem_iff.mpr (List.mem_cons_of_mem _ hd)
    have hc : c ∈ chunks' := (mem_used.mp (hused.mem_iff.mpr (List.mem_cons_self ..))).1
    have hnew := Arena.blockAddress_eq hbase c
    refine ⟨_, _, chunks', lists', runs_allocate hrun, ⟨W, ?_, ?_⟩, ?_⟩
    · show (_ :: s.live.map Block.address).Perm ((used chunks').map h'.arena.blockAddress)
      refine List.Perm.trans ?_ (hused.map _).symm
      rw [List.map_cons, hnew, S.wellFormed.map_blockAddress H fun d hd => hd]
      exact S.addresses.cons _
    · intro b hb d hd haddr
      rcases List.mem_cons.mp hb with rfl | hb
      · obtain rfl := W.eq_of_address (mem_used.mp hd).1 hc (haddr.symm.trans hnew.symm)
        exact ⟨hlow, hhigh⟩
      · exact S.sizes_keeps W H hb (fun c hc _ => hsubset c hc) d hd haddr
    · refine S.follows_of_keeps (H.mono Set.inter_subset_left) (fun _ => rfl) ?_ ?_
      · exact fun b hb _ => List.mem_cons_of_mem _ hb
      · exact fun b _ _ d hd _ => hsubset d hd

theorem address_pos (S : s.Sound chunks lists) (hb : b ∈ s.live) : nullAddress < b.address := by
  obtain ⟨c, -, haddr⟩ := S.exists_chunk hb
  rw [haddr]
  unfold Arena.blockAddress unitBytes nullAddress
  omega

theorem giveBack_null (S : s.Sound chunks lists) : s.giveBack nullAddress = s := by
  have hlive : s.live.filter (·.address ≠ nullAddress) = s.live :=
    List.filter_eq_self.mpr fun b hb => decide_eq_true (Nat.ne_of_gt (S.address_pos hb))
  unfold giveBack
  rw [hlive]

theorem releaseBlock [Grower G] (S : s.Sound chunks lists) (hb : b ∈ s.live) :
    ∃ answer s' chunks' lists', (perform (.release b.address)).Runs s answer s' ∧
      s'.Sound chunks' lists' ∧ s.Follows chunks (.release b.address) s' chunks' := by
  obtain ⟨c, hc, haddr⟩ := S.exists_chunk hb
  have hmem := (mem_used.mp hc).1
  obtain ⟨base, hbase⟩ := S.wellFormed.exists_start hmem
  obtain ⟨h', chunks', lists', hrun, W, hused, H⟩ := S.wellFormed.release hc hbase
  rw [← Arena.blockAddress_eq hbase, ← haddr] at hrun
  have hsubset : ∀ d ∈ used chunks', d ∈ used chunks := fun d hd =>
    hused.mem_iff.mpr (List.mem_cons_of_mem _ hd)
  have hstay : ∀ d ∈ used chunks, d ≠ c → d ∈ used chunks' := fun d hd hne =>
    (List.mem_cons.mp (hused.mem_iff.mp hd)).resolve_left hne
  have hother : ∀ d ∈ used chunks', s.heap.arena.blockAddress d ≠ b.address := by
    intro d hd heq
    obtain rfl := S.wellFormed.eq_of_address (mem_used.mp (hsubset d hd)).1 hmem
      (heq.trans haddr)
    have hnodup := hused.nodup_iff.mp (S.wellFormed.nodup.filter _)
    exact (List.nodup_cons.mp hnodup).1 hd
  refine ⟨_, _, chunks', lists', runs_release hrun, ⟨W, ?_, ?_⟩, ?_⟩
  · have hall : (s.live.map Block.address).Perm
        (b.address :: (used chunks').map h'.arena.blockAddress) := by
      rw [S.wellFormed.map_blockAddress H hsubset, haddr, ← List.map_cons]
      exact S.addresses.trans (hused.map _)
    apply addresses_giveBack hall
    rw [S.wellFormed.map_blockAddress H hsubset]
    intro hmem
    obtain ⟨d, hd, heq⟩ := List.mem_map.mp hmem
    exact hother d hd heq
  · intro b' hb' d hd haddr'
    obtain ⟨hb', hne⟩ := mem_giveBack.mp hb'
    refine S.sizes_keeps W H hb' ?_ d hd haddr'
    intro e he headdr
    exact hstay e he fun hec => hne (headdr.trans (hec ▸ haddr.symm))
  · refine S.follows_of_keeps (H.mono Set.inter_subset_right) (fun _ => rfl) ?_ ?_
    · exact fun b' hb' hne => mem_giveBack.mpr ⟨hb', fun heq => hne (heq ▸ rfl)⟩
    · intro b' _ hb' d hd haddr'
      exact hstay d hd fun hdc => (mem_giveBack.mp hb').2 (haddr'.trans (hdc ▸ haddr.symm))

theorem release [Grower G] (S : s.Sound chunks lists) {address : Nat}
    (hallows : s.Allows (.release address)) :
    ∃ answer s' chunks' lists', (perform (.release address)).Runs s answer s' ∧
      s'.Sound chunks' lists' ∧ s.Follows chunks (.release address) s' chunks' := by
  rcases hallows with rfl | ⟨b, hb, rfl⟩
  · have hrun := runs_release (s := s) (Heap.WellFormed.release_null s.heap)
    rw [show { s with heap := s.heap } = s from rfl, S.giveBack_null] at hrun
    refine ⟨_, s, chunks, lists, hrun, S, ?_⟩
    exact S.follows_of_keeps (Heap.Keeps.refl _ _) (fun _ => rfl) (fun b hb _ => hb)
      fun b _ _ c hc _ => hc
  · exact S.releaseBlock hb

/-- A store leaves the chunks and lists; only the bytes that it names are written. -/
theorem exists_stored [Grower G] (S : s.Sound chunks lists) {address : Nat} {bytes : List UInt8}
    (hallows : s.Allows (.store address bytes)) :
    ∃ base ∈ s.heap.arena.start, ∃ k a, address = base + k ∧
      (perform (.store address bytes)).Runs s none { s with heap := s.heap.withArena a } ∧
      ({ s with heap := s.heap.withArena a } : Session G).Sound chunks lists ∧
      s.heap.arena.Stored k bytes a := by
  obtain ⟨b, hb, hlow, hhigh⟩ := hallows
  obtain ⟨c, hc, haddr⟩ := S.exists_chunk hb
  obtain ⟨base, hbase⟩ := S.wellFormed.exists_start (mem_used.mp hc).1
  have hsize := S.size_le hb hc haddr
  rw [Arena.blockAddress_eq hbase] at haddr
  obtain ⟨k, rfl⟩ : ∃ k, address = base + k := Nat.exists_eq_add_of_le (by omega)
  have hlow' : unitBytes * (c.index + 1) ≤ k := by omega
  have hhigh' : k + bytes.length ≤ unitBytes * (c.index + 1 + c.units) := by
    unfold unitBytes at *
    omega
  obtain ⟨a, hrun, W, hstored⟩ := S.wellFormed.store hc hbase hlow' hhigh'
  exact ⟨base, hbase, k, a, rfl, runs_store hrun, S.withArena W hstored.start, hstored⟩

/-- A store leaves the chunks and lists, and the grower. -/
theorem exists_store [Grower G] (S : s.Sound chunks lists) {address : Nat} {bytes : List UInt8}
    (hallows : s.Allows (.store address bytes)) :
    ∃ a, (perform (.store address bytes)).Runs s none { s with heap := s.heap.withArena a } ∧
      ({ s with heap := s.heap.withArena a } : Session G).Sound chunks lists ∧
      s.Follows chunks (.store address bytes) { s with heap := s.heap.withArena a } chunks ∧
      a.start = s.heap.arena.start ∧ a.grower = s.heap.arena.grower := by
  obtain ⟨base, hbase, k, a, rfl, hrun, S', hstored⟩ := S.exists_stored hallows
  refine ⟨a, hrun, S', ?_, hstored.start, hstored.grower⟩
  refine ⟨rfl, fun base hbase => hstored.start.trans hbase, fun b hb _ => hb,
    fun b _ _ c hc _ => hc, ?_⟩
  intro b hb _ i hi
  obtain ⟨c, hc, haddr⟩ := S.exists_chunk hb
  obtain ⟨x, hx, hlt, hin, -, -⟩ := S.locate hbase hb hc haddr hi
  rw [hx]
  exact Arena.loadByte_stored hbase hstored hlt hin

/-- A legal request succeeds, and the session stays sound. -/
theorem step [Grower G] (S : s.Sound chunks lists) (r : Request) (hallows : s.Allows r) :
    ∃ answer s' chunks' lists', (perform r).Runs s answer s' ∧ s'.Sound chunks' lists' ∧
      s.Follows chunks r s' chunks' := by
  cases r with
  | allocate size => exact S.allocate size
  | release address => exact S.release hallows
  | store address bytes =>
    obtain ⟨a, hrun, S', F, -, -⟩ := S.exists_store hallows
    exact ⟨_, _, chunks, lists, hrun, S', F⟩

theorem of_step [Grower G] (S : s.Sound chunks lists) (hstep : s.Step r s') :
    ∃ chunks' lists', s'.Sound chunks' lists' ∧ s.Follows chunks r s' chunks' := by
  obtain ⟨hallows, answer, log, log', hperform⟩ := hstep
  obtain ⟨answer', t, chunks', lists', hrun, S', F⟩ := S.step r hallows
  obtain ⟨-, rfl⟩ := hrun.unique hperform
  exact ⟨chunks', lists', S', F⟩

/-! ## Runs -/

/-- A run of legal requests, and the blocks that it does not give back. -/
theorem run [Grower G] {rs : List Request} (S : s.Sound chunks lists) (hrun : s.Run rs s') :
    ∃ chunks' lists', s'.Sound chunks' lists' ∧ s'.heap.config = s.heap.config ∧
      ∀ b ∈ s.live, Request.release b.address ∉ rs → b ∈ s'.live ∧
        ∀ c ∈ used chunks, b.address = s.heap.arena.blockAddress c → c ∈ used chunks' ∧
          s'.heap.arena.blockAddress c = s.heap.arena.blockAddress c := by
  induction hrun generalizing chunks lists with
  | nil s => exact ⟨chunks, lists, S, rfl, fun b hb _ => ⟨hb, fun c hc _ => ⟨hc, rfl⟩⟩⟩
  | cons hstep hrest ih =>
    rename_i s t u r rs
    obtain ⟨chunks₁, lists₁, S₁, F₁⟩ := S.of_step hstep
    obtain ⟨chunks₂, lists₂, S₂, hconfig, hkeeps⟩ := ih S₁
    refine ⟨chunks₂, lists₂, S₂, hconfig.trans F₁.config, ?_⟩
    intro b hb hnotin
    rw [List.mem_cons, not_or] at hnotin
    obtain ⟨hne, hnotin⟩ := hnotin
    have hb₁ := F₁.live b hb fun heq => hne heq.symm
    obtain ⟨hb₂, hchunk⟩ := hkeeps b hb₁ hnotin
    refine ⟨hb₂, ?_⟩
    intro c hc haddr
    have hsame := F₁.blockAddress_eq S (mem_used.mp hc).1
    obtain ⟨hc₂, hsame₂⟩ := hchunk c (F₁.chunk b hb hb₁ c hc haddr) (haddr.trans hsame.symm)
    exact ⟨hc₂, hsame₂.trans hsame⟩

end Sound

/-- Legal use leads to sound sessions. -/
theorem sound_of_reachable [Grower G] {config : Config} {grower : G}
    (h : Reachable config grower s) :
    ∃ chunks lists, s.Sound chunks lists ∧ s.heap.config = config := by
  obtain ⟨rs, hrun⟩ := h
  obtain ⟨chunks, lists, S, hconfig, -⟩ := (Sound.start config grower).run hrun
  exact ⟨chunks, lists, S, hconfig⟩

end Session

end BoundaryTag
