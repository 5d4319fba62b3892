import BoundaryTag.Proofs.Client
import BoundaryTag.Proofs.LegalUse

/-!
# Independence of data

The heap shares its memory with the program: tags of chunks that were merged, old
footers and the data of blocks stay where they were written, and nothing in a slot
tells them from a tag. Still no data has an influence on what the heap does. Two
runs are compared which make the same calls, with growers that give the same
answers; what the memory holds at first and what the program stores may differ.

The sequence of chunks and the free lists say all that the heap finds in the
tags, so the two runs are kept together by these.

Results:

* `Alike.allocate`, `Alike.release`, `Alike.store`: one request.
* `answers_and_layout_eq`: two runs from the start.
-/

namespace BoundaryTag

variable {G G' : Type}

/-! ## Growers -/

namespace Grower

variable [Grower G]

/-- A grower whose memory is not clean. -/
structure Soiled (G : Type) where
  grower : G
  /-- What every slot holds at first. -/
  slot : Slot

instance : Grower (Soiled G) where
  grow g bytes :=
    let reply := grow g.grower bytes
    ⟨reply.answer.map fun grant => { grant with contents := fun _ => g.slot },
      ⟨reply.grower, g.slot⟩, reply.notes⟩

/-- What the memory holds is no part of an answer. -/
theorem answers_soiled (g : G) (slot : Slot) (requests : List Nat) :
    answers (Soiled.mk g slot) requests = answers g requests := by
  induction requests generalizing g with
  | nil => rfl
  | cons bytes requests ih =>
    have hanswer : answerTo (Soiled.mk g slot) bytes = answerTo g bytes := by
      show ((grow g bytes).answer.map _).map Grant.start = (grow g bytes).answer.map Grant.start
      cases (grow g bytes).answer <;> rfl
    rw [answers, answers, hanswer]
    exact congrArg (_ :: ·) (ih (grow g bytes).grower)

end Grower

namespace Arena

variable {a : Arena G} {a' : Arena G'}

/-- Growth is told by the place of the arena and the answers of its grower. -/
theorem growth_congr [Grower G] [Grower G'] {n : Nat} (hstart : a'.start = a.start)
    (hsize : a'.slots.size = a.slots.size)
    (hanswers : Grower.answers a.grower (a.asked n) = Grower.answers a'.grower (a.asked n)) :
    a'.growth n = a.growth n := by
  have haccepted : a'.accepted = a.accepted := by
    funext start
    unfold accepted
    rw [hstart, hsize]
  unfold growth
  rw [hsize, haccepted]
  split_ifs with hfit
  · have hasked : a.asked n = [(n + 2) * unitBytes] := if_pos hfit
    rw [hasked] at hanswers
    rw [(List.cons.inj hanswers).1]
  · rfl

end Arena

namespace Heap

/-! ## Heaps that differ in data only -/

variable {h k : Heap G} {h' k' : Heap G'} {chunks : List Chunk} {lists : FreeLists} {c : Chunk}

/-- The heaps have the same chunks and lists at the same place. -/
structure Alike (h : Heap G) (h' : Heap G') (chunks : List Chunk) (lists : FreeLists) : Prop where
  left : h.WellFormed chunks lists
  right : h'.WellFormed chunks lists
  config : h'.config = h.config
  start : h'.arena.start = h.arena.start

namespace Alike

theorem symm (A : h.Alike h' chunks lists) : h'.Alike h chunks lists :=
  ⟨A.right, A.left, A.config.symm, A.start.symm⟩

theorem size_eq (A : h.Alike h' chunks lists) : h'.arena.slots.size = h.arena.slots.size :=
  A.right.tiles.stop_unique A.left.tiles

theorem growthUnits_eq (A : h.Alike h' chunks lists) : h'.growthUnits = h.growthUnits := by
  unfold growthUnits
  rw [A.config]

theorem asked_eq (A : h.Alike h' chunks lists) : h'.arena.asked = h.arena.asked := by
  unfold Arena.asked
  rw [A.size_eq]

theorem requests_eq (A : h.Alike h' chunks lists) : h'.requests = h.requests := by
  funext size
  unfold requests
  rw [A.right.firstFit_eq, A.left.firstFit_eq, A.config, A.asked_eq, A.growthUnits_eq]

theorem blockAddress_eq (A : h.Alike h' chunks lists) :
    h'.arena.blockAddress = h.arena.blockAddress := by
  unfold Arena.blockAddress
  rw [A.start]

/-- A heap that differs in its bytes, not in its tags. -/
theorem sameMemory {a : Arena G} (A : h.Alike h' chunks lists)
    (W : (h.withArena a).WellFormed chunks lists) (hstart : a.start = h.arena.start) :
    (h.withArena a).Alike h' chunks lists :=
  ⟨W, A.right, A.config, A.start.trans hstart.symm⟩

/-- Heaps that are written to stay alike if they have the same chunks and lists again. -/
theorem of_within {S S' : Set Nat} {chunks' : List Chunk} {lists' : FreeLists}
    (A : h.Alike h' chunks lists) (hwithin : h.Within S k) (hwithin' : h'.Within S' k')
    (W : k.WellFormed chunks' lists') (W' : k'.WellFormed chunks' lists') :
    k.Alike k' chunks' lists' where
  left := W
  right := W'
  config := by rw [hwithin.config, hwithin'.config, A.config]
  start := by rw [hwithin.arena.start, hwithin'.arena.start, A.start]

/-- An allocation takes the same decisions, if what it asks for has the same answer. -/
theorem allocate [Grower G] [Grower G'] (A : h.Alike h' chunks lists) (size : Nat)
    (hanswers : Grower.answers h.arena.grower (h.requests size) =
      Grower.answers h'.arena.grower (h.requests size)) :
    ∃ answer k k' chunks' lists', (Heap.allocate size).Runs h answer k ∧
      (Heap.allocate size).Runs h' answer k' ∧ k.Alike k' chunks' lists' := by
  obtain ⟨answer, k, hrun, O⟩ := A.left.exists_outcome size
  cases O with
  | zero hzero =>
    subst hzero
    exact ⟨_, _, _, _, _, hrun, WellFormed.allocate_zero h', A⟩
  | tooLarge hpos hbig =>
    exact ⟨_, _, _, _, _, hrun, WellFormed.allocate_tooLarge h' hpos hbig, A⟩
  | outOfMemory hpos hsize hnone hgrowth =>
    rw [A.left.requests_of_missing hpos hsize hnone] at hanswers
    rw [← Arena.growth_congr A.start A.size_eq hanswers, ← A.growthUnits_eq] at hgrowth
    rw [← A.config] at hnone
    refine ⟨_, _, _, chunks, lists, hrun, A.right.allocate_error hpos hsize hnone hgrowth, ?_⟩
    exact ⟨A.left.sameMemory ⟨rfl, rfl⟩, A.right.sameMemory ⟨rfl, rfl⟩, A.config, A.start⟩
  | found hpos hsize hchunks hlists hfound W hwithin =>
    subst hchunks hlists
    rw [← A.config] at hfound
    obtain ⟨k', hrun', W', hwithin'⟩ := WellFormed.allocate_found hpos hsize A.right hfound
    rw [A.blockAddress_eq, A.config] at hrun'
    rw [A.config] at W'
    exact ⟨_, _, _, _, _, hrun, hrun', A.of_within hwithin hwithin' W W'⟩
  | grown hpos hsize hnone hgrowth hf W₁ K hfound hlength hstart hgrower W hwithin =>
    rename_i f h₁ base
    rw [A.left.requests_of_missing hpos hsize hnone] at hanswers
    rw [← Arena.growth_congr A.start A.size_eq hanswers, ← A.growthUnits_eq] at hgrowth
    rw [← A.config] at hnone
    have hf' : f = (h'.grownFocus chunks lists
        (h'.growthUnits (unitsFor size))).reclaimed h'.config := by
      unfold grownFocus
      rw [A.size_eq, A.growthUnits_eq, A.config]
      exact hf
    obtain ⟨h₁', hrun₁', W₁', hfound', K', -, hstart', -⟩ :=
      A.right.obtain_grown hnone hgrowth hf'
    -- the heaps that growth leaves are alike
    have A₁ : h₁.Alike h₁' f.chunks f.lists := by
      refine ⟨W₁, W₁', ?_, hstart'.trans hstart.symm⟩
      rw [K.config, K'.config, A.config]
    obtain ⟨k', hrun', W', hwithin'⟩ := WellFormed.allocate_of_obtain hpos hsize hrun₁' W₁' hfound'
    rw [A₁.blockAddress_eq, A₁.config] at hrun'
    rw [A₁.config] at W'
    exact ⟨_, _, _, _, _, hrun, hrun', A₁.of_within hwithin hwithin' W W'⟩

/-- A release makes the same chunk free. -/
theorem release (A : h.Alike h' chunks lists) (hc : c ∈ used chunks) :
    ∃ k k' chunks' lists', (Heap.release (h.arena.blockAddress c)).Runs h () k ∧
      (Heap.release (h.arena.blockAddress c)).Runs h' () k' ∧ k.Alike k' chunks' lists' := by
  obtain ⟨hmem, hused⟩ := mem_used.mp hc
  obtain ⟨pre, post, rfl⟩ := List.append_of_mem hmem
  obtain ⟨k, hrun, W, hwithin⟩ :=
    WellFormed.release_chunk (f := ⟨pre, c, post, lists⟩) A.left hused
  obtain ⟨k', hrun', W', hwithin'⟩ :=
    WellFormed.release_chunk (f := ⟨pre, c, post, lists⟩) A.right hused
  rw [A.blockAddress_eq] at hrun'
  rw [A.config] at W'
  exact ⟨k, k', _, _, hrun, hrun', A.of_within hwithin hwithin' W W'⟩

end Alike

end Heap

namespace Session

/-! ## Sessions that differ in data only -/

variable {s t : Session G} {s' t' : Session G'} {chunks chunks' : List Chunk}
  {lists lists' : FreeLists}

/-- The sessions have heaps that are alike, and the same blocks. -/
structure Alike (s : Session G) (s' : Session G') (chunks : List Chunk) (lists : FreeLists) :
    Prop where
  left : s.Sound chunks lists
  right : s'.Sound chunks lists
  heap : s.heap.Alike s'.heap chunks lists
  live : s'.live = s.live

namespace Alike

theorem symm (A : s.Alike s' chunks lists) : s'.Alike s chunks lists :=
  ⟨A.right, A.left, A.heap.symm, A.live.symm⟩

theorem start (config : Config) (g : G) (g' : G') :
    (Session.start config g).Alike (Session.start config g') [] fun _ => [] :=
  ⟨Sound.start config g, Sound.start config g',
    ⟨Heap.WellFormed.new g config, Heap.WellFormed.new g' config, rfl, rfl⟩, rfl⟩

/-- The same requests are legal. -/
theorem allows (A : s.Alike s' chunks lists) {r : Request} (hallows : s.Allows r) :
    s'.Allows r := by
  cases r with
  | allocate size => exact hallows
  | release address =>
    unfold Allows
    rw [A.live]
    exact hallows
  | store address bytes =>
    unfold Allows
    rw [A.live]
    exact hallows

/-- The same requests have the same needs. -/
theorem asked_eq (A : s.Alike s' chunks lists) (r : Request) : s'.asked r = s.asked r := by
  cases r with
  | allocate size => exact congrFun A.heap.requests_eq size
  | release | store => rfl

/-- What one of the programs stores makes no difference. -/
theorem store [Grower G] (A : s.Alike s' chunks lists) {address : Nat} {bytes : List UInt8}
    (hallows : s.Allows (.store address bytes)) :
    ∃ t, (perform (.store address bytes)).Runs s none t ∧ t.Alike s' chunks lists := by
  obtain ⟨a, hrun, S, -, hstart, -⟩ := A.left.exists_store hallows
  exact ⟨_, hrun, S, A.right, A.heap.sameMemory S.wellFormed hstart, A.live⟩

variable [Grower G] [Grower G']

/-- The same request of both programs. -/
theorem of_runs (A : s.Alike s' chunks lists) {r : Request}
    {answer answer' : Option (Except AllocError Nat)} (hallows : s.Allows r)
    (hrun : (perform r).Runs s answer t) (hrun' : (perform r).Runs s' answer' t')
    (H : t.heap.Alike t'.heap chunks' lists') (hlive : t'.live = t.live) :
    t.Alike t' chunks' lists' :=
  ⟨A.left.of_runs hallows hrun H.left, A.right.of_runs (A.allows hallows) hrun' H.right, H, hlive⟩

theorem allocate (A : s.Alike s' chunks lists) {size : Nat}
    (hallows : s.Allows (.allocate size))
    (hanswers : Grower.answers s.heap.arena.grower (s.asked (.allocate size)) =
      Grower.answers s'.heap.arena.grower (s.asked (.allocate size))) :
    ∃ answer t t' chunks' lists', (perform (.allocate size)).Runs s answer t ∧
      (perform (.allocate size)).Runs s' answer t' ∧ t.Alike t' chunks' lists' := by
  obtain ⟨answer, k, k', chunks', lists', hrun, hrun', H⟩ := A.heap.allocate size hanswers
  have hperform := runs_allocate hrun
  have hperform' := runs_allocate hrun'
  refine ⟨_, _, _, chunks', lists', hperform, hperform', ?_⟩
  cases answer with
  | error e => exact A.of_runs hallows hperform hperform' H A.live
  | ok address => exact A.of_runs hallows hperform hperform' H (congrArg _ A.live)

theorem release (A : s.Alike s' chunks lists) {address : Nat}
    (hallows : s.Allows (.release address)) :
    ∃ answer t t' chunks' lists', (perform (.release address)).Runs s answer t ∧
      (perform (.release address)).Runs s' answer t' ∧ t.Alike t' chunks' lists' := by
  have key : ∃ k k' chunks' lists', (Heap.release address).Runs s.heap () k ∧
      (Heap.release address).Runs s'.heap () k' ∧ k.Alike k' chunks' lists' := by
    obtain rfl | ⟨b, hb, rfl⟩ : address = nullAddress ∨ ∃ b ∈ s.live, b.address = address := hallows
    · exact ⟨_, _, _, _, Heap.WellFormed.release_null _, Heap.WellFormed.release_null _, A.heap⟩
    · obtain ⟨c, hc, haddr⟩ := A.left.exists_chunk hb
      rw [haddr]
      exact A.heap.release hc
  obtain ⟨k, k', chunks', lists', hrun, hrun', H⟩ := key
  refine ⟨_, _, _, chunks', lists', runs_release hrun, runs_release hrun', ?_⟩
  apply A.of_runs hallows (runs_release hrun) (runs_release hrun') H
  show s'.live.filter _ = s.live.filter _
  rw [A.live]

end Alike

/-! ## Two runs -/

namespace Client

variable {p q : Client G} {p' q' : Client G'} {c : Call} {cs cs' : List Call}
  {requests requests' : List Nat}

/-- A store asks for no memory. -/
theorem asked_of_store (hc : c.toHeap = false) : p.asked c = [] := by
  cases c with
  | store => rfl
  | allocate | release => cases hc

/-- The clients have the same answers and sessions that are alike. -/
def Matches (p : Client G) (p' : Client G') : Prop :=
  p'.answers = p.answers ∧ ∃ chunks lists, p.session.Alike p'.session chunks lists

namespace Matches

theorem symm (M : p.Matches p') : p'.Matches p :=
  ⟨M.1.symm, M.2.imp fun _ h => h.imp fun _ A => A.symm⟩

theorem asked_eq (M : p.Matches p') (c : Call) : p'.asked c = p.asked c := by
  obtain ⟨hanswers, chunks, lists, A⟩ := M
  unfold asked
  rw [hanswers, A.asked_eq]

variable [Grower G]

/-- What the grower is after a call. -/
theorem grower_of_step (M : p.Matches p') (hstep : p.Step c q) :
    q.grower = Grower.after p.grower (p.asked c) := by
  obtain ⟨-, chunks, lists, A⟩ := M
  exact A.left.grower_of_step hstep.step

/-- A store of one of the programs. -/
theorem store (M : p.Matches p') (hc : c.toHeap = false) (hstep : p.Step c q) : q.Matches p' := by
  obtain ⟨hanswers, chunks, lists, A⟩ := M
  cases c with
  | store address bytes =>
    obtain ⟨hallows, answer, log, log', hperform, hlater⟩ := hstep
    obtain ⟨t, hrun, A'⟩ := A.store hallows
    obtain ⟨rfl, hsession⟩ := hrun.unique hperform
    refine ⟨?_, chunks, lists, hsession ▸ A'⟩
    rw [hlater, hanswers]
    exact (List.append_nil _).symm
  | allocate | release => cases hc

/-- Stores of one of the programs. -/
theorem stores (M : p.Matches p') (hcs : ∀ c ∈ cs, c.toHeap = false)
    (hrun : p.Run cs requests q) : q.Matches p' ∧ requests = [] ∧ q.grower = p.grower := by
  induction hrun with
  | nil p => exact ⟨M, rfl, rfl⟩
  | cons hstep _ ih =>
    have hstore := hcs _ (List.mem_cons_self ..)
    have hgrower := M.grower_of_step hstep
    rw [asked_of_store hstore] at hgrower ⊢
    obtain ⟨M', hnone, hgrower'⟩ :=
      ih (M.store hstore hstep) fun c hc => hcs c (List.mem_cons_of_mem _ hc)
    exact ⟨M', hnone, hgrower'.trans hgrower⟩

variable [Grower G']

/-- A call that both make, and for which the growers have the same answer. -/
theorem call (M : p.Matches p') (hc : c.toHeap) (hstep : p.Step c q) (hstep' : p'.Step c q')
    (hgrowers : Grower.answers p.grower (p.asked c) = Grower.answers p'.grower (p.asked c)) :
    q.Matches q' := by
  obtain ⟨hanswers, chunks, lists, A⟩ := M
  obtain ⟨hallows, answer, log₁, log₂, hperform, hlater⟩ := hstep
  obtain ⟨-, answer', log₁', log₂', hperform', hlater'⟩ := hstep'
  rw [hanswers] at hperform'
  have key : ∃ answer t t' chunks' lists', (perform (c.request p.answers)).Runs p.session answer t ∧
      (perform (c.request p.answers)).Runs p'.session answer t' ∧ t.Alike t' chunks' lists' := by
    cases c with
    | allocate size => exact A.allocate hallows hgrowers
    | release name => exact A.release hallows
    | store => cases hc
  obtain ⟨answer₁, t, t', chunks', lists', hrun, hrun', A'⟩ := key
  obtain ⟨rfl, hsession⟩ := hrun.unique hperform
  obtain ⟨rfl, hsession'⟩ := hrun'.unique hperform'
  refine ⟨by rw [hlater, hlater', hanswers], chunks', lists', ?_⟩
  rw [hsession, hsession']
  exact A'

/-- Runs with the same calls to the heap, whose growers give the same answers. -/
theorem run (M : p.Matches p') (hrun : p.Run cs requests q) (hrun' : p'.Run cs' requests' q')
    (hcalls : cs.filter Call.toHeap = cs'.filter Call.toHeap)
    (hgrowers : Grower.answers p.grower requests = Grower.answers p'.grower requests') :
    q.Matches q' ∧ requests = requests' := by
  induction hrun generalizing p' cs' requests' with
  | nil p =>
    have hstores : ∀ c ∈ cs', c.toHeap = false := by
      simpa using List.filter_eq_nil_iff.mp hcalls.symm
    obtain ⟨M', rfl, -⟩ := M.symm.stores hstores hrun'
    exact ⟨M'.symm, rfl⟩
  | cons hstep hrest ih =>
    rename_i c cs requests
    have hgrower := M.grower_of_step hstep
    rw [Grower.answers_append, ← hgrower] at hgrowers
    cases hc : c.toHeap
    · rw [List.filter_cons_of_neg (by simp [hc])] at hcalls
      rw [asked_of_store hc] at hgrowers ⊢
      exact ih (M.store hc hstep) hrun' hcalls hgrowers
    · -- the second run makes its stores, then the same call
      rw [List.filter_cons_of_pos hc] at hcalls
      obtain ⟨before, after, rfl, hbefore, -, hafter⟩ := List.filter_eq_cons_iff.mp hcalls.symm
      obtain ⟨m', asked, later, rfl, hrun₁', hrun₂'⟩ := hrun'.split
      obtain ⟨M₁, rfl, hgrower₁⟩ := M.symm.stores (by simpa using hbefore) hrun₁'
      cases hrun₂' with
      | cons hstep' hrest' =>
        rename_i later
        have hgrower' := M₁.grower_of_step hstep'
        rw [M₁.symm.asked_eq] at hgrower' hgrowers ⊢
        rw [List.nil_append, Grower.answers_append, ← hgrower₁, ← hgrower'] at hgrowers
        obtain ⟨hhere, hlater⟩ := List.append_inj hgrowers (by simp)
        obtain ⟨M', rfl⟩ := ih (M₁.symm.call hc hstep hstep' hhere) hrest' hafter.symm hlater
        exact ⟨M', rfl⟩

end Matches

/-! ## Runs from the start -/

/-- Two runs from the start in which the same calls go to the heap and the growers give the same
answers; what the memory holds at first and what the programs store into their blocks may differ.
The growers are asked for the same, all allocations have the same answers, and in the end the heaps
have the same chunks, the same lists in the same order, the same counters and the same result of an
inspection. Every beginning of a run is a run, so all this holds after every call. -/
theorem answers_and_layout_eq [Grower G] [Grower G'] {config : Config} {g : G} {g' : G'}
    (hrun : (start config g).Run cs requests p) (hrun' : (start config g').Run cs' requests' p')
    (hcalls : cs.filter Call.toHeap = cs'.filter Call.toHeap)
    (hgrowers : Grower.answers g requests = Grower.answers g' requests') :
    requests = requests' ∧ p.answers = p'.answers ∧ p.session.live = p'.session.live ∧
    (∃ chunks lists, p.session.heap.WellFormed chunks lists ∧
      p'.session.heap.WellFormed chunks lists) ∧
    p.session.heap.arena.start = p'.session.heap.arena.start ∧
    p.session.heap.stats = p'.session.heap.stats ∧
    p.session.heap.freeListLengths = p'.session.heap.freeListLengths ∧
    p.session.heap.check = p'.session.heap.check := by
  have M : (start config g).Matches (start config g') := ⟨rfl, _, _, Alike.start config g g'⟩
  obtain ⟨⟨hanswers, chunks, lists, A⟩, hrequests⟩ := M.run hrun hrun' hcalls hgrowers
  have W := A.heap.left
  have W' := A.heap.right
  refine ⟨hrequests, hanswers.symm, A.live.symm, ⟨chunks, lists, W, W'⟩, A.heap.start.symm,
    ?_, ?_, ?_⟩
  · rw [W.stats_eq, W'.stats_eq, A.heap.size_eq]
  · rw [W.freeListLengths_eq, W'.freeListLengths_eq, A.heap.config]
  · rw [W.check_eq, W'.check_eq]

set_option maxRecDepth 100000 in
/-- One of the programs finds what looks like tags of free chunks, and stores such a tag. -/
theorem answers_and_layout_eq_soiled :
    ∃ (p : Client Region) (p' : Client (Grower.Soiled Region)),
      (start smallBins smallBuffer).Run [.allocate 20, .store 4112 [1, 2, 3], .allocate 40,
        .release 0, .allocate 900, .allocate 16] [96, 96, 944] p ∧
      (start smallBins (Grower.Soiled.mk smallBuffer ⟨0, 3, Status.free.word⟩)).Run [.allocate 20,
        .allocate 40, .store 4208 [0, 0, 0, 0, 0, 0, 0, 0, 3, 0, 0, 0, 0x52, 0x46, 0, 0],
        .release 0, .allocate 900, .allocate 16] [96, 96, 944] p' ∧
      p.answers = [.ok 4112, .ok 4208, .error (.outOfMemory (.exhausted 944)), .ok 4160] ∧
      (p.session.heap.arena.loadByte 4216).toOption = some 0 ∧
      (p'.session.heap.arena.loadByte 4216).toOption = some 3 ∧
      p.answers = p'.answers ∧ p.session.heap.stats = p'.session.heap.stats := by
  have hplay : ((start smallBins smallBuffer).play [.allocate 20, .store 4112 [1, 2, 3],
      .allocate 40, .release 0, .allocate 900, .allocate 16]).map (fun q =>
        (q.1.answers, (q.1.session.heap.arena.loadByte 4216).toOption, q.2)) =
      some ([.ok 4112, .ok 4208, .error (.outOfMemory (.exhausted 944)), .ok 4160], some 0,
        [96, 96, 944]) := by
    decide +kernel
  have hplay' : ((start smallBins (Grower.Soiled.mk smallBuffer ⟨0, 3, Status.free.word⟩)).play
      [.allocate 20, .allocate 40,
        .store 4208 [0, 0, 0, 0, 0, 0, 0, 0, 3, 0, 0, 0, 0x52, 0x46, 0, 0],
        .release 0, .allocate 900, .allocate 16]).map (fun q =>
        ((q.1.session.heap.arena.loadByte 4216).toOption, q.2)) =
      some (some 3, [96, 96, 944]) := by
    decide +kernel
  obtain ⟨⟨p, requests⟩, hp, hseen⟩ := Option.map_eq_some_iff.mp hplay
  obtain ⟨⟨p', requests'⟩, hp', hseen'⟩ := Option.map_eq_some_iff.mp hplay'
  simp only [Prod.mk.injEq] at hseen hseen'
  obtain ⟨hanswers, hbyte, rfl⟩ := hseen
  obtain ⟨hbyte', rfl⟩ := hseen'
  have hrun := run_of_play hp
  have hrun' := run_of_play hp'
  obtain ⟨-, heq, -, -, -, hstats, -, -⟩ := answers_and_layout_eq hrun hrun' (by decide)
    (Grower.answers_soiled smallBuffer ⟨0, 3, Status.free.word⟩ _).symm
  exact ⟨p, p', hrun, hrun', hanswers, hbyte, hbyte', heq, hstats⟩

end Client

end Session

end BoundaryTag
