import BoundaryTag.Growth.Script
import BoundaryTag.Proofs.Growth

/-!
# Accepted grants

An arena that is only extended is the concatenation of the grants that it has
accepted. Nothing is known of the grower: it may fail at any call, grant memory
anywhere, and grant the right memory again later. What it is asked for and where
the memory may lie depends on the arena alone, and an attempt that fails leaves no
trace in the arena.

Results:

* `exists_step`: how an attempt ends, and that it ends in one way only.
* `Joins.append`: an accepted grant joins the others.
* `grants_joined`: every sequence of attempts.
-/

namespace BoundaryTag

/-! ## Ranges of addresses -/

/-- A range of addresses for a chunk of `units` units and its two tags. -/
structure Extent where
  start : Nat
  units : Nat
deriving DecidableEq, Repr

/-- The address behind the range. -/
def Extent.stop (e : Extent) : Nat := e.start + (e.units + 2) * unitBytes

/-- The ranges lie behind each other, from address `p` to address `q`. -/
def Spans : Nat → List Extent → Nat → Prop
  | p, [], q => p = q
  | p, e :: rest, q => e.start = p ∧ Spans e.stop rest q

theorem Spans.concat {p : Nat} {es : List Extent} {e : Extent} (h : Spans p es e.start) :
    Spans p (es ++ [e]) e.stop := by
  induction es generalizing p with
  | nil => exact ⟨h.symm, rfl⟩
  | cons d es ih => exact ⟨h.1, ih h.2⟩

/-- An attempt to extend an arena. -/
structure Attempt where
  units : Nat
  /-- Where the grower has memory for so many units and two tags, or why it has none. -/
  offer : Except GrowError Nat
  answer : Except GrowError Nat

/-- The range that an attempt has added to the arena. -/
def Attempt.extent? : Attempt → Option Extent
  | ⟨units, .ok start, .ok _⟩ => some ⟨start, units⟩
  | _ => none

/-- The ranges that attempts have added to the arena. -/
def extents (ts : List Attempt) : List Extent := ts.filterMap Attempt.extent?

theorem extents_append (ts us : List Attempt) : extents (ts ++ us) = extents ts ++ extents us :=
  List.filterMap_append ..

namespace Arena

variable {G : Type} {a b c : Arena G} {n p base : Nat} {es : List Extent} {e : Extent}
  {t : Attempt} {ts us : List Attempt}

/-! ## Attempts -/

section Attempts

variable [Grower G]

/-- An attempt to extend the arena that ends without a fault. -/
def Step (a : Arena G) (t : Attempt) (b : Arena G) : Prop :=
  1 ≤ t.units ∧ t.offer = Grower.answerTo a.grower ((t.units + 2) * unitBytes) ∧
    ∃ log log', extend t.units ⟨a, log⟩ = .ok t.answer ⟨b, log'⟩

/-- A sequence of attempts. -/
inductive Run : Arena G → List Attempt → Arena G → Prop where
  | nil (a : Arena G) : Run a [] a
  | cons {a b c : Arena G} {t : Attempt} {ts : List Attempt} :
    a.Step t b → Run b ts c → Run a (t :: ts) c

/-- Makes attempts for these numbers of units. -/
def play (a : Arena G) : List Nat → Option (List Attempt × Arena G)
  | [] => some ([], a)
  | n :: ns =>
    if 1 ≤ n then
      match extend n ⟨a, #[]⟩ with
      | .ok answer u => (u.state.play ns).map fun r =>
        (⟨n, Grower.answerTo a.grower ((n + 2) * unitBytes), answer⟩ :: r.1, r.2)
      | .error _ _ => none
    else none

theorem run_of_play {ns : List Nat} (h : a.play ns = some (ts, b)) : a.Run ts b := by
  induction ns generalizing a ts with
  | nil =>
    cases h
    exact Run.nil _
  | cons n ns ih =>
    rw [play] at h
    split_ifs at h with hn
    split at h
    · rename_i answer u hextend
      obtain ⟨⟨us, b'⟩, hrest, heq⟩ := Option.map_eq_some_iff.mp h
      cases heq
      exact Run.cons ⟨hn, rfl, #[], u.log, hextend⟩ (ih hrest)
    · cases h

end Attempts

/-! ## One attempt -/

/-- A grant at `p` may begin the arena, or goes on where it ends. -/
def Admits (a : Arena G) (p : Nat) : Prop :=
  (a.start = none → p % unitBytes = 0) ∧ ∀ base ∈ a.start, p = base + a.slots.size * unitBytes

/-- Why the arena is not extended by `n` units, when this is what the grower offers. -/
inductive Refuses (a : Arena G) (n : Nat) (offer : Except GrowError Nat) : GrowError → Prop where
  /-- The grower is not asked. The number of bytes may be too large for a word. -/
  | tooLong (hlong : maxUnits < a.slots.size + (n + 2)) :
    Refuses a n offer (.exhausted (min ((n + 2) * unitBytes) Word.top))
  | grower {e : GrowError} (hfit : a.slots.size + (n + 2) ≤ maxUnits) (hoffer : offer = .error e) :
    Refuses a n offer e
  | misaligned {p : Nat} (hfit : a.slots.size + (n + 2) ≤ maxUnits) (hoffer : offer = .ok p)
    (hstart : a.start = none) (hplace : p % unitBytes ≠ 0) : Refuses a n offer (.misaligned p)
  | discontiguous {base p : Nat} (hfit : a.slots.size + (n + 2) ≤ maxUnits) (hoffer : offer = .ok p)
    (hstart : a.start = some base) (hplace : p ≠ base + a.slots.size * unitBytes) :
    Refuses a n offer (.discontiguous (base + a.slots.size * unitBytes) p)

theorem accepted_eq_ok_iff_admits :
    a.accepted p = .ok base ↔ a.Admits p ∧ base = a.start.getD p := by
  rw [accepted_eq_ok_iff]
  unfold Admits
  cases a.start with
  | none => simp
  | some start =>
    simp only [reduceCtorEq, false_and, false_or, Option.some.injEq, Option.mem_def, forall_eq',
      false_implies, true_and, Option.getD_some]
    constructor
    · rintro ⟨rfl, rfl⟩
      exact ⟨rfl, rfl⟩
    · rintro ⟨rfl, rfl⟩
      exact ⟨rfl, rfl⟩

/-- An admitted grant begins where the arena ends. -/
theorem Admits.getD_add (h : a.Admits p) :
    a.start.getD p + a.slots.size * unitBytes = p := by
  cases hstart : a.start with
  | none =>
    rw [a.unmapped hstart, Nat.zero_mul]
    rfl
  | some base => exact (h.2 base hstart).symm

theorem refuses_of_accepted (hfit : a.slots.size + (n + 2) ≤ maxUnits) {e : GrowError}
    (h : a.accepted p = .error e) : a.Refuses n (.ok p) e := by
  unfold accepted at h
  cases hstart : a.start with
  | none =>
    simp only [hstart] at h
    split_ifs at h with hplace
    cases h
    exact .misaligned hfit rfl hstart hplace
  | some base =>
    simp only [hstart] at h
    split_ifs at h with hplace
    cases h
    exact .discontiguous hfit rfl hstart hplace

section Step

variable [Grower G]

theorem growth_eq_ok_iff : a.growth n = .ok base ↔ a.slots.size + (n + 2) ≤ maxUnits ∧
    ∃ p, Grower.answerTo a.grower ((n + 2) * unitBytes) = .ok p ∧ a.Admits p ∧
      base = a.start.getD p := by
  unfold growth
  split_ifs with hfit
  · cases Grower.answerTo a.grower ((n + 2) * unitBytes) with
    | error e => simp [Except.bind]
    | ok p => simp [Except.bind, accepted_eq_ok_iff_admits, hfit]
  · simp [hfit]

theorem refuses_of_growth {e : GrowError} (h : a.growth n = .error e) :
    a.Refuses n (Grower.answerTo a.grower ((n + 2) * unitBytes)) e := by
  unfold growth at h
  split_ifs at h with hfit
  · cases hoffer : Grower.answerTo a.grower ((n + 2) * unitBytes) with
    | error e' =>
      rw [hoffer] at h
      cases h
      exact .grower hfit rfl
    | ok p =>
      rw [hoffer] at h
      exact refuses_of_accepted hfit h
  · cases h
    have hbytes : Word.mulSaturating (Word.addSaturating n 2) unitBytes =
        min ((n + 2) * unitBytes) Word.top := by
      unfold Word.mulSaturating Word.addSaturating Word.top unitBytes
      omega
    rw [hbytes]
    exact .tooLong (by omega)

/-- The one outcome of an attempt. -/
theorem step_of_runs {answer : Except GrowError Nat} (hn : 1 ≤ n)
    (hrun : (extend n).Runs a answer b) :
    a.Step ⟨n, Grower.answerTo a.grower ((n + 2) * unitBytes), answer⟩ b ∧
      ∀ t c, t.units = n → a.Step t c →
        t = ⟨n, Grower.answerTo a.grower ((n + 2) * unitBytes), answer⟩ ∧ c = b := by
  obtain ⟨log, hextend⟩ := hrun #[]
  refine ⟨⟨hn, rfl, #[], log, hextend⟩, ?_⟩
  rintro ⟨n', offer, answer'⟩ c hunits ⟨-, hoffer, log, log', hextend'⟩
  obtain rfl : n' = n := hunits
  obtain ⟨rfl, rfl⟩ := hrun.unique hextend'
  exact ⟨congrArg (Attempt.mk n' · answer') hoffer, rfl⟩

/-- What an attempt does: the arena has one chunk more, or its memory is as it was. -/
structure Outcome (a : Arena G) (t : Attempt) (b : Arena G) : Prop where
  /-- It ends without a fault, whatever stands in the log. -/
  runs : (extend t.units).Runs a t.answer b
  /-- The grower has been asked for just the bytes that are needed, and only where they fit. -/
  grower : b.grower = Grower.after a.grower (a.asked t.units)
  accepted_iff : (∃ c, t.answer = .ok c) ↔ a.slots.size + (t.units + 2) ≤ maxUnits ∧
    ∃ p, t.offer = .ok p ∧ a.Admits p
  accepted : ∀ c, t.answer = .ok c → c = a.slots.size ∧ a.Grown t.units b
  refused : ∀ e, t.answer = .error e → a.SameMemory b ∧ a.Refuses t.units t.offer e
  /-- A grant is where it was offered. -/
  start : ∀ c p, t.answer = .ok c → t.offer = .ok p → b.start = some (a.start.getD p)

/-- An attempt ends, and in one way only. -/
theorem exists_step (hp : a.Placed) (hn : 1 ≤ n) :
    ∃ t b, t.units = n ∧ a.Step t b ∧ a.Outcome t b ∧
      ∀ t' b', t'.units = n → a.Step t' b' → t' = t ∧ b' = b := by
  cases hgrowth : a.growth n with
  | error e =>
    have hrun := runs_extend_error hp hgrowth
    obtain ⟨hstep, hunique⟩ := step_of_runs hn hrun
    refine ⟨_, _, rfl, hstep, ⟨hrun, rfl, ?_, by simp, ?_, by simp⟩, hunique⟩
    · refine iff_of_false (by simp) ?_
      rintro ⟨hfit, p, hoffer, hadmits⟩
      have hok := growth_eq_ok_iff.mpr ⟨hfit, p, hoffer, hadmits, rfl⟩
      rw [hgrowth] at hok
      cases hok
    · intro e' he
      cases he
      exact ⟨⟨rfl, rfl⟩, refuses_of_growth hgrowth⟩
  | ok base =>
    obtain ⟨b, hrun, hb, hstart, hgrower⟩ := exists_extend hp hgrowth
    obtain ⟨hstep, hunique⟩ := step_of_runs hn hrun
    obtain ⟨hfit, p, hoffer, hadmits, rfl⟩ := growth_eq_ok_iff.mp hgrowth
    refine ⟨_, b, rfl, hstep, ⟨hrun, hgrower, iff_of_true ⟨_, rfl⟩ ⟨hfit, p, hoffer, hadmits⟩, ?_,
      by simp, ?_⟩, hunique⟩
    · intro c hc
      cases hc
      exact ⟨rfl, hb⟩
    · intro c q _ hq
      rw [hoffer] at hq
      cases hq
      exact hstart

end Step

/-! ## The arena as a concatenation -/

/-- The chunk in a range of the arena, before it is used. -/
def chunkIn (a : Arena G) (e : Extent) : Chunk :=
  ⟨(e.start - a.start.getD 0) / unitBytes, e.units, .inUse⟩

/-- The arena is made of the ranges, with one chunk in each. -/
structure Joins (a : Arena G) (es : List Extent) : Prop where
  placed : a.Placed
  short : a.slots.size ≤ maxUnits
  none_iff : a.start = none ↔ es = []
  /-- The ranges go from the beginning of the arena to its end, without a gap. -/
  spans : ∀ base ∈ a.start, Spans base es (base + a.slots.size * unitBytes)
  address : ∀ e ∈ es, a.start.getD 0 + (a.chunkIn e).index * unitBytes = e.start
  tiles : Tiles 0 (es.map a.chunkIn) a.slots.size
  tagged : ∀ e ∈ es, (a.chunkIn e).TaggedIn a
  /-- The chunks are in no list. -/
  unlinked : ∀ e ∈ es, a.linkAt (a.chunkIn e).index = none ∧ a.linkAt (a.chunkIn e).footer = none

namespace Joins

theorem empty (g : G) : (Arena.empty g).Joins [] :=
  ⟨placed_empty g, Nat.zero_le _, by simp [Arena.empty], by simp [Arena.empty], by simp, rfl,
    by simp, by simp⟩

theorem sameMemory (J : a.Joins es) (h : a.SameMemory b) : b.Joins es := by
  obtain ⟨start, slots, g, _⟩ := a
  obtain ⟨start', slots', g', _⟩ := b
  obtain ⟨rfl, rfl⟩ : start' = start ∧ slots' = slots := ⟨h.start, h.slots⟩
  exact ⟨J.placed.congr rfl rfl, J.short, J.none_iff, J.spans, J.address, J.tiles,
    fun e he => (J.tagged e he).congr rfl rfl, J.unlinked⟩

/-- An accepted grant is one more range. -/
theorem append (J : a.Joins es) (hn : 1 ≤ n) (hadmits : a.Admits p) (hb : a.Grown n b)
    (hstart : b.start = some (a.start.getD p)) : b.Joins (es ++ [⟨p, n⟩]) := by
  have hend := hadmits.getD_add
  have hnew : b.chunkIn ⟨p, n⟩ = ⟨a.slots.size, n, .inUse⟩ := by
    unfold chunkIn
    rw [hstart, Option.getD_some, Nat.sub_eq_of_eq_add' hend.symm,
      Nat.mul_div_cancel _ (by decide)]
  have hold : ∀ e ∈ es, b.start.getD 0 = a.start.getD 0 ∧ b.chunkIn e = a.chunkIn e := by
    intro e he
    obtain ⟨base, hbase⟩ := Option.ne_none_iff_exists'.mp fun hnone =>
      List.not_mem_nil (J.none_iff.mp hnone ▸ he)
    have hsame : b.start.getD 0 = a.start.getD 0 := by rw [hb.start base hbase, hbase]
    exact ⟨hsame, by unfold chunkIn; rw [hsame]⟩
  have hmap : es.map b.chunkIn = es.map a.chunkIn := List.map_congr_left fun e he => (hold e he).2
  -- the old slots are as before
  have hslots : ∀ e ∈ es, b.slots[(a.chunkIn e).index]? = a.slots[(a.chunkIn e).index]? ∧
      b.slots[(a.chunkIn e).footer]? = a.slots[(a.chunkIn e).footer]? := by
    intro e he
    have ht := J.tagged e he
    exact ⟨hb.slots _ ht.index_lt, hb.slots _ ht.footer_lt⟩
  refine ⟨hb.placed, hb.short, by simp [hstart], ?_, ?_, ?_, ?_, ?_⟩
  · intro base hbase
    rw [hstart] at hbase
    cases hbase
    have hstop : a.start.getD p + b.slots.size * unitBytes = Extent.stop ⟨p, n⟩ := by
      unfold Extent.stop
      rw [hb.size]
      unfold unitBytes at *
      simp only
      omega
    rw [hstop]
    apply Spans.concat
    cases hbase : a.start with
    | none =>
      rw [J.none_iff.mp hbase]
      exact rfl
    | some base =>
      have hspans := J.spans base hbase
      rw [← hadmits.2 base hbase] at hspans
      exact hspans
  · intro e he
    rcases List.mem_append.mp he with he | he
    · rw [(hold e he).1, (hold e he).2]
      exact J.address e he
    · rw [List.mem_singleton.mp he, hnew, hstart]
      exact hend
  · rw [List.map_append, hmap, List.map_singleton, hnew, hb.size]
    exact Tiles.concat J.tiles hn
  · intro e he
    rcases List.mem_append.mp he with he | he
    · rw [(hold e he).2]
      exact (J.tagged e he).sameSlots (hslots e he).1 (hslots e he).2
    · rw [List.mem_singleton.mp he, hnew]
      exact hb.tagged
  · intro e he
    rcases List.mem_append.mp he with he | he
    · rw [(hold e he).2, linkAt, linkAt, (hslots e he).1, (hslots e he).2]
      exact J.unlinked e he
    · rw [List.mem_singleton.mp he, hnew]
      exact hb.unlinked

end Joins

section Runs

variable [Grower G]

/-- The outcome of every step. -/
theorem outcome_of_step (hp : a.Placed) (hstep : a.Step t b) : a.Outcome t b := by
  obtain ⟨t', b', hunits, -, O, hunique⟩ := exists_step (n := t.units) hp hstep.1
  obtain ⟨rfl, rfl⟩ := hunique t b rfl hstep
  exact O

theorem Joins.step (J : a.Joins es) (hstep : a.Step t b) : b.Joins (es ++ extents [t]) := by
  have O := outcome_of_step J.placed hstep
  obtain ⟨n, offer, answer⟩ := t
  cases answer with
  | error e =>
    have hnone : extents [⟨n, offer, .error e⟩] = [] := by cases offer <;> rfl
    rw [hnone, List.append_nil]
    exact J.sameMemory (O.refused e rfl).1
  | ok c =>
    obtain ⟨-, p, rfl, hadmits⟩ := O.accepted_iff.mp ⟨c, rfl⟩
    exact J.append hstep.1 hadmits (O.accepted c rfl).2 (O.start c p rfl rfl)

/-- The accepted grants join what is there. -/
theorem Joins.run (J : a.Joins es) (hrun : a.Run ts b) : b.Joins (es ++ extents ts) := by
  induction hrun generalizing es with
  | nil a =>
    rw [extents, List.filterMap_nil, List.append_nil]
    exact J
  | cons hstep _ ih =>
    rename_i t ts _
    rw [show t :: ts = [t] ++ ts from rfl, extents_append, ← List.append_assoc]
    exact ih (J.step hstep)

/-- After every sequence of attempts to extend an empty arena, whatever its grower answered, the
arena is the concatenation of the accepted grants, with one chunk in each that is in use and in no
list. The next attempt ends in one way. It succeeds exactly where the arena stays short enough and
the grower grants the bytes at a place where the arena begins or goes on, and then the grant is
one more range and the older slots are as before; otherwise the memory is as before, and the error
names the reason. -/
theorem grants_joined {g : G} (hrun : (Arena.empty g).Run ts a) : a.Joins (extents ts) ∧
    ∀ n, 1 ≤ n → ∃ t b, t.units = n ∧ a.Step t b ∧
      (∀ t' b', t'.units = n → a.Step t' b' → t' = t ∧ b' = b) ∧
      a.Outcome t b ∧ b.Joins (extents (ts ++ [t])) := by
  have J := (Joins.empty g).run hrun
  rw [List.nil_append] at J
  refine ⟨J, ?_⟩
  intro n hn
  obtain ⟨t, b, hunits, hstep, O, hunique⟩ := exists_step J.placed hn
  refine ⟨t, b, hunits, hstep, hunique, O, ?_⟩
  rw [extents_append]
  exact J.step hstep

end Runs

/-- A script whose answers are misaligned, good, discontiguous, a refusal, and good again. -/
def mixedScript : Script where
  base := 12288
  capacity := 2048
  cursor := 0
  entries := [.advance 8, .advance (-104), .advance 16, .refuse (.exhausted 7), .advance (-112)]
  calls := #[]
  base_pos := by decide
  stop_lt := by decide

set_option maxRecDepth 100000 in
/-- Two of six attempts succeed, and the one that asks for too much does not reach the script. -/
theorem grants_joined_mixed : ∃ ts a, (Arena.empty mixedScript).Run ts a ∧
    ts.map Attempt.answer = [.error (.misaligned 12296), .ok 0, .error (.discontiguous 12384 12400),
      .error (.exhausted 7), .error (.exhausted Word.top), .ok 6] ∧
    a.grower.calls = #[96, 96, 96, 96, 96] ∧ a.Joins [⟨12288, 4⟩, ⟨12384, 4⟩] ∧
    ∃ t b, t.units = 1 ∧ a.Step t b ∧ b.Joins (extents (ts ++ [t])) := by
  have hplay : ((Arena.empty mixedScript).play [4, 4, 4, 4, Word.top, 4]).map (fun r =>
      (r.1.map Attempt.answer, r.2.grower.calls, extents r.1)) =
      some ([.error (.misaligned 12296), .ok 0, .error (.discontiguous 12384 12400),
        .error (.exhausted 7), .error (.exhausted Word.top), .ok 6], #[96, 96, 96, 96, 96],
        [⟨12288, 4⟩, ⟨12384, 4⟩]) := by
    decide +kernel
  obtain ⟨⟨ts, a⟩, hts, hseen⟩ := Option.map_eq_some_iff.mp hplay
  simp only [Prod.mk.injEq] at hseen
  obtain ⟨hanswers, hcalls, hextents⟩ := hseen
  have hrun := run_of_play hts
  obtain ⟨J, hnext⟩ := grants_joined hrun
  obtain ⟨t, b, hunits, hstep, -, -, J'⟩ := hnext 1 (Nat.le_refl 1)
  exact ⟨ts, a, hrun, hanswers, hcalls, hextents ▸ J, t, b, hunits, hstep, J'⟩

end Arena

end BoundaryTag
