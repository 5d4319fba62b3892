import BoundaryTag.Proofs.LegalUse

/-!
# Usable configurations

Ten ceilings and a least growth make a configuration exactly when the ceilings are
positive and ascend and the growth leaves room for a chunk. Otherwise the error names
the leftmost ceiling that is zero or not above the one before it, and only when there
is none the growth. The ceilings of a configuration cut the unit counts into eleven
classes, one after the other, so a chunk that is large enough for a request is never
in a list below the one where the search for it begins.

Results:

* `Config.ofCeilings_eq_ok_iff`, `Config.ofCeilings_eq_error_iff`: what is accepted,
  and what the errors say.
* `Config.classifies`: the classes of a configuration.
* `Config.usable_iff_and_fits_found`: both, and what they mean for the search in a heap.
-/

namespace BoundaryTag.Config

variable {G : Type} {config : Config} {ceilings : Vector Nat binCount} {minGrowth units : Nat}
  {i j : Fin binCount} {e e' : ConfigError}

/-! ## Refused configurations -/

/-- The ceiling at `i` is zero or not above the one before it. -/
def Offends (ceilings : Vector Nat binCount) (i : Fin binCount) : Prop :=
  ceilings.get i = 0 ∨ ∃ j : Fin binCount, j.val + 1 = i.val ∧ ceilings.get i ≤ ceilings.get j

/-- The ceiling at `i` is the leftmost that offends. -/
def FirstOffence (ceilings : Vector Nat binCount) (i : Fin binCount) : Prop :=
  Offends ceilings i ∧ ∀ j < i, ¬ Offends ceilings j

/-- What is wrong with ten ceilings and a least growth. -/
inductive Refused (ceilings : Vector Nat binCount) (minGrowth : Nat) : ConfigError → Prop
  | zeroCeiling {i : Fin binCount} (first : FirstOffence ceilings i) (zero : ceilings.get i = 0) :
    Refused ceilings minGrowth (.zeroCeiling i)
  | descending {i : Fin binCount} (first : FirstOffence ceilings i) (pos : ceilings.get i ≠ 0) :
    Refused ceilings minGrowth (.descending i (ceilings.get i))
  | zeroGrowth (sound : ∀ i, ¬ Offends ceilings i) (zero : minGrowth = 0) :
    Refused ceilings minGrowth .zeroGrowth
  | oversized (sound : ∀ i, ¬ Offends ceilings i) (big : maxUnits - 2 < minGrowth) :
    Refused ceilings minGrowth (.oversized minGrowth)

theorem FirstOffence.unique (hi : FirstOffence ceilings i) (hj : FirstOffence ceilings j) :
    i = j := by
  rcases lt_trichotomy i j with hlt | heq | hlt
  · exact absurd hi.1 (hj.2 i hlt)
  · exact heq
  · exact absurd hj.1 (hi.2 j hlt)

/-- There is one reason at most. -/
theorem Refused.unique (h : Refused ceilings minGrowth e) (h' : Refused ceilings minGrowth e') :
    e = e' := by
  cases h with
  | zeroCeiling first zero =>
    cases h' with
    | zeroCeiling first' => rw [first.unique first']
    | descending first' pos => rw [first.unique first'] at zero; exact absurd zero pos
    | zeroGrowth sound => exact absurd first.1 (sound _)
    | oversized sound => exact absurd first.1 (sound _)
  | descending first pos =>
    cases h' with
    | zeroCeiling first' zero => rw [← first.unique first'] at zero; exact absurd zero pos
    | descending first' => rw [first.unique first']
    | zeroGrowth sound => exact absurd first.1 (sound _)
    | oversized sound => exact absurd first.1 (sound _)
  | zeroGrowth sound zero =>
    cases h' with
    | zeroCeiling first => exact absurd first.1 (sound _)
    | descending first => exact absurd first.1 (sound _)
    | zeroGrowth => rfl
    | oversized _ big => omega
  | oversized sound big =>
    cases h' with
    | zeroCeiling first => exact absurd first.1 (sound _)
    | descending first => exact absurd first.1 (sound _)
    | zeroGrowth _ zero => omega
    | oversized => rfl

/-! ## The scan of the ceilings -/

/-- Where a scan stops: all before ascends, and the next is zero or not above the last. -/
theorem exists_of_ceilingError? {previous index : Nat} {l : List Nat}
    (h : ceilingError? previous index l = some e) : ∃ before c after,
      l = before ++ c :: after ∧ (previous :: before).Pairwise (· < ·) ∧
        ((c = 0 ∧ e = .zeroCeiling (index + before.length)) ∨
          (c ≠ 0 ∧ c ≤ (before.getLast?).getD previous ∧
            e = .descending (index + before.length) c)) := by
  induction l generalizing previous index with
  | nil => cases h
  | cons c rest ih =>
    unfold ceilingError? at h
    split at h
    · rename_i hzero
      exact ⟨[], c, rest, rfl, by simp, .inl ⟨hzero, by simpa using h.symm⟩⟩
    · rename_i hpos
      split at h
      · rename_i hlt
        obtain ⟨before, d, after, rfl, hasc, hbad⟩ := ih h
        have hasc' : (previous :: c :: before).Pairwise (· < ·) := by
          refine List.pairwise_cons.mpr ⟨fun x hx => ?_, hasc⟩
          rcases List.mem_cons.mp hx with rfl | hx
          · exact hlt
          · exact hlt.trans ((List.pairwise_cons.mp hasc).1 x hx)
        have hplace : index + 1 + before.length = index + (c :: before).length := by
          simp only [List.length_cons]
          omega
        have hlast : (c :: before).getLast?.getD previous = before.getLast?.getD c := by
          cases before <;> simp [List.getLast?_cons]
        rw [hplace, ← hlast] at hbad
        exact ⟨c :: before, d, after, rfl, hasc', hbad⟩
      · rename_i hle
        refine ⟨[], c, rest, rfl, by simp, .inr ⟨hpos, Nat.not_lt.mp hle, ?_⟩⟩
        simpa using h.symm

theorem getElem?_toList (ceilings : Vector Nat binCount) (i : Fin binCount) :
    ceilings.toList[i.val]? = some (ceilings.get i) := by
  have hi : i.val < ceilings.toList.length := by simp
  rw [List.getElem?_eq_getElem hi]
  exact congrArg some (Vector.getElem_toList hi)

theorem ascends_iff : (0 :: ceilings.toList).Pairwise (· < ·) ↔
    (∀ i : Fin binCount, 0 < ceilings.get i) ∧
      ∀ i j : Fin binCount, i < j → ceilings.get i < ceilings.get j := by
  have hget {n : Nat} (hn : n < ceilings.toList.length) :
      ceilings.toList[n] = ceilings.get ⟨n, by simpa using hn⟩ := Vector.getElem_toList hn
  rw [List.pairwise_cons, List.pairwise_iff_getElem]
  refine and_congr ⟨fun h i => h _ ?_, fun h x hx => ?_⟩ ⟨fun h i j hij => ?_, ?_⟩
  · exact Vector.mem_toList_iff.mpr (Vector.getElem_mem i.isLt)
  · obtain ⟨n, hn, rfl⟩ := List.getElem_of_mem hx
    rw [hget hn]
    exact h _
  · have hless := h i j (by simp) (by simp) hij
    rwa [hget, hget] at hless
  · intro h m n hm hn hmn
    rw [hget hm, hget hn]
    exact h _ _ hmn

theorem not_offends_of_ascends (h : (0 :: ceilings.toList).Pairwise (· < ·)) (i : Fin binCount) :
    ¬ Offends ceilings i := by
  obtain ⟨hpos, hlt⟩ := ascends_iff.mp h
  rintro (hzero | ⟨j, hj, hle⟩)
  · exact absurd hzero (hpos i).ne'
  · exact absurd (hlt j i (Fin.lt_def.mpr (by omega))) (Nat.not_lt.mpr hle)

/-- The scan of ten ceilings stops at the leftmost that offends. -/
theorem refused_of_ceilingError? (h : ceilingError? 0 0 ceilings.toList = some e) :
    Refused ceilings minGrowth e := by
  obtain ⟨before, c, after, hsplit, hasc, hbad⟩ := exists_of_ceilingError? h
  have hlength : before.length < binCount := by
    have hten : ceilings.toList.length = binCount := Vector.length_toList
    rw [hsplit, List.length_append, List.length_cons] at hten
    omega
  have hget (j : Fin binCount) : (before ++ c :: after)[j.val]? = some (ceilings.get j) := by
    rw [← hsplit]
    exact getElem?_toList ceilings j
  let i : Fin binCount := ⟨before.length, hlength⟩
  have hc : ceilings.get i = c := by simpa [i] using (hget i).symm
  have hbefore (j : Fin binCount) (hj : j.val < before.length) : ceilings.get j = before[j.val] := by
    have := hget j
    rw [List.getElem?_append_left hj, List.getElem?_eq_getElem hj] at this
    exact (Option.some.inj this).symm
  obtain ⟨hpos, hasc⟩ := List.pairwise_cons.mp hasc
  have hclean : ∀ j < i, ¬ Offends ceilings j := by
    intro j hj
    have hj' : j.val < before.length := hj
    have hjc := hbefore j hj'
    rintro (hzero | ⟨m, hm, hle⟩)
    · have := hpos _ (List.getElem_mem hj')
      omega
    · have hmc := hbefore m (by omega)
      have := List.pairwise_iff_getElem.mp hasc m j (by omega) hj' (by omega)
      omega
  rw [Nat.zero_add] at hbad
  rcases hbad with ⟨hzero, rfl⟩ | ⟨hne, hle, rfl⟩
  · exact Refused.zeroCeiling (i := i) ⟨.inl (hc.trans hzero), hclean⟩ (hc.trans hzero)
  · have hoffends : Offends ceilings i := by
      rcases List.eq_nil_or_concat' before with rfl | ⟨init, d, rfl⟩
      · exact absurd (Nat.le_zero.mp (by simpa using hle)) hne
      · let j : Fin binCount := ⟨init.length, by simp at hlength; omega⟩
        have hd : ceilings.get j = d := by
          rw [hbefore j (by simp [j])]
          simp [j]
        refine .inr ⟨j, by simp [i, j], ?_⟩
        rw [hc, hd]
        simpa using hle
    have hrefused : Refused ceilings minGrowth (.descending i (ceilings.get i)) :=
      .descending ⟨hoffends, hclean⟩ (hc ▸ hne)
    rwa [hc] at hrefused

/-! ## Acceptance -/

/-- What is accepted is kept as it is. -/
theorem ofCeilings_eq_ok_iff : ofCeilings ceilings minGrowth = .ok config ↔
    config.ceilings = ceilings ∧ config.minGrowth = minGrowth := by
  obtain ⟨ceilings', minGrowth', hasc, hpos, hle⟩ := config
  unfold ofCeilings
  constructor
  · intro h
    split at h
    · cases h
    · split at h
      · cases h
      · split at h
        · cases h
          exact ⟨rfl, rfl⟩
        · cases h
  · rintro ⟨rfl, rfl⟩
    split
    · rename_i herror
      rw [ceilingError?_eq_none_iff.mpr hasc] at herror
      cases herror
    · rw [dif_neg (by simp only; omega), dif_pos hle]

/-- The errors and their reasons. -/
theorem ofCeilings_eq_error_iff :
    ofCeilings ceilings minGrowth = .error e ↔ Refused ceilings minGrowth e := by
  have hreason {e : ConfigError} (h : ofCeilings ceilings minGrowth = .error e) :
      Refused ceilings minGrowth e := by
    unfold ofCeilings at h
    split at h
    · rename_i hscan
      cases h
      exact refused_of_ceilingError? hscan
    · rename_i hscan
      have hsound := not_offends_of_ascends (ceilingError?_eq_none_iff.mp hscan)
      split at h
      · rename_i hzero
        cases h
        exact .zeroGrowth hsound hzero
      · split at h
        · cases h
        · rename_i hbig
          cases h
          exact .oversized hsound (Nat.not_le.mp hbig)
  refine ⟨hreason, fun hrefused => ?_⟩
  cases hresult : ofCeilings ceilings minGrowth with
  | error e' => rw [(hreason hresult).unique hrefused]
  | ok config =>
    obtain ⟨rfl, rfl⟩ := ofCeilings_eq_ok_iff.mp hresult
    have hsound := not_offends_of_ascends config.ascending
    have hpos := config.minGrowth_pos
    have hle := config.minGrowth_le
    cases hrefused with
    | zeroCeiling first => exact absurd first.1 (hsound _)
    | descending first => exact absurd first.1 (hsound _)
    | zeroGrowth _ zero => omega
    | oversized _ big => omega

/-- The usable ceilings and growths. -/
theorem exists_ofCeilings_eq_ok_iff : (∃ config, ofCeilings ceilings minGrowth = .ok config) ↔
    (∀ i : Fin binCount, 0 < ceilings.get i) ∧
      (∀ i j : Fin binCount, i < j → ceilings.get i < ceilings.get j) ∧
        1 ≤ minGrowth ∧ minGrowth ≤ maxUnits - 2 := by
  simp only [ofCeilings_eq_ok_iff]
  constructor
  · rintro ⟨config, rfl, rfl⟩
    obtain ⟨hpos, hlt⟩ := ascends_iff.mp config.ascending
    exact ⟨hpos, hlt, config.minGrowth_pos, config.minGrowth_le⟩
  · rintro ⟨hpos, hlt, hone, hle⟩
    exact ⟨⟨ceilings, minGrowth, ascends_iff.mpr ⟨hpos, hlt⟩, hone, hle⟩, rfl, rfl⟩

/-! ## Classes -/

/-- A class takes the counts above the previous ceiling and up to its own. The lowest class has no
ceiling before it, and overflow none of its own. -/
theorem classOf_eq_iff {k : SizeClass} : config.classOf units = k ↔
    (∀ j : Fin binCount, j.val + 1 = k.val → config.ceiling j < units) ∧
      ∀ j : Fin binCount, j.val = k.val → units ≤ config.ceiling j := by
  have hlt := fun j => config.lt_classOf_iff j units
  constructor
  · rintro rfl
    refine ⟨fun j hj => (hlt j).mp (by omega), fun j hj => ?_⟩
    by_contra hle
    have := (hlt j).mpr (Nat.not_le.mp hle)
    omega
  · rintro ⟨hbelow, habove⟩
    have hk : k.val ≤ binCount := Nat.le_of_lt_succ k.isLt
    have hclass : (config.classOf units).val ≤ binCount :=
      Nat.le_of_lt_succ (config.classOf units).isLt
    apply Fin.ext
    rcases lt_trichotomy (config.classOf units).val k.val with hless | heq | hless
    · let j : Fin binCount := ⟨k.val - 1, by omega⟩
      have := (hlt j).mpr (hbelow j (by simp only [j]; omega))
      simp only [j] at this
      omega
    · exact heq
    · let j : Fin binCount := ⟨k.val, by omega⟩
      have := (hlt j).mp hless
      have := habove j rfl
      omega

/-- The classes of a configuration follow one another. -/
structure Classifies (config : Config) : Prop where
  /-- A bin takes the counts above the previous ceiling and up to its own. -/
  bin : ∀ units (i : Fin binCount), config.bin? units = some i.val ↔
    (∀ j : Fin binCount, j.val + 1 = i.val → config.ceiling j < units) ∧
      units ≤ config.ceiling i
  /-- The other counts overflow. -/
  overflow : ∀ units, config.bin? units = none ↔ ∀ i : Fin binCount, config.ceiling i < units
  /-- The class of a count is the number of its bin, and ten without a bin. -/
  number : ∀ units, (config.classOf units).val = (config.bin? units).getD binCount
  mono : ∀ u v, u ≤ v → config.classOf u ≤ config.classOf v
  greatest : ∀ units, config.classOf units ≤ SizeClass.overflow

theorem bin?_eq_none_iff :
    config.bin? units = none ↔ config.classOf units = SizeClass.overflow := by
  unfold bin?
  simp

theorem bin?_eq_some_iff : config.bin? units = some i.val ↔ (config.classOf units).val = i.val := by
  have hi := i.isLt
  unfold bin?
  simp only
  split
  · rename_i hover
    rw [hover]
    exact iff_of_false (by simp) (by simp [SizeClass.overflow]; omega)
  · simp

theorem classifies (config : Config) : config.Classifies where
  bin units i := by
    let k : SizeClass := ⟨i.val, Nat.lt_succ_of_lt i.isLt⟩
    have hclass : (config.classOf units).val = i.val ↔ config.classOf units = k :=
      ⟨fun h => Fin.ext h, fun h => congrArg Fin.val h⟩
    rw [bin?_eq_some_iff, hclass, classOf_eq_iff]
    refine and_congr Iff.rfl ⟨fun h => h i rfl, fun h j hj => ?_⟩
    rw [Fin.ext (show j.val = i.val from hj)]
    exact h
  overflow units := by
    rw [bin?_eq_none_iff]
    constructor
    · intro hover i
      exact (config.lt_classOf_iff i units).mp (by rw [hover]; exact i.isLt)
    · intro h
      exact classOf_eq_iff.mpr ⟨fun j _ => h j, fun j hj => absurd hj (Nat.ne_of_lt j.isLt)⟩
  number units := by
    unfold bin?
    simp only
    split
    · rename_i hover
      rw [hover]
      rfl
    · rfl
  mono _ _ := config.classOf_mono
  greatest _ := Fin.le_last _

/-! ## The search -/

/-- Exactly the usable ceilings and growths are accepted, and an error names the leftmost bad
ceiling, or the growth when the ceilings are sound. What is accepted has eleven classes, one after
the other, and in a heap with its lists the search for some units begins at their class and meets
every free chunk of so many units, so it only ends without a chunk when there is none. -/
theorem usable_iff_and_fits_found (ceilings : Vector Nat binCount) (minGrowth : Nat) :
    ((∃ config, ofCeilings ceilings minGrowth = .ok config) ↔
      (∀ i : Fin binCount, 0 < ceilings.get i) ∧
        (∀ i j : Fin binCount, i < j → ceilings.get i < ceilings.get j) ∧
          1 ≤ minGrowth ∧ minGrowth ≤ 2 ^ 32 - 3) ∧
    (∀ e, ofCeilings ceilings minGrowth = .error e ↔ Refused ceilings minGrowth e) ∧
    ∀ config, ofCeilings ceilings minGrowth = .ok config →
      config.ceilings = ceilings ∧ config.minGrowth = minGrowth ∧ config.Classifies ∧
      ∀ {G : Type} (h : Heap G) (chunks : List Chunk) (lists : FreeLists),
        h.WellFormed chunks lists → h.config = config →
          ∀ units, (h.searchOrder units).head? = some (config.classOf units) ∧
            (∀ k, k ∈ h.searchOrder units ↔ config.classOf units ≤ k) ∧
            (∀ c ∈ chunks, c.isFree → units ≤ c.units →
              ∃ k ∈ h.searchOrder units, config.classOf units ≤ k ∧ c ∈ lists k) ∧
            (h.firstFit units = .ok none ↔ ∀ c ∈ chunks, c.isFree → c.units < units) := by
  refine ⟨exists_ofCeilings_eq_ok_iff, fun e => ofCeilings_eq_error_iff, fun config hok => ?_⟩
  obtain ⟨hceilings, hgrowth⟩ := ofCeilings_eq_ok_iff.mp hok
  refine ⟨hceilings, hgrowth, config.classifies, ?_⟩
  rintro G h chunks lists W rfl units
  have hmem (k : SizeClass) : k ∈ h.searchOrder units ↔ h.config.classOf units ≤ k :=
    mem_classesFrom
  refine ⟨?_, hmem, fun c hc hfree hle => ?_, ?_⟩
  · unfold Heap.searchOrder
    rw [List.head?_drop]
    simp
  · have hclass := h.config.classOf_mono hle
    exact ⟨_, (hmem _).mpr hclass, hclass, W.filed.mem_iff.mpr ⟨hc, hfree, rfl⟩⟩
  · rw [W.firstFit_eq, ← choice_eq_none_iff W.filed]
    simp

set_option maxRecDepth 100000 in
/-- The bins for the first ten sizes are usable, and a free chunk of four units is on the way of a
search for two. Equal ceilings come before a zero further up and before a growth of zero. -/
theorem usable_and_fits_found_small :
    (∃ config, ofCeilings #v[1, 2, 3, 4, 5, 6, 7, 8, 9, 10] 4 = .ok config ∧ config.Classifies ∧
      ∃ (s : Session Region) (chunks : List Chunk) (lists : FreeLists),
        s.heap.WellFormed chunks lists ∧ s.heap.config = config ∧
          ∃ c ∈ chunks, c.isFree ∧ 4 ≤ c.units ∧
            ∃ k ∈ s.heap.searchOrder 2, config.classOf 2 ≤ k ∧ c ∈ lists k) ∧
    Refused #v[3, 3, 0, 4, 5, 6, 7, 8, 9, 10] 0 (.descending 1 3) := by
  have hplay : ((Session.start Session.smallBins Session.smallBuffer).play [.allocate 20,
      .allocate 5, .allocate 40, .release 4256]).map (fun s => (s.heap.firstFit 4).toOption) =
      some (some (some 6)) := by
    decide +kernel
  obtain ⟨s, hreach, hfit⟩ := Session.exists_reachable_of_play hplay
  obtain ⟨chunks, lists, S, hconfig⟩ := Session.sound_of_reachable hreach
  have W := S.wellFormed
  rw [W.firstFit_eq] at hfit
  obtain ⟨c, hchoice, -⟩ := Option.map_eq_some_iff.mp (Option.some.inj hfit)
  obtain ⟨hmem, hfree, hle⟩ := mem_of_choice W.filed hchoice
  have hok : ofCeilings #v[1, 2, 3, 4, 5, 6, 7, 8, 9, 10] 4 = .ok Session.smallBins :=
    ofCeilings_eq_ok_iff.mpr ⟨rfl, rfl⟩
  obtain ⟨-, -, haccepted⟩ := usable_iff_and_fits_found #v[1, 2, 3, 4, 5, 6, 7, 8, 9, 10] 4
  obtain ⟨-, -, hclasses, hsearch⟩ := haccepted _ hok
  obtain ⟨-, -, hfound, -⟩ := hsearch s.heap chunks lists W hconfig 2
  obtain ⟨-, herrors, -⟩ := usable_iff_and_fits_found #v[3, 3, 0, 4, 5, 6, 7, 8, 9, 10] 0
  exact ⟨⟨_, hok, hclasses, s, chunks, lists, W, hconfig, c, hmem, hfree, hle,
    hfound c hmem hfree (Nat.le_trans (by decide) hle)⟩, (herrors _).mp (by decide +kernel)⟩

end BoundaryTag.Config
