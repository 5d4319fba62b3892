import BoundaryTag.Proofs.Settled

/-!
# The choice of a free chunk

The search for a free chunk of a given size begins with the class of that size and
goes upwards, each list from its front. Classes grow with sizes, so no list below
holds a chunk that is large enough, and what is found is in the lowest list that
holds one.

Results:

* `Config.lt_classOf_iff`: the class of a size, by the ceilings.
* `choice_eq_none_iff`: the search misses nothing.
* `choice_eq_some_iff`, `classOf_le_of_choice`, `index_le_of_choice`: what is found
  comes first in its list, in the lowest list, and in the overflow list lowest.
-/

namespace BoundaryTag

variable {config : Config} {chunks : List Chunk} {lists : FreeLists} {c d : Chunk} {k : SizeClass}
  {n : Nat}

/-! ## Classes -/

namespace Config

/-- The most units that a chunk in a bin may have. -/
def ceiling (config : Config) (j : Fin binCount) : Nat := config.ceilings[j]

/-- The class of a size lies above the bins whose ceilings the size exceeds, and above no other. -/
theorem lt_classOf_iff (config : Config) (j : Fin binCount) (n : Nat) :
    j.val < (config.classOf n).val ↔ config.ceiling j < n := by
  unfold ceiling
  have hceilings := (List.pairwise_cons.mp config.ascending).2
  constructor
  · intro hlt
    have hmiss := List.not_of_lt_findIdx (p := fun ceiling => decide (n ≤ ceiling)) hlt
    simpa using hmiss
  · intro hlt
    by_contra hle
    have hlength : config.ceilings.toList.length = binCount := Vector.length_toList
    have hfirst : (config.classOf n).val ≤ j.val := Nat.not_lt.mp hle
    have hin : (config.classOf n).val < config.ceilings.toList.length := by omega
    have hfit := List.findIdx_getElem (p := fun ceiling => decide (n ≤ ceiling)) (w := hin)
    have hbelow : n ≤ config.ceilings.toList[(config.classOf n).val] := of_decide_eq_true hfit
    have hmono : config.ceilings.toList[(config.classOf n).val] ≤ config.ceilings[j] := by
      rcases Nat.eq_or_lt_of_le hfirst with heq | hfirst
      · simp [heq]
      · have hj : j.val < config.ceilings.toList.length := by omega
        have hless := List.pairwise_iff_getElem.mp hceilings _ _ hin hj hfirst
        exact Nat.le_of_lt (by simpa using hless)
    omega

/-- The classes whose chunks may have `n` units, from the lowest upwards. -/
def classesFrom (config : Config) (n : Nat) : List SizeClass :=
  (List.finRange classCount).drop (config.classOf n).val

theorem mem_classesFrom : k ∈ config.classesFrom n ↔ config.classOf n ≤ k := by
  unfold classesFrom
  rw [List.mem_drop_iff_getElem]
  constructor
  · rintro ⟨j, hj, rfl⟩
    simp [Fin.le_def]
  · intro hle
    have hk := k.isLt
    rw [Fin.le_def] at hle
    refine ⟨k.val - (config.classOf n).val, by simp; omega, ?_⟩
    ext
    simp
    omega

theorem pairwise_classesFrom (config : Config) (n : Nat) :
    (config.classesFrom n).Pairwise (· < ·) :=
  (List.pairwise_lt_finRange _).drop

/-- The chunk that a search for `n` units ends at. -/
def choice (config : Config) (lists : FreeLists) (n : Nat) : Option Chunk :=
  ((config.classesFrom n).flatMap lists).find? fun c => n ≤ c.units

end Config

/-! ## What is found -/

/-- Chunks of at least `n` units are in the classes of `n` and above. -/
theorem Filed.mem_classesFrom (F : Filed config chunks lists) (hd : d ∈ lists k)
    (hle : n ≤ d.units) : k ∈ config.classesFrom n := by
  obtain ⟨-, -, rfl⟩ := F.mem_iff.mp hd
  exact Config.mem_classesFrom.mpr (config.classOf_mono hle)

/-- The search finds nothing exactly when no free chunk is large enough. -/
theorem choice_eq_none_iff (F : Filed config chunks lists) :
    config.choice lists n = none ↔ ∀ c ∈ chunks, c.isFree → c.units < n := by
  unfold Config.choice
  rw [List.find?_eq_none]
  constructor
  · intro hmiss c hc hfree
    by_contra hle
    rw [Nat.not_lt] at hle
    have hlisted : c ∈ lists (config.classOf c.units) := F.mem_iff.mpr ⟨hc, hfree, rfl⟩
    have hmem := List.mem_flatMap.mpr ⟨_, F.mem_classesFrom hlisted hle, hlisted⟩
    exact hmiss c hmem (by simpa using hle)
  · intro hsmall c hc
    obtain ⟨k, -, hlisted⟩ := List.mem_flatMap.mp hc
    obtain ⟨hmem, hfree, -⟩ := F.mem_iff.mp hlisted
    simpa using hsmall c hmem hfree

/-- What is found is the first in its list that is large enough, and no lower list has one. -/
theorem choice_eq_some_iff (F : Filed config chunks lists) :
    config.choice lists n = some c ↔
      ((lists (config.classOf c.units)).find? fun d => n ≤ d.units) = some c ∧
        ∀ k < config.classOf c.units, ∀ d ∈ lists k, d.units < n := by
  unfold Config.choice
  rw [List.find?_flatMap, List.findSome?_eq_some_iff]
  have hsorted := config.pairwise_classesFrom n
  constructor
  · rintro ⟨below, k, above, horder, hfound, hmiss⟩
    obtain ⟨-, -, rfl⟩ := F.mem_iff.mp (List.mem_of_find?_eq_some hfound)
    refine ⟨hfound, ?_⟩
    intro k hk d hd
    by_contra hle
    rw [Nat.not_lt] at hle
    have hmem := F.mem_classesFrom hd hle
    rw [horder] at hmem hsorted
    have hbelow : k ∈ below := by
      rcases List.mem_append.mp hmem with hbelow | habove
      · exact hbelow
      · rcases List.mem_cons.mp habove with rfl | habove
        · exact absurd hk (lt_irrefl _)
        · have hlater := (List.pairwise_cons.mp (List.pairwise_append.mp hsorted).2.1).1 k habove
          exact absurd hk (lt_asymm hlater)
    exact List.find?_eq_none.mp (hmiss k hbelow) d hd (by simpa using hle)
  · rintro ⟨hfound, hlower⟩
    have hle : n ≤ c.units := by simpa using List.find?_some hfound
    obtain ⟨below, above, horder⟩ := List.append_of_mem
      (F.mem_classesFrom (List.mem_of_find?_eq_some hfound) hle)
    refine ⟨below, _, above, horder, hfound, ?_⟩
    intro k hk
    rw [horder] at hsorted
    have hlt := (List.pairwise_append.mp hsorted).2.2 k hk _ (List.mem_cons_self ..)
    refine List.find?_eq_none.mpr fun d hd => ?_
    simpa using hlower k hlt d hd

section Chosen

variable (F : Filed config chunks lists) (h : config.choice lists n = some c)

include F h

theorem mem_of_choice : c ∈ chunks ∧ c.isFree ∧ n ≤ c.units := by
  have hfound := ((choice_eq_some_iff F).mp h).1
  obtain ⟨hmem, hfree, -⟩ := F.mem_iff.mp (List.mem_of_find?_eq_some hfound)
  exact ⟨hmem, hfree, by simpa using List.find?_some hfound⟩

/-- No chunk of a lower class is large enough. -/
theorem classOf_le_of_choice (hd : d ∈ chunks) (hfree : d.isFree) (hle : n ≤ d.units) :
    config.classOf c.units ≤ config.classOf d.units := by
  by_contra hlt
  have hsmall := ((choice_eq_some_iff F).mp h).2 _ (not_le.mp hlt) d
    (F.mem_iff.mpr ⟨hd, hfree, rfl⟩)
  omega

/-- In the overflow list no chunk that lies lower is large enough. -/
theorem index_le_of_choice (hasc : Ascending chunks)
    (hover : config.classOf c.units = SizeClass.overflow) (hd : d ∈ chunks) (hfree : d.isFree)
    (hle : n ≤ d.units) : c.index ≤ d.index := by
  have hclass : config.classOf d.units = SizeClass.overflow :=
    Fin.last_le_iff.mp (hover.ge.trans (classOf_le_of_choice F h hd hfree hle))
  have hfound := ((choice_eq_some_iff F).mp h).1
  rw [hover] at hfound
  obtain ⟨-, before, after, hlist, hmiss⟩ := List.find?_eq_some_iff_append.mp hfound
  have hsorted : (lists SizeClass.overflow).Pairwise fun c d => c.index < d.index := by
    rw [F.ordered]
    exact hasc.pairwise_index.filter _
  have hdl : d ∈ lists SizeClass.overflow := F.mem_iff.mpr ⟨hd, hfree, hclass⟩
  rw [hlist] at hdl hsorted
  rcases List.mem_append.mp hdl with hbefore | hafter
  · have hsmall := hmiss d hbefore
    simp only [Bool.not_eq_true', decide_eq_false_iff_not] at hsmall
    exact absurd hle hsmall
  · rcases List.mem_cons.mp hafter with rfl | hafter
    · exact Nat.le_refl _
    · exact Nat.le_of_lt ((List.pairwise_cons.mp (List.pairwise_append.mp hsorted).2.1).1 d hafter)

end Chosen

/-- A free chunk is found if no other is large enough. -/
theorem choice_of_unique (F : Filed config chunks lists) (hc : c ∈ chunks) (hfree : c.isFree)
    (hle : n ≤ c.units) (honly : ∀ d ∈ chunks, d.isFree → n ≤ d.units → d = c) :
    config.choice lists n = some c := by
  cases hchoice : config.choice lists n with
  | none =>
    have hsmall := (choice_eq_none_iff F).mp hchoice c hc hfree
    omega
  | some d =>
    obtain ⟨hd, hfree', hle'⟩ := mem_of_choice F hchoice
    rw [honly d hd hfree' hle']

end BoundaryTag
