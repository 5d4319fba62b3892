import BoundaryTag.Word

/-!
# Configurations and size classes

A heap files its free chunks by size. The ten ceilings of its configuration
cut the unit counts into eleven classes: bin `i` takes the counts above the
previous ceiling up to its own, and the overflow class takes the rest. The
configuration also fixes how much memory is asked for at least when the arena
grows.

Results:

* `Config.ceilingError?_eq_none_iff` — the scan for a bad ceiling is silent
  exactly when the ceilings ascend strictly from above zero.
* `Config.classOf_mono` — larger chunks are never in lower classes.
-/

namespace BoundaryTag

/-- Number of bins below the overflow class. -/
def binCount : Nat := 10

/-- Number of free lists. -/
def classCount : Nat := 11

/-- A size class: the bins in order, then overflow. -/
abbrev SizeClass := Fin classCount

/-- The class of the chunks above every ceiling. -/
def SizeClass.overflow : SizeClass := Fin.last binCount

/-- Why a configuration is refused. -/
inductive ConfigError where
  | zeroCeiling (index : Nat)
  | descending (index ceiling : Nat)
  | zeroGrowth
  | oversized (units : Nat)
deriving DecidableEq, Repr

/-- The text of a configuration error. -/
def ConfigError.message : ConfigError → String
  | zeroCeiling index => "bin " ++ toString index ++ " has a zero ceiling"
  | descending index ceiling =>
    "bin " ++ toString index ++ " ceiling " ++ toString ceiling ++
      " does not exceed the previous bin"
  | zeroGrowth => "minimum growth must be at least one unit"
  | oversized units => "unit count " ++ toString units ++ " does not fit a chunk"

/-- Tunables of a heap. -/
structure Config where
  /-- The largest unit count of each bin. -/
  ceilings : Vector Nat binCount
  /-- The smallest chunk, in units, asked for when the arena grows. -/
  minGrowth : Nat
  /-- The ceilings are positive and ascend strictly. -/
  ascending : (0 :: ceilings.toList).Pairwise (· < ·)
  minGrowth_pos : 1 ≤ minGrowth
  minGrowth_le : minGrowth ≤ maxUnits - 2
deriving DecidableEq

namespace Config

/-- Hundreds up to a thousand; 16 KiB and two tags at a time. -/
def standard : Config where
  ceilings := #v[100, 200, 300, 400, 500, 600, 700, 800, 900, 1000]
  minGrowth := 1024
  ascending := by decide
  minGrowth_pos := by decide
  minGrowth_le := by decide

instance : Inhabited Config := ⟨standard⟩

/-! ## Acceptance -/

/-- The leftmost ceiling that is zero or not above its predecessor, which is `previous` at first. -/
def ceilingError? (previous index : Nat) : List Nat → Option ConfigError
  | [] => none
  | c :: rest =>
    if c = 0 then some (.zeroCeiling index)
    else if previous < c then ceilingError? c (index + 1) rest
    else some (.descending index c)

theorem ceilingError?_eq_none_iff {previous index : Nat} {l : List Nat} :
    ceilingError? previous index l = none ↔ (previous :: l).Pairwise (· < ·) := by
  induction l generalizing previous index with
  | nil => simp [ceilingError?]
  | cons c rest ih =>
    unfold ceilingError?
    split
    · subst_vars; simp
    · split
      · rename_i hlt
        rw [ih]
        constructor
        · intro h
          refine List.pairwise_cons.2 ⟨fun x hx => ?_, h⟩
          rcases List.mem_cons.1 hx with rfl | hx
          · exact hlt
          · exact Nat.lt_trans hlt ((List.pairwise_cons.1 h).1 x hx)
        · exact fun h => (List.pairwise_cons.1 h).2
      · rename_i hge
        constructor
        · intro h; cases h
        · intro h; exact absurd ((List.pairwise_cons.1 h).1 c (by simp)) hge

/-- A configuration, or the first reason against it: bad ceilings from the left, then the growth. -/
def ofCeilings (ceilings : Vector Nat binCount) (minGrowth : Nat) : Except ConfigError Config :=
  match h : ceilingError? 0 0 ceilings.toList with
  | some e => .error e
  | none =>
    if hz : minGrowth = 0 then .error .zeroGrowth
    else if hm : minGrowth ≤ maxUnits - 2 then
      .ok ⟨ceilings, minGrowth, ceilingError?_eq_none_iff.1 h, by omega, hm⟩
    else .error (.oversized minGrowth)

/-! ## Classification -/

/-- The class of the chunks of `units` units: the first bin whose ceiling admits them. -/
def classOf (config : Config) (units : Nat) : SizeClass :=
  ⟨config.ceilings.toList.findIdx (fun ceiling => units ≤ ceiling), by
    have h : config.ceilings.toList.findIdx (fun ceiling => units ≤ ceiling) ≤ _ :=
      List.findIdx_le_length
    rw [Vector.length_toList] at h
    exact Nat.lt_succ_of_le h⟩

/-- The bin for chunks of `units` units; none when they overflow. -/
def bin? (config : Config) (units : Nat) : Option Nat :=
  let k := config.classOf units
  if k = SizeClass.overflow then none else some k.val

theorem classOf_mono (config : Config) {u v : Nat} (h : u ≤ v) :
    config.classOf u ≤ config.classOf v :=
  List.findIdx_le_findIdx fun c _ hv => by
    simp only [decide_eq_true_eq] at hv ⊢
    exact Nat.le_trans h hv

end Config

end BoundaryTag
