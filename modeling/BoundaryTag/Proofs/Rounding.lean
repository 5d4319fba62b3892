import BoundaryTag.Rounding
import Mathlib.Algebra.Order.Floor.Div
import Mathlib.Tactic

/-!
# Two ways to round

A size is rounded up to a multiple by clearing low bits, and counted in units by a
division. For a step that is a power of two both lead to the least multiple from the
size on. They leave the words at different places, since they raise the size by
different amounts first: the count by the step less one, which is as much as can be
rounded away, and the multiple by the whole step, of which one is taken back too late.
So the count is refused exactly where the least multiple is no word. The multiple is
refused there as well, and at one size more: the last multiple that is a word, which
needs no rounding.

Results:

* `maskOut_low`: clearing the low bits is rounding down.
* `alignUp_eq`, `sizeToUnits_eq`: what each way gives, and where it leaves the words.
* `roundings_agree`: how they compare at every size and step; `alignUp_last_multiple`:
  where they do not.
-/

namespace BoundaryTag

variable {a k : Nat}

/-! ## Multiples -/

/-- The rounded quotient leads to the least multiple. -/
theorem isLeast_mul_ceilDiv {t : Nat} (ht : 0 < t) (v : Nat) :
    IsLeast {n | v ≤ n ∧ t ∣ n} (t * (v ⌈/⌉ t)) := by
  refine ⟨⟨?_, Nat.dvd_mul_right _ _⟩, ?_⟩
  · exact le_smul_ceilDiv ht
  · rintro _ ⟨hle, q, rfl⟩
    exact Nat.mul_le_mul_left t ((ceilDiv_le_iff_le_mul ht).mpr hle)

/-- Less than a step is rounded away. -/
theorem mul_ceilDiv_lt {t : Nat} (ht : 0 < t) (v : Nat) : t * (v ⌈/⌉ t) < v + t := by
  rw [Nat.ceilDiv_eq_add_pred_div]
  have := Nat.mul_div_le (v + t - 1) t
  omega

/-- A multiple of a power of two that is a word leaves room for one step more. -/
theorem add_le_limit {q : Nat} (hk : k < 64) (h : 2 ^ k * q < Word.limit) :
    2 ^ k * q + 2 ^ k ≤ Word.limit := by
  have hlimit : Word.limit = 2 ^ k * 2 ^ (64 - k) := by
    rw [← pow_add, Nat.add_sub_cancel' (Nat.le_of_lt hk)]
    rfl
  rw [hlimit] at h ⊢
  rw [← Nat.mul_succ]
  exact Nat.mul_le_mul_left _ (Nat.lt_of_mul_lt_mul_left h)

/-! ## Clearing bits -/

/-- Without its low bits a word is rounded down. -/
theorem maskOut_low (ha : a < Word.limit) : maskOut a (2 ^ k - 1) = 2 ^ k * (a / 2 ^ k) := by
  have hlimit : Word.limit = 2 ^ 64 := rfl
  have htop : Word.top = 2 ^ 64 - 1 := rfl
  rw [hlimit] at ha
  unfold maskOut
  rw [htop]
  refine Nat.eq_of_testBit_eq fun i => ?_
  rw [Nat.testBit_and, Nat.testBit_xor, Nat.testBit_two_pow_sub_one, Nat.testBit_two_pow_sub_one,
    Nat.testBit_two_pow_mul, Nat.testBit_div_two_pow]
  by_cases hi : i < 64
  · by_cases hki : i < k
    · have : ¬k ≤ i := by omega
      simp [hi, hki, this]
    · have hle : k ≤ i := by omega
      simp [hi, hki, hle]
  · -- above the words there is nothing to clear
    have hpow : 2 ^ 64 ≤ 2 ^ i := Nat.pow_le_pow_right (by omega) (by omega)
    have hzero : a.testBit i = false := Nat.testBit_lt_two_pow (by omega)
    by_cases hki : k ≤ i <;> simp [hzero, hki]

/-! ## The two ways -/

/-- Rounding by clearing bits leaves the words when the step is added. -/
theorem alignUp_eq (v k : Nat) : alignUp v (2 ^ k) =
    if v + 2 ^ k < Word.limit then .ok (2 ^ k * (v ⌈/⌉ 2 ^ k)) else .error .addOverflow := by
  have hpos : 0 < 2 ^ k := Nat.two_pow_pos k
  unfold alignUp
  split_ifs with h
  · rw [Word.add_eq_ok h]
    simp only [bind, Except.bind]
    rw [Word.sub_eq_ok (by omega), Word.sub_eq_ok (by omega), Nat.ceilDiv_eq_add_pred_div,
      ← maskOut_low (show v + 2 ^ k - 1 < Word.limit by omega)]
    rfl
  · rw [Word.add, if_neg h]
    rfl

/-- Counting units leaves the words when the step less one is added. -/
theorem sizeToUnits_eq {t : Nat} (ht : 0 < t) (v : Nat) : sizeToUnits v t =
    .ok (if v + t ≤ Word.limit then some (v ⌈/⌉ t) else none) := by
  unfold sizeToUnits
  rw [Word.sub_eq_ok ht, Nat.ceilDiv_eq_add_pred_div, Nat.add_sub_assoc ht]
  simp only [bind, Except.bind, pure, Except.pure]
  by_cases h : v + t ≤ Word.limit
  · rw [if_pos h, if_pos (by omega)]
  · rw [if_neg h, if_neg (by omega)]

/-! ## The comparison -/

/-- Round a size up to a power of two. When the least multiple from the size on is a word, the count
of units is that multiple divided by the step, and clearing bits leads to it, except from the last
multiple of all: there the step is added before anything is taken back. When it is no word, there is
no count, and clearing bits is a fault. -/
theorem roundings_agree (hk : k < 64) (v : Nat) :
    ∃ m, IsLeast {n | v ≤ n ∧ 2 ^ k ∣ n} m ∧
      (m < Word.limit → ∃ q, m = 2 ^ k * q ∧ sizeToUnits v (2 ^ k) = .ok (some q) ∧
        (v + 2 ^ k ≠ Word.limit → alignUp v (2 ^ k) = .ok m) ∧
        (v + 2 ^ k = Word.limit → m = v ∧ alignUp v (2 ^ k) = .error .addOverflow)) ∧
      (Word.limit ≤ m →
        sizeToUnits v (2 ^ k) = .ok none ∧ alignUp v (2 ^ k) = .error .addOverflow) := by
  have hpos : 0 < 2 ^ k := Nat.two_pow_pos k
  have hleast := isLeast_mul_ceilDiv hpos v
  have hle : v ≤ 2 ^ k * (v ⌈/⌉ 2 ^ k) := hleast.1.1
  have hlt := mul_ceilDiv_lt hpos v
  refine ⟨_, hleast, fun hword => ?_, fun hword => ?_⟩
  · have hroom := add_le_limit hk hword
    refine ⟨_, rfl, ?_, fun hne => ?_, fun heq => ⟨by omega, ?_⟩⟩
    · rw [sizeToUnits_eq hpos, if_pos (by omega)]
    · rw [alignUp_eq, if_pos (by omega)]
    · rw [alignUp_eq, if_neg (by omega)]
  · constructor
    · rw [sizeToUnits_eq hpos, if_neg (by omega)]
    · rw [alignUp_eq, if_neg (by omega)]

/-- With steps of 16: a size below the second to last multiple that is a word, and one above the
last. -/
theorem roundings_agree_high : 4 < 64 ∧
    (alignUp 0xFFFFFFFFFFFFFFD1 16 = .ok 0xFFFFFFFFFFFFFFE0 ∧
      sizeToUnits 0xFFFFFFFFFFFFFFD1 16 = .ok (some 0xFFFFFFFFFFFFFFE)) ∧
    alignUp 0xFFFFFFFFFFFFFFF1 16 = .error .addOverflow ∧
      sizeToUnits 0xFFFFFFFFFFFFFFF1 16 = .ok none := by
  have hk : 4 < 64 := by decide
  refine ⟨hk, ?below, ?above⟩
  case below =>
    obtain ⟨m, hleast, hword, -⟩ := roundings_agree hk 0xFFFFFFFFFFFFFFD1
    have hge : 0xFFFFFFFFFFFFFFD1 ≤ m := hleast.1.1
    have hdvd : 2 ^ 4 ∣ m := hleast.1.2
    have hle : m ≤ 0xFFFFFFFFFFFFFFE0 := hleast.2 ⟨by decide, by decide⟩
    obtain rfl : m = 0xFFFFFFFFFFFFFFE0 := by omega
    obtain ⟨q, hq, hcount, halign, -⟩ := hword (by decide)
    obtain rfl : q = 0xFFFFFFFFFFFFFFE := by omega
    exact ⟨halign (by decide), hcount⟩
  case above =>
    obtain ⟨m, hleast, -, hnone⟩ := roundings_agree hk 0xFFFFFFFFFFFFFFF1
    have hge : 0xFFFFFFFFFFFFFFF1 ≤ m := hleast.1.1
    have hdvd : 2 ^ 4 ∣ m := hleast.1.2
    have hlimit : Word.limit = 0x10000000000000000 := rfl
    obtain ⟨hcount, halign⟩ := hnone (by omega)
    exact ⟨halign, hcount⟩

/-- The last multiple of 16 that is a word is its own least multiple, and is counted as such.
Clearing bits is a fault there. -/
theorem alignUp_last_multiple :
    IsLeast {n | 0xFFFFFFFFFFFFFFF0 ≤ n ∧ 2 ^ 4 ∣ n} 0xFFFFFFFFFFFFFFF0 ∧
      0xFFFFFFFFFFFFFFF0 < Word.limit ∧
      sizeToUnits 0xFFFFFFFFFFFFFFF0 16 = .ok (some 0xFFFFFFFFFFFFFFF) ∧
      alignUp 0xFFFFFFFFFFFFFFF0 16 = .error .addOverflow :=
  ⟨⟨⟨Nat.le_refl _, by decide⟩, fun _ h => h.1⟩, by decide, rfl, rfl⟩

end BoundaryTag
