/-!
# Base-256 digits

The bytes of a word are its digits in base 256. A digit is read with a
division and replaced without touching the others.

Results:

* `digit_setDigit_self`, `digit_setDigit_ne` — a replaced digit reads back
  and the others stay.
* `setDigit_lt` — a number of `m` digits keeps `m` digits.
-/

namespace BoundaryTag

/-- What a one in the `k`-th place is worth. -/
def weight : Nat → Nat
  | 0 => 1
  | k + 1 => weight k * 256

/-- The `k`-th base-256 digit of `n`, counted from the least significant. -/
def digit (n k : Nat) : Nat := n / weight k % 256

/-- The number `n` with its `k`-th base-256 digit replaced by `b`. -/
def setDigit (n k b : Nat) : Nat :=
  n / weight (k + 1) * weight (k + 1) + b * weight k + n % weight k

theorem weight_succ (k : Nat) : weight (k + 1) = weight k * 256 := rfl

theorem weight_pos (k : Nat) : 0 < weight k := by
  induction k with
  | zero => exact Nat.one_pos
  | succ k ih => exact Nat.mul_pos ih (by decide)

theorem weight_add (j k : Nat) : weight (j + k) = weight j * weight k := by
  induction k with
  | zero => exact (Nat.mul_one _).symm
  | succ k ih => rw [← Nat.add_assoc, weight_succ, weight_succ, ih, Nat.mul_assoc]

/-- A digit below the `m`-th does not see what stands from the `m`-th on. -/
theorem digit_add_low (r q j d : Nat) : digit (r + weight (j + 1 + d) * q) j = digit r j := by
  have hk : weight (j + 1 + d) * q = weight j * (256 * (weight d * q)) := by
    rw [weight_add, weight_succ, Nat.mul_assoc, Nat.mul_assoc]
  unfold digit
  rw [hk, Nat.add_mul_div_left _ _ (weight_pos j), Nat.add_mul_mod_self_left]

/-- A digit from the `k`-th on does not see what stands below. -/
theorem digit_add_high {r k : Nat} (hr : r < weight k) (q i : Nat) :
    digit (r + weight k * q) (k + i) = digit q i := by
  unfold digit
  rw [weight_add, ← Nat.div_div_eq_div_mul, Nat.add_mul_div_left _ _ (weight_pos k),
    Nat.div_eq_of_lt hr, Nat.zero_add]

theorem digit_succ (n i : Nat) : digit n (i + 1) = digit (n / 256) i := by
  unfold digit
  rw [weight_succ, Nat.mul_comm, Nat.div_div_eq_div_mul]

theorem setDigit_eq (n k b : Nat) :
    setDigit n k b = n % weight k + weight k * (n / weight k / 256 * 256 + b) := by
  have hq : n / weight (k + 1) = n / weight k / 256 := by rw [weight_succ, Nat.div_div_eq_div_mul]
  unfold setDigit
  rw [hq, weight_succ, Nat.mul_add, Nat.mul_comm (weight k) b, Nat.mul_comm (weight k) 256,
    ← Nat.mul_assoc, Nat.mul_comm (weight k) (_ * 256)]
  omega

theorem digit_setDigit_self (n k : Nat) {b : Nat} (hb : b < 256) :
    digit (setDigit n k b) k = b := by
  have h := digit_add_high (Nat.mod_lt n (weight_pos k)) (n / weight k / 256 * 256 + b) 0
  rw [setDigit_eq]
  rw [Nat.add_zero] at h
  rw [h]
  unfold digit weight
  omega

/-- Digits above and below the one written stay. -/
theorem digit_setDigit_ne (n : Nat) {k j b : Nat} (hb : b < 256) (h : j ≠ k) :
    digit (setDigit n k b) j = digit n j := by
  have hn : n = n % weight k + weight k * (n / weight k) := (Nat.mod_add_div _ _).symm
  have hr : n % weight k < weight k := Nat.mod_lt _ (weight_pos k)
  rw [setDigit_eq]
  conv => rhs; rw [hn]
  rcases Nat.lt_or_gt_of_ne h with hlt | hgt
  · obtain ⟨d, rfl⟩ : ∃ d, k = j + 1 + d := ⟨k - (j + 1), by omega⟩
    rw [digit_add_low, digit_add_low]
  · obtain ⟨d, rfl⟩ : ∃ d, j = k + (d + 1) := ⟨j - (k + 1), by omega⟩
    rw [digit_add_high hr, digit_add_high hr, digit_succ, digit_succ]
    congr 1
    omega

theorem setDigit_lt {n k b m : Nat} (hn : n < weight m) (hk : k < m) (hb : b < 256) :
    setDigit n k b < weight m := by
  obtain ⟨d, rfl⟩ : ∃ d, m = k + 1 + d := ⟨m - (k + 1), by omega⟩
  have hr : n % weight k < weight k := Nat.mod_lt _ (weight_pos k)
  have hq : n / weight (k + 1) < weight d := by
    rw [Nat.div_lt_iff_lt_mul (weight_pos _), ← weight_add, Nat.add_comm d]
    exact hn
  have h1 : b * weight k + n % weight k < weight (k + 1) := by
    have : b * weight k ≤ 255 * weight k := Nat.mul_le_mul_right _ (by omega)
    rw [weight_succ]
    omega
  have h2 : (n / weight (k + 1) + 1) * weight (k + 1) ≤ weight d * weight (k + 1) :=
    Nat.mul_le_mul_right _ hq
  rw [Nat.add_mul, Nat.one_mul, ← weight_add, Nat.add_comm d] at h2
  unfold setDigit
  omega

end BoundaryTag
