import BoundaryTag.Fault

/-!
# Checked 64-bit arithmetic

Sizes, addresses and counters are 64-bit words. They are kept as natural
numbers, and each operation that could leave the range says so instead of
wrapping.

Results: `Word.add_eq_ok`, `Word.sub_eq_ok` and `Word.mul_eq_ok` give the
value within the range; the `_eq_ok_iff` lemmas say that nothing else
succeeds.
-/

namespace BoundaryTag.Word

/-- The sum of `a` and `b`, unless it leaves the words. -/
def add (a b : Nat) : Except Fault Nat :=
  if a + b < limit then .ok (a + b) else .error .addOverflow

/-- The difference of `a` and `b`, unless it is negative. -/
def sub (a b : Nat) : Except Fault Nat :=
  if b ≤ a then .ok (a - b) else .error .subOverflow

/-- The product of `a` and `b`, unless it leaves the words. -/
def mul (a b : Nat) : Except Fault Nat :=
  if a * b < limit then .ok (a * b) else .error .mulOverflow

/-- The sum of `a` and `b`, or the largest word when that is less. -/
def addSaturating (a b : Nat) : Nat := min (a + b) top

/-- The product of `a` and `b`, or the largest word when that is less. -/
def mulSaturating (a b : Nat) : Nat := min (a * b) top

theorem add_eq_ok {a b : Nat} (h : a + b < limit) : add a b = .ok (a + b) := if_pos h

theorem sub_eq_ok {a b : Nat} (h : b ≤ a) : sub a b = .ok (a - b) := if_pos h

theorem mul_eq_ok {a b : Nat} (h : a * b < limit) : mul a b = .ok (a * b) := if_pos h

theorem add_eq_ok_iff {a b n : Nat} : add a b = .ok n ↔ n = a + b ∧ a + b < limit := by
  unfold add; split <;> simp_all [eq_comm]

theorem sub_eq_ok_iff {a b n : Nat} : sub a b = .ok n ↔ n = a - b ∧ b ≤ a := by
  unfold sub; split <;> simp_all [eq_comm]

theorem mul_eq_ok_iff {a b n : Nat} : mul a b = .ok n ↔ n = a * b ∧ a * b < limit := by
  unfold mul; split <;> simp_all [eq_comm]

end BoundaryTag.Word
