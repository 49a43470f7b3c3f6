/-!
# Checked 64-bit arithmetic

Dimensions, integer literals and the cells of a shape heap are signed 64-bit integers, and no
operation on them wraps. Every operator is therefore made of exact operations on the integers, each
followed by a range check: `int64?` is the only way back from `Int`, and it answers `none` outside
the range.

Division rounds toward negative infinity. It truncates first and then corrects the quotient, each
step checked; nothing is lost by that, since the truncated quotient leaves the range only where the
corrected one does (`divide_eq`). The remainder is taken in three checked steps, quotient, product
and difference, so it is undefined as soon as one of the three leaves the range, even where the
remainder itself would fit.
-/

namespace TensorIR

/-- The 64-bit integer with the value `n`, if there is one. -/
def int64? (n : Int) : Option Int64 :=
  if -9223372036854775808 ≤ n ∧ n ≤ 9223372036854775807 then some (Int64.ofInt n) else none

theorem int64?_toInt (a : Int64) : int64? a.toInt = some a := by
  have lower := a.le_toInt
  have upper := a.toInt_lt
  rw [int64?, if_pos (by omega), Int64.ofInt_toInt]

theorem int64?_eq_some_iff {n : Int} {a : Int64} : int64? n = some a ↔ a.toInt = n := by
  constructor
  · intro h
    rw [int64?] at h
    split at h
    · next inRange =>
      rw [← Option.some.inj h]
      exact Int64.toInt_ofInt_of_le (by omega) (by omega)
    · cases h
  · rintro rfl
    exact int64?_toInt a

theorem int64?_eq_none_iff {n : Int} :
    int64? n = none ↔ n < -9223372036854775808 ∨ 9223372036854775807 < n := by
  rw [int64?]
  split <;> simp <;> omega

theorem toInt_ne_zero {a : Int64} (nonzero : a ≠ 0) : a.toInt ≠ 0 :=
  fun zero => nonzero (Int64.toInt_inj.1 zero)

/-- The operators of dimension arithmetic; division and remainder round towards negative
infinity. -/
inductive ArithOp where
  | add
  | sub
  | mul
  | floorDiv
  | floorMod
deriving DecidableEq, Repr

namespace ArithOp

/-- Every operator once, in the order in which they are declared. -/
def all : List ArithOp := [add, sub, mul, floorDiv, floorMod]

/-- The sign that stands between the operands in text. -/
def symbol : ArithOp → String
  | add => "+"
  | sub => "-"
  | mul => "*"
  | floorDiv => "//"
  | floorMod => "%"

/-- How tightly the operator binds in printed text. -/
def precedence : ArithOp → Nat
  | add | sub => 1
  | mul | floorDiv | floorMod => 2

/-- The quotient rounded toward zero. -/
def truncate (a b : Int64) : Option Int64 :=
  if b = 0 then none else int64? (a.toInt.tdiv b.toInt)

/-- The quotient rounded toward negative infinity: the truncated one, less one if the division
leaves a remainder and the signs differ. -/
def divide (a b : Int64) : Option Int64 := do
  let quotient ← truncate a b
  if a % b ≠ 0 ∧ ¬(a < 0 ↔ b < 0) then int64? (quotient.toInt - 1) else return quotient

/-- The value of the operator, unless it divides by zero or one of its steps leaves the range. -/
def apply : ArithOp → Int64 → Int64 → Option Int64
  | add, a, b => int64? (a.toInt + b.toInt)
  | sub, a, b => int64? (a.toInt - b.toInt)
  | mul, a, b => int64? (a.toInt * b.toInt)
  | floorDiv, a, b => divide a b
  | floorMod, a, b => do
    let quotient ← divide a b
    let product ← int64? (quotient.toInt * b.toInt)
    int64? (a.toInt - product.toInt)

/-- The operand that changes nothing on the left. -/
def leftUnit? : ArithOp → Option Int64
  | add => some 0
  | mul => some 1
  | sub | floorDiv | floorMod => none

/-- The operand that changes nothing on the right. -/
def rightUnit? : ArithOp → Option Int64
  | add | sub => some 0
  | mul | floorDiv => some 1
  | floorMod => none

/-- Rounding down is truncation, less one where there is a remainder and the signs differ. -/
theorem fdiv_eq_truncated {m n : Int} (nonzero : n ≠ 0) :
    m.fdiv n = if m.tmod n ≠ 0 ∧ ¬(m < 0 ↔ n < 0) then m.tdiv n - 1 else m.tdiv n := by
  simp only [Int.fdiv_eq_tdiv, Int.dvd_iff_tmod_eq_zero]
  rcases Int.lt_or_gt_of_ne nonzero with negative | positive
  · rw [Int.sign_eq_neg_one_of_neg negative]
    grind
  · rw [Int.sign_eq_one_of_pos positive]
    grind

theorem tdiv_nonpos {m n : Int} (differ : ¬(m < 0 ↔ n < 0)) : m.tdiv n ≤ 0 := by
  by_cases negative : m < 0
  · have flipped : 0 ≤ (-m).tdiv n := Int.tdiv_nonneg (by omega) (by omega)
    rw [Int.neg_tdiv] at flipped
    omega
  · exact Int.tdiv_nonpos_of_nonneg_of_nonpos (by omega) (by omega)

/-- Where a quotient is corrected, the truncated one fits. -/
theorem int64?_tdiv {a b : Int64} (differ : ¬(a.toInt < 0 ↔ b.toInt < 0)) :
    ∃ quotient, int64? (a.toInt.tdiv b.toInt) = some quotient := by
  have nonpos := tdiv_nonpos differ
  have smaller := Int.natAbs_tdiv_le_natAbs a.toInt b.toInt
  have lower := a.le_toInt
  have upper := a.toInt_lt
  exact ⟨_, if_pos (by omega)⟩

/-- Truncating and correcting the quotient is rounding it down, also where that leaves the range. -/
theorem divide_eq (a b : Int64) :
    divide a b = if b = 0 then none else int64? (a.toInt.fdiv b.toInt) := by
  rw [divide, truncate]
  split
  · rfl
  · next nonzero =>
      rw [fdiv_eq_truncated (toInt_ne_zero nonzero), ← Int64.toInt_mod]
      simp only [ne_eq, ← Int64.toInt_inj, Int64.lt_iff_toInt_lt, Int64.toInt_zero]
      split
      · next corrected =>
          obtain ⟨quotient, truncated⟩ := int64?_tdiv corrected.2
          rw [truncated, ← int64?_eq_some_iff.1 truncated]
          rfl
      · exact bind_pure _

end ArithOp

end TensorIR
