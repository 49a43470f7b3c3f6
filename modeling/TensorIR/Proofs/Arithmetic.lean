import Mathlib.Data.Rat.Floor
import TensorIR.Proofs.Folding

/-!
# Operators on bounded and on unbounded integers

The ideal value of an operator is its value on the integers without bounds, where division rounds
toward negative infinity. The checked operators never have any other (`apply_exact`).

That they have a value whenever the ideal one fits holds of four of them. A remainder is found by
multiplying the quotient back. The product is the multiple of the divisor next to the dividend, and
if the two have different signs it is the one further from zero, so close to the ends of the range
it lies beyond them. The remainder itself is smaller than the divisor and always fits. The operands
at which it is missed for such a product, or for a quotient that does not fit, are those at which it
overshoots, and `apply_eq_none_iff` says that nothing else goes wrong.
-/

namespace TensorIR

theorem floor_eq_fdiv (m n : Int) : ⌊(m : ℚ) / n⌋ = m.fdiv n := by
  have nonneg (m : Int) (k : Nat) : ⌊(m : ℚ) / (k : Int)⌋ = m.fdiv k := by
    rw [Int.cast_natCast, Rat.floor_intCast_div_natCast]
    exact (Int.fdiv_eq_ediv_of_nonneg m (Int.natCast_nonneg k)).symm
  obtain ⟨k, rfl | rfl⟩ := n.eq_nat_or_neg
  · exact nonneg m k
  · rw [← Int.neg_fdiv_neg, Int.neg_neg, ← nonneg (-m) k, Int.cast_neg, Int.cast_neg, neg_div,
      div_neg]

namespace ArithOp

/-- The value of the operator on unbounded integers, unless it divides by zero. -/
def ideal? : ArithOp → Int → Int → Option Int
  | add, m, n => some (m + n)
  | sub, m, n => some (m - n)
  | mul, m, n => some (m * n)
  | floorDiv, m, n => if n = 0 then none else some ⌊(m : ℚ) / n⌋
  | floorMod, m, n => if n = 0 then none else some (m - ⌊(m : ℚ) / n⌋ * n)

variable {op : ArithOp} {a b c : Int64} {m n r : Int}

theorem ideal?_floorDiv (nonzero : n ≠ 0) : floorDiv.ideal? m n = some ⌊(m : ℚ) / n⌋ :=
  if_neg nonzero

theorem ideal?_floorMod (nonzero : n ≠ 0) :
    floorMod.ideal? m n = some (m - ⌊(m : ℚ) / n⌋ * n) := if_neg nonzero

/-! ### The value -/

theorem divide_eq_some : divide a b = some c ↔ b ≠ 0 ∧ c.toInt = ⌊(a.toInt : ℚ) / b.toInt⌋ := by
  rw [divide_eq, floor_eq_fdiv]
  split
  · next zero => simp [zero]
  · next nonzero => simp [nonzero, int64?_eq_some_iff]

theorem floorMod_eq_some : floorMod.apply a b = some c ↔
    ∃ quotient, divide a b = some quotient ∧ InRange (quotient.toInt * b.toInt) ∧
      c.toInt = a.toInt - quotient.toInt * b.toInt := by
  rw [apply]
  constructor
  · intro applied
    obtain ⟨quotient, divided, applied⟩ := Option.bind_eq_some_iff.1 applied
    obtain ⟨product, multiplied, applied⟩ := Option.bind_eq_some_iff.1 applied
    refine ⟨quotient, divided, inRange_iff.2 ⟨product, multiplied⟩, ?_⟩
    rw [int64?_eq_some_iff.1 applied, int64?_eq_some_iff.1 multiplied]
  · rintro ⟨quotient, divided, fits, rest⟩
    obtain ⟨product, multiplied⟩ := inRange_iff.1 fits
    rw [divided, Option.bind_eq_bind, Option.bind_some, multiplied]
    exact int64?_eq_some_iff.2 (by rw [rest, int64?_eq_some_iff.1 multiplied])

/-- An operator that has a value has the ideal one. -/
theorem apply_exact (applied : op.apply a b = some c) :
    op.ideal? a.toInt b.toInt = some c.toInt := by
  cases op with
  | add | sub | mul => rw [ideal?, int64?_eq_some_iff.1 applied]
  | floorDiv =>
      obtain ⟨divisor, value⟩ := divide_eq_some.1 applied
      rw [ideal?_floorDiv (toInt_ne_zero divisor), value]
  | floorMod =>
      obtain ⟨quotient, divided, -, value⟩ := floorMod_eq_some.1 applied
      obtain ⟨divisor, rounded⟩ := divide_eq_some.1 divided
      rw [ideal?_floorMod (toInt_ne_zero divisor), value, rounded]

/-! ### Where there is none -/

/-- No exact result fits: the operator divides by zero, or its ideal value leaves the range. -/
def Unrepresentable (op : ArithOp) (a b : Int64) : Prop :=
  (op = floorDiv ∨ op = floorMod) ∧ b = 0 ∨
    ∃ m, op.ideal? a.toInt b.toInt = some m ∧ ¬InRange m

/-- The remainder is taken by way of a quotient or of a multiple of the divisor that does not
fit. -/
def Overshoots (op : ArithOp) (a b : Int64) : Prop :=
  op = floorMod ∧ b ≠ 0 ∧
    (a = Int64.minValue ∧ b = -1 ∨ ¬InRange (⌊(a.toInt : ℚ) / b.toInt⌋ * b.toInt))

/-- The remainder is smaller than the divisor, and on the same side of zero. -/
theorem remainder_bounds (value : floorMod.ideal? m n = some r) :
    0 ≤ r ∧ r < n ∨ n < r ∧ r ≤ 0 := by
  rw [ideal?] at value
  split at value
  · cases value
  · next nonzero =>
      cases value
      rw [floor_eq_fdiv, Int.fdiv_mul_self, sub_sub_cancel]
      rcases lt_or_gt_of_ne nonzero with negative | positive
      · exact .inr ((Int.fdiv_fmod_unique' negative).1 ⟨rfl, rfl⟩).2
      · exact .inl ((Int.fdiv_fmod_unique positive).1 ⟨rfl, rfl⟩).2

theorem sign_of_floorMod (value : floorMod.ideal? m n = some r) : r = 0 ∨ r.sign = n.sign := by
  rcases remainder_bounds value with ⟨low, high⟩ | ⟨low, high⟩
  · refine low.eq_or_lt.imp Eq.symm fun positive => ?_
    rw [Int.sign_eq_one_of_pos positive, Int.sign_eq_one_of_pos (positive.trans high)]
  · refine high.eq_or_lt.imp id fun negative => ?_
    rw [Int.sign_eq_neg_one_of_neg negative, Int.sign_eq_neg_one_of_neg (low.trans negative)]

theorem inRange_quotient_of_rest {q : Int} (dividend : InRange m)
    (rest : 0 ≤ m - q * n ∧ m - q * n < n ∨ n < m - q * n ∧ m - q * n ≤ 0) :
    InRange q ∨ m = -9223372036854775808 ∧ n = -1 := by
  rw [InRange] at dividend ⊢
  by_contra beyond
  rcases rest with ⟨low, high⟩ | ⟨low, high⟩
  · have above : q ≤ 9223372036854775807 := by
      by_contra large
      nlinarith
    have below : -9223372036854775808 ≤ q := by
      by_contra small
      nlinarith
    omega
  · have below : -9223372036854775808 ≤ q := by
      by_contra small
      nlinarith
    have large : 9223372036854775808 ≤ q := by omega
    -- Minus one is the only negative divisor that does not halve such a quotient.
    rcases eq_or_ne n (-1) with rfl | other
    · omega
    · have apart : n ≤ -2 := by omega
      nlinarith

/-- The only quotient that leaves the range is that of the least integer by minus one. -/
theorem inRange_quotient (nonzero : b.toInt ≠ 0) :
    InRange ⌊(a.toInt : ℚ) / b.toInt⌋ ↔ ¬(a = Int64.minValue ∧ b = -1) := by
  constructor
  · rintro fits ⟨rfl, rfl⟩
    rw [floor_eq_fdiv] at fits
    exact absurd fits (by decide)
  · intro other
    rw [← Int64.toInt_inj, ← Int64.toInt_inj] at other
    have bounds := remainder_bounds (m := a.toInt) (ideal?_floorMod nonzero)
    exact (inRange_quotient_of_rest (inRange_toInt a) bounds).resolve_right other

theorem inRange_remainder (a : Int64) (nonzero : b.toInt ≠ 0) :
    InRange (a.toInt - ⌊(a.toInt : ℚ) / b.toInt⌋ * b.toInt) := by
  have bounds := remainder_bounds (m := a.toInt) (ideal?_floorMod nonzero)
  have divisor := inRange_toInt b
  rw [InRange] at divisor ⊢
  omega

theorem unrepresentable_iff (value : op.ideal? a.toInt b.toInt = some m) :
    op.Unrepresentable a b ↔ ¬InRange m := by
  constructor
  · rintro (⟨rfl | rfl, rfl⟩ | ⟨k, same, leaves⟩)
    · cases value
    · cases value
    · cases value.symm.trans same
      exact leaves
  · exact fun leaves => .inr ⟨m, value, leaves⟩

/-- All operators but the remainder have a value wherever the ideal one fits. -/
theorem undefined_iff (other : op ≠ floorMod) : op.apply a b = none ↔ op.Unrepresentable a b := by
  cases op with
  | add | sub | mul => rw [apply, int64?_eq_none_iff_beyond, unrepresentable_iff rfl]
  | floorDiv =>
      rw [apply, divide_eq, ← floor_eq_fdiv]
      split
      · next zero => exact iff_of_true rfl (.inl ⟨.inl rfl, zero⟩)
      · next nonzero =>
          rw [int64?_eq_none_iff_beyond,
            unrepresentable_iff (ideal?_floorDiv (toInt_ne_zero nonzero))]
  | floorMod => exact absurd rfl other

theorem floorMod_defined_iff : (∃ c, floorMod.apply a b = some c) ↔
    b ≠ 0 ∧ InRange ⌊(a.toInt : ℚ) / b.toInt⌋ ∧
      InRange (⌊(a.toInt : ℚ) / b.toInt⌋ * b.toInt) := by
  constructor
  · rintro ⟨c, applied⟩
    obtain ⟨quotient, divided, fits, -⟩ := floorMod_eq_some.1 applied
    obtain ⟨nonzero, rounded⟩ := divide_eq_some.1 divided
    rw [← rounded]
    exact ⟨nonzero, inRange_toInt quotient, fits⟩
  · rintro ⟨nonzero, fits, fits'⟩
    obtain ⟨quotient, rounded⟩ := inRange_iff.1 fits
    obtain ⟨c, rest⟩ := inRange_iff.1 (inRange_remainder a (toInt_ne_zero nonzero))
    rw [int64?_eq_some_iff] at rounded rest
    rw [← rounded] at fits' rest
    exact ⟨c, floorMod_eq_some.2 ⟨quotient, divide_eq_some.2 ⟨nonzero, rounded⟩, fits', rest⟩⟩

theorem unrepresentable_floorMod : floorMod.Unrepresentable a b ↔ b = 0 := by
  by_cases zero : b = 0
  · exact iff_of_true (.inl ⟨.inr rfl, zero⟩) zero
  · have nonzero := toInt_ne_zero zero
    rw [unrepresentable_iff (ideal?_floorMod nonzero)]
    exact iff_of_false (not_not_intro (inRange_remainder a nonzero)) zero

theorem overshoots_floorMod : floorMod.Overshoots a b ↔
    b ≠ 0 ∧ ¬(InRange ⌊(a.toInt : ℚ) / b.toInt⌋ ∧
      InRange (⌊(a.toInt : ℚ) / b.toInt⌋ * b.toInt)) := by
  rw [Overshoots, not_and_or]
  refine and_iff_right rfl |>.trans (and_congr_right fun nonzero => or_congr_left ?_)
  rw [inRange_quotient (toInt_ne_zero nonzero), not_not]

/-- An operator has no value in two cases: there is no exact result that fits, or the remainder,
which always fits, is taken by way of something that does not. The second case is all that the first
one leaves out. -/
theorem apply_eq_none_iff (op : ArithOp) (a b : Int64) :
    (op.apply a b = none ↔ op.Unrepresentable a b ∨ op.Overshoots a b) ∧
      (op.Overshoots a b ↔ op.apply a b = none ∧ ¬op.Unrepresentable a b) := by
  by_cases remainder : op = floorMod
  · subst remainder
    have undefined : floorMod.apply a b = none ↔ ¬∃ c, floorMod.apply a b = some c := by
      rw [← Option.ne_none_iff_exists', not_not]
    rw [undefined, floorMod_defined_iff, unrepresentable_floorMod, overshoots_floorMod]
    tauto
  · have never : ¬op.Overshoots a b := fun overshoots => remainder overshoots.1
    rw [undefined_iff remainder]
    exact ⟨(or_iff_left never).symm, iff_of_false never and_not_self⟩

/-- The remainder of the least integer by three is one. It is not found, since the multiple of three
below the least integer does not fit. -/
theorem floorMod_overshoots :
    floorMod.apply Int64.minValue 3 = none ∧
      floorMod.ideal? Int64.minValue.toInt (3 : Int64).toInt = some 1 ∧
      ¬floorMod.Unrepresentable Int64.minValue 3 := by
  refine ⟨by decide, ?_, fun none => absurd (unrepresentable_floorMod.1 none) (by decide)⟩
  rw [ideal?_floorMod (by decide), floor_eq_fdiv]
  decide

end ArithOp

end TensorIR
