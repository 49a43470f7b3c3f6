import Mathlib.Algebra.BigOperators.Group.List.Basic
import Mathlib.Algebra.Ring.Int.Defs
import Mathlib.Data.List.Infix
import TensorIR.Lowering.Storage

/-!
# The value of a folded dimension

Folding drops units, merges literals and collapses products with a literal zero. What it gives has
the value of the bare node, with one exception: a product with a literal zero is zero even where the
other factor has no value (`Dim.eval_fold`). A value that there is stays the same in any case, and
so it does where a whole dimension is folded node by node (`Dim.eval_refold`).

A size in bytes is folded factor by factor, so the exception matters. A product whose literal
factors overflow stays symbolic and has no value, until a literal zero makes it zero. That is still
the exact product. The invariant of the fold is therefore not that the product so far has its exact
value, but that it has no other (`Dim.Exact`); that it has one is a second invariant, for as long as
nothing overflows.
-/

namespace TensorIR

/-- The integer is the value of a 64-bit one. -/
def InRange (n : Int) : Prop := -9223372036854775808 ≤ n ∧ n ≤ 9223372036854775807

instance (n : Int) : Decidable (InRange n) := inferInstanceAs (Decidable (_ ∧ _))

theorem int64?_eq_none_iff_beyond {n : Int} : int64? n = none ↔ ¬InRange n := by
  rw [int64?_eq_none_iff, InRange]
  omega

theorem inRange_iff {n : Int} : InRange n ↔ ∃ k, int64? n = some k := by
  rw [← Option.ne_none_iff_exists', ne_eq, int64?_eq_none_iff_beyond, not_not]

theorem inRange_toInt (a : Int64) : InRange a.toInt := inRange_iff.2 ⟨a, int64?_toInt a⟩

/-! ### Single operators -/

namespace ArithOp

variable {op : ArithOp} {a b n : Int64}

theorem mul_eq_some : mul.apply a b = some n ↔ n.toInt = a.toInt * b.toInt := int64?_eq_some_iff

theorem apply_leftUnit (unit : op.leftUnit? = some a) : op.apply a b = some b := by
  cases op with
  | add =>
      cases unit
      rw [apply, int64?_eq_some_iff]
      exact (Int.zero_add _).symm
  | mul =>
      cases unit
      rw [apply, int64?_eq_some_iff]
      exact (Int.one_mul _).symm
  | sub | floorDiv | floorMod => cases unit

theorem apply_rightUnit (unit : op.rightUnit? = some b) : op.apply a b = some a := by
  cases op with
  | add =>
      cases unit
      rw [apply, int64?_eq_some_iff]
      exact (Int.add_zero _).symm
  | sub =>
      cases unit
      rw [apply, int64?_eq_some_iff]
      exact (Int.sub_zero _).symm
  | mul =>
      cases unit
      rw [apply, int64?_eq_some_iff]
      exact (Int.mul_one _).symm
  | floorDiv =>
      cases unit
      rw [apply, divide_eq, if_neg (by decide), int64?_eq_some_iff]
      exact (Int.fdiv_one _).symm
  | floorMod => cases unit

end ArithOp

namespace Dim

variable {ρ : DimVar → Option Int64} {op : ArithOp} {d lhs rhs : Dim} {a b n : Int64} {m : Int}

theorem literal?_eq_some : d.literal? = some n ↔ d = int n := by
  cases d with
  | int k => exact ⟨fun h => congrArg int (Option.some.inj h), fun h => by cases h; rfl⟩
  | var _ | binary _ _ _ => exact ⟨nofun, nofun⟩

theorem literalResult?_eq_some : literalResult? op lhs rhs = some n ↔
    ∃ a b, lhs = int a ∧ rhs = int b ∧ op.apply a b = some n := by
  rw [literalResult?]
  constructor
  · intro h
    obtain ⟨a, left, h⟩ := Option.bind_eq_some_iff.1 h
    obtain ⟨b, right, result⟩ := Option.bind_eq_some_iff.1 h
    exact ⟨a, b, literal?_eq_some.1 left, literal?_eq_some.1 right, result⟩
  · rintro ⟨a, b, rfl, rfl, result⟩
    exact result

/-- A product with a literal zero is folded to zero. -/
theorem fold_mul_zero (zero : lhs = int 0 ∨ rhs = int 0) : fold .mul lhs rhs = int 0 := by
  have zero_mul (b : Int64) : ArithOp.mul.apply 0 b = some 0 :=
    ArithOp.mul_eq_some.2 (Int.zero_mul _).symm
  have mul_zero (a : Int64) : ArithOp.mul.apply a 0 = some 0 :=
    ArithOp.mul_eq_some.2 (Int.mul_zero _).symm
  rcases zero with rfl | rfl
  · cases rhs with
    | int b => simp [fold, literalResult?, literal?, zero_mul]
    | var _ | binary _ _ _ =>
        simp [fold, literalResult?, literal?, ArithOp.leftUnit?, ArithOp.rightUnit?]
  · cases lhs with
    | int a => simp [fold, literalResult?, literal?, mul_zero]
    | var _ | binary _ _ _ =>
        simp [fold, literalResult?, literal?, ArithOp.leftUnit?, ArithOp.rightUnit?]

/-- A folded node has the value of the bare one, or is zero by a literal factor. -/
theorem eval_fold (ρ : DimVar → Option Int64) (op : ArithOp) (lhs rhs : Dim) :
    (fold op lhs rhs).eval ρ =
      if op = .mul ∧ (lhs = int 0 ∨ rhs = int 0) then some 0 else (binary op lhs rhs).eval ρ := by
  by_cases zero : op = .mul ∧ (lhs = int 0 ∨ rhs = int 0)
  · obtain ⟨rfl, factor⟩ := zero
    rw [fold_mul_zero factor, if_pos ⟨rfl, factor⟩]
    rfl
  · rw [if_neg zero, fold]
    split
    · next n result =>
        obtain ⟨a, b, rfl, rfl, applied⟩ := literalResult?_eq_some.1 result
        exact applied.symm
    · split
      · next unit =>
          obtain ⟨a, isUnit, rfl⟩ := Option.map_eq_some_iff.1 unit
          cases value : rhs.eval ρ with
          | none => rw [eval, value]; rfl
          | some b => rw [eval_binary rfl value, ArithOp.apply_leftUnit isUnit]
      · split
        · next unit =>
            obtain ⟨b, isUnit, rfl⟩ := Option.map_eq_some_iff.1 unit
            cases value : lhs.eval ρ with
            | none => rw [eval, value]; rfl
            | some a => rw [eval_binary value rfl, ArithOp.apply_rightUnit isUnit]
        · rfl

/-- Folding a node changes no value that the node has. -/
theorem eval_fold_of_eval (value : (binary op lhs rhs).eval ρ = some n) :
    (fold op lhs rhs).eval ρ = some n := by
  rw [eval_fold]
  split
  · next zero =>
      obtain ⟨rfl, factor⟩ := zero
      obtain ⟨a, b, left, right, product⟩ := eval_binary_eq_some.1 value
      have isZero : (0 : Int64).toInt = n.toInt := by
        rw [ArithOp.mul_eq_some.1 product]
        rcases factor with rfl | rfl
        · cases left
          exact (Int.zero_mul _).symm
        · cases right
          exact (Int.mul_zero _).symm
      rw [Int64.toInt_inj.1 isZero]
  · exact value

/-- The dimension with every node folded, from the leaves up. -/
def refold : Dim → Dim
  | int n => int n
  | var v => var v
  | binary op lhs rhs => fold op lhs.refold rhs.refold

theorem eval_refold (value : d.eval ρ = some n) : d.refold.eval ρ = some n := by
  induction d generalizing n with
  | int _ | var _ => exact value
  | binary op lhs rhs ihl ihr =>
      obtain ⟨a, b, left, right, applied⟩ := eval_binary_eq_some.1 value
      exact eval_fold_of_eval (eval_binary_eq_some.2 ⟨a, b, ihl left, ihr right, applied⟩)

/-- A folded node is zero where a literal zero is a factor, and has the value of the bare node
everywhere else, also where that has none. So a dimension that is folded throughout has the value
that it had. -/
theorem folding_keeps_values :
    (∀ (ρ : DimVar → Option Int64) (op : ArithOp) (lhs rhs : Dim), (fold op lhs rhs).eval ρ =
      if op = .mul ∧ (lhs = int 0 ∨ rhs = int 0) then some 0 else (binary op lhs rhs).eval ρ) ∧
    ∀ (ρ : DimVar → Option Int64) (d : Dim) (n : Int64), d.eval ρ = some n →
      d.refold.eval ρ = some n :=
  ⟨eval_fold, fun _ _ _ => eval_refold⟩

/-- The greatest integer cannot be added to itself, but the sum times zero is zero. In the second
dimension the product with zero is folded first and leaves a unit. -/
theorem folding_keeps_values_zero :
    let overflow : Dim := .binary .add (.int Int64.maxValue) (.int Int64.maxValue)
    let d : Dim := .binary .floorDiv (.binary .add (.var ⟨0⟩) (.binary .mul (.int 0) (.var ⟨1⟩)))
      (.int (-2))
    let ρ : DimVar → Option Int64 := fun v => [7, 5][v.index]?
    (fold .mul overflow (.int 0)).eval ρ = some 0 ∧ (binary .mul overflow (.int 0)).eval ρ = none ∧
      d.eval ρ = some (-4) ∧ d.refold.eval ρ = some (-4) ∧
      d.refold = .binary .floorDiv (.var ⟨0⟩) (.int (-2)) := by
  intro overflow d ρ
  have value : d.eval ρ = some (-4) := by decide
  have zero := folding_keeps_values.1 ρ .mul overflow (.int 0)
  rw [if_pos ⟨rfl, .inr rfl⟩] at zero
  exact ⟨zero, by decide, value, folding_keeps_values.2 ρ d _ value, by decide⟩

/-! ### Products -/

/-- The dimension has no other value than the integer. -/
def Exact (ρ : DimVar → Option Int64) (d : Dim) (m : Int) : Prop :=
  ∀ n, d.eval ρ = some n → n.toInt = m

/-- A factor keeps a product exact, also one that has no value. -/
theorem Exact.fold_mul (exact : lhs.Exact ρ m) (right : rhs.eval ρ = some b) :
    (fold .mul lhs rhs).Exact ρ (m * b.toInt) := by
  intro n value
  rw [eval_fold] at value
  split at value
  · next zero =>
      cases value
      rcases zero.2 with rfl | rfl
      · have isZero : (0 : Int64).toInt = m := exact 0 rfl
        rw [← isZero]
        exact (Int.zero_mul _).symm
      · cases right
        exact (Int.mul_zero m).symm
  · obtain ⟨a, b', left, right', product⟩ := eval_binary_eq_some.1 value
    cases right.symm.trans right'
    rw [ArithOp.mul_eq_some.1 product, exact a left]

/-- A product has a value as long as it fits. -/
theorem eval_fold_mul (left : lhs.eval ρ = some a) (right : rhs.eval ρ = some b)
    (fits : InRange (a.toInt * b.toInt)) :
    ∃ n, (fold .mul lhs rhs).eval ρ = some n ∧ n.toInt = a.toInt * b.toInt := by
  obtain ⟨n, product⟩ := inRange_iff.1 fits
  exact ⟨n, eval_fold_of_eval (eval_binary_eq_some.2 ⟨a, b, left, right, product⟩),
    ArithOp.mul_eq_some.1 product⟩

end Dim

namespace Shape

variable {ρ : DimVar → Option Int64} {s : Shape} {d start : Dim} {ns : List Int64} {a : Int64}
  {m : Int}

theorem exact_product (dims : s.mapM (Dim.eval ρ) = some ns) (exact : start.Exact ρ m) :
    (s.foldl (Dim.fold .mul) start).Exact ρ (m * (ns.map Int64.toInt).prod) := by
  induction s generalizing ns start m with
  | nil =>
      rw [List.mapM_nil] at dims
      cases dims
      rw [List.map_nil, List.prod_nil, mul_one]
      exact exact
  | cons d s ih =>
      obtain ⟨n, rest, rfl, head, tail⟩ := eval_cons.1 dims
      rw [List.map_cons, List.prod_cons, ← mul_assoc]
      exact ih tail (exact.fold_mul head)

/-- A product has a value if the product of each number of first factors fits. -/
theorem eval_product (dims : s.mapM (Dim.eval ρ) = some ns) (first : start.eval ρ = some a)
    (fits : ∀ before, before <+: ns → InRange (a.toInt * (before.map Int64.toInt).prod)) :
    ∃ n, (s.foldl (Dim.fold .mul) start).eval ρ = some n := by
  induction s generalizing ns start a with
  | nil => exact ⟨a, first⟩
  | cons d s ih =>
      obtain ⟨n, rest, rfl, head, tail⟩ := eval_cons.1 dims
      have one := fits [n] (List.prefix_append _ _)
      rw [List.map_singleton, List.prod_singleton] at one
      obtain ⟨k, next, product⟩ := Dim.eval_fold_mul first head one
      refine ih tail next fun before isPrefix => ?_
      have longer := fits (n :: before) (List.cons_prefix_cons.2 ⟨rfl, isPrefix⟩)
      rwa [List.map_cons, List.prod_cons, ← mul_assoc, ← product] at longer

/-- The size of a tensor in bytes, where it has a value, is the exact product of the dimensions and
the width of an element. It has one if the product of each number of first dimensions fits, and the
size itself. -/
theorem eval_storageBytes (elem : ElemType) (dims : s.mapM (Dim.eval ρ) = some ns) :
    (∀ size, (s.storageBytes elem).eval ρ = some size →
      size.toInt = (ns.map Int64.toInt).prod * elem.bytes.toInt) ∧
    ((∀ before, before <+: ns → InRange (before.map Int64.toInt).prod) →
      InRange ((ns.map Int64.toInt).prod * elem.bytes.toInt) →
        ∃ size, (s.storageBytes elem).eval ρ = some size) := by
  have one : (Dim.int 1).Exact ρ 1 := by
    rintro _ ⟨⟩
    rfl
  have exact := exact_product dims one
  rw [one_mul] at exact
  refine ⟨exact.fold_mul rfl, fun fits total => ?_⟩
  have first : (Dim.int 1).eval ρ = some 1 := rfl
  obtain ⟨n, value⟩ := eval_product dims first fun before isPrefix => by
    have within := fits before isPrefix
    rwa [← one_mul (List.prod _)] at within
  rw [← exact n value] at total
  obtain ⟨size, found, -⟩ := Dim.eval_fold_mul value (rfl : (Dim.int elem.bytes).eval ρ = _) total
  exact ⟨size, found⟩

/-- Six by one by seven numbers of four bytes. The factor one is dropped, and the others are not
literals. -/
theorem eval_storageBytes_sixBySeven :
    let s : Shape := [.var ⟨0⟩, .int 1, .binary .add (.var ⟨1⟩) (.int 2)]
    let ρ : DimVar → Option Int64 := fun v => [6, 5][v.index]?
    s.mapM (Dim.eval ρ) = some [6, 1, 7] ∧
      (∀ before, before <+: ([6, 1, 7] : List Int64) →
        InRange (before.map Int64.toInt).prod) ∧
      ∃ size, (s.storageBytes .float32).eval ρ = some size ∧ size.toInt = 168 := by
  intro s ρ
  have dims : s.mapM (Dim.eval ρ) = some [6, 1, 7] := by decide
  have fits : ∀ before, before <+: ([6, 1, 7] : List Int64) →
      InRange (before.map Int64.toInt).prod := by
    have listed : ∀ before ∈ ([6, 1, 7] : List Int64).inits,
        InRange (before.map Int64.toInt).prod := by decide
    exact fun before isPrefix => listed before ((List.mem_inits _ _).2 isPrefix)
  obtain ⟨exact, defined⟩ := eval_storageBytes .float32 dims
  obtain ⟨size, value⟩ := defined fits (by decide)
  exact ⟨dims, fits, size, value, exact size value⟩

/-- The first two factors overflow. With a literal zero behind them the size is zero, as it should
be; with a variable it has no value. -/
example : (Shape.storageBytes [.int Int64.maxValue, .int 2, .int 0] .int8).eval (fun _ => none) =
      some 0 ∧
    (Shape.storageBytes [.int Int64.maxValue, .int 2, .var ⟨0⟩] .int8).eval (fun _ => some 0) =
      none := by decide

end Shape

end TensorIR
