import TensorIR.Arith

/-!
# Dimensions

One dimension of a tensor: a literal, a dimension variable of the enclosing function, or integer
arithmetic over those. A variable is an index into its function's list of dimension variables, so
two dimensions that mention the same variables in the same places are equal as data.

`Dim.binary` is the bare node. `Dim.fold` is the constructor that simplifies: it evaluates literal
operands, drops a unit, and collapses a product with a literal zero. `Dim.eval` gives the value of a
dimension under an assignment of its variables.
-/

namespace TensorIR

/-- A dimension variable, as its position among those of its function. -/
structure DimVar where
  index : Nat
deriving DecidableEq, Repr

/-- A dimension: a literal, a variable that gets its value at run time, or arithmetic on
dimensions. -/
inductive Dim where
  | int (n : Int64)
  | var (v : DimVar)
  | binary (op : ArithOp) (lhs rhs : Dim)
deriving DecidableEq, Repr

namespace Dim

/-- The value of a dimension that is written as a literal. -/
def literal? : Dim → Option Int64
  | int n => some n
  | var _ | binary .. => none

/-- The variable, if the dimension is a bare one. -/
def asVar? : Dim → Option DimVar
  | var v => some v
  | int _ | binary .. => none

/-- The value of an operator on two literals. -/
def literalResult? (op : ArithOp) (lhs rhs : Dim) : Option Int64 := do
  op.apply (← lhs.literal?) (← rhs.literal?)

/-- The node `lhs op rhs`, simplified. Two literals are evaluated if the result fits; failing that a
unit gives way to the other operand and a product with a literal zero is zero; all else is kept. -/
def fold (op : ArithOp) (lhs rhs : Dim) : Dim :=
  match literalResult? op lhs rhs with
  | some n => int n
  | none =>
    if op.leftUnit?.map int = some lhs then rhs
    else if op.rightUnit?.map int = some rhs then lhs
    else if op = .mul ∧ (lhs = int 0 ∨ rhs = int 0) then int 0
    else binary op lhs rhs

/-- The variables of a dimension from left to right, one entry for each occurrence. -/
def vars : Dim → List DimVar
  | int _ => []
  | var v => [v]
  | binary _ lhs rhs => lhs.vars ++ rhs.vars

/-- The value of a dimension, where `ρ` gives the values of the variables that have one. -/
def eval (ρ : DimVar → Option Int64) : Dim → Option Int64
  | int n => some n
  | var v => ρ v
  | binary op lhs rhs => do op.apply (← lhs.eval ρ) (← rhs.eval ρ)

/-- The dimension with its variables renamed by `f`; nothing is folded. -/
def mapVars (f : DimVar → DimVar) : Dim → Dim
  | int n => int n
  | var v => var (f v)
  | binary op lhs rhs => binary op (lhs.mapVars f) (rhs.mapVars f)

theorem vars_mapVars (f : DimVar → DimVar) (d : Dim) : (d.mapVars f).vars = d.vars.map f := by
  induction d with
  | int _ | var _ => rfl
  | binary op lhs rhs ihl ihr => simp [mapVars, vars, ihl, ihr]

theorem eval_binary {ρ : DimVar → Option Int64} {op : ArithOp} {lhs rhs : Dim} {a b : Int64}
    (left : lhs.eval ρ = some a) (right : rhs.eval ρ = some b) :
    (binary op lhs rhs).eval ρ = op.apply a b := by
  rw [eval, left, right]
  rfl

theorem eval_binary_eq_some {ρ : DimVar → Option Int64} {op : ArithOp} {lhs rhs : Dim}
    {n : Int64} : (binary op lhs rhs).eval ρ = some n ↔
      ∃ a b, lhs.eval ρ = some a ∧ rhs.eval ρ = some b ∧ op.apply a b = some n := by
  constructor
  · intro h
    obtain ⟨a, left, h⟩ := Option.bind_eq_some_iff.1 h
    obtain ⟨b, right, result⟩ := Option.bind_eq_some_iff.1 h
    exact ⟨a, b, left, right, result⟩
  · rintro ⟨a, b, left, right, result⟩
    rw [eval_binary left right, result]

/-- The name of a variable in printed text: its own, or `?n` for one that the function lacks. -/
def varName (names : List String) (v : DimVar) : String :=
  names[v.index]?.getD ("?" ++ toString v.index)

/-- The text of a dimension in a place that needs at least the binding strength `level`. Operators
associate to the left, so a right operand is held to one level more than its operator. -/
def render (names : List String) (level : Nat) : Dim → String
  | int n => toString n.toInt
  | var v => varName names v
  | binary op lhs rhs =>
    let text := lhs.render names op.precedence ++ " " ++ op.symbol ++ " " ++
      rhs.render names (op.precedence + 1)
    if op.precedence < level then "(" ++ text ++ ")" else text

end Dim

end TensorIR
