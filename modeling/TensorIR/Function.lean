import TensorIR.Expr

/-!
# Functions

A function is a list of blocks of bindings and a result. It owns two lists that its identifiers are
positions in: what is recorded of each variable, and the name of each dimension variable. A pass
appends to these lists and never takes away from them, so an identifier means the same in a function
and in what the function is lowered to.

Nothing here keeps an identifier inside its list. A function from the builder has been checked; of
any other, a look-up can fail with the identifier that is missing, an `Unallocated`.
-/

namespace TensorIR

/-- One step of a block. -/
inductive Binding where
  /-- Defines a variable as the value of an expression. -/
  | define (v : Var) (value : Expr)
  /-- Binds each dimension variable of the pattern that has no value yet to the run-time dimension
  that `value`, a shape or a tensor, has in its place. A variable, if given, is defined as
  `value`. -/
  | matchShape (v : Option Var) (value : Expr) (pattern : Shape)
deriving DecidableEq, Repr

namespace Binding

/-- The variable that a binding defines, if any. -/
def defined? : Binding → Option Var
  | define v _ => some v
  | matchShape v _ _ => v

/-- The expression that a binding takes its value from. -/
def value : Binding → Expr
  | define _ value | matchShape _ value _ => value

/-- The pattern of a matched shape. -/
def pattern? : Binding → Option Shape
  | define .. => none
  | matchShape _ _ pattern => some pattern

/-- The binding with another expression as its value. -/
def withValue (value : Expr) : Binding → Binding
  | define v _ => define v value
  | matchShape v _ pattern => matchShape v value pattern

/-- The binding under another name; a match that defines no variable comes to define one. -/
def withDefined (v : Var) : Binding → Binding
  | define _ value => define v value
  | matchShape _ value pattern => matchShape (some v) value pattern

end Binding

/-- Where the bindings of a block can be read. -/
inductive BlockKind where
  | plain
  /-- A pure region. Of its variables, later blocks see the plain ones only. -/
  | dataflow
deriving DecidableEq, Repr

/-- Bindings that follow each other, with the kind of block that they stand in. -/
structure Block where
  kind : BlockKind
  bindings : List Binding
deriving DecidableEq, Repr

/-- Whether the block is one whose own variables end with it. -/
def Block.isDataflow (block : Block) : Bool := block.kind == .dataflow

/-- A function with the tables of its identifiers, where variables and dimension variables are
numbers that look up their records. -/
structure Function where
  name : String
  params : List Var
  blocks : List Block
  body : Expr
  retTy : Option Ty
  vars : List VarInfo
  dimNames : List String
deriving DecidableEq, Repr

/-- An identifier that its function does not allocate. -/
inductive Unallocated where
  | var (v : Var)
  | dimVar (v : DimVar)
deriving DecidableEq, Repr

/-- The text with which a dangling identifier is reported. -/
def Unallocated.message : Unallocated → String
  | var v => "variable id " ++ toString v.index ++ " is not allocated"
  | dimVar v => "shape variable id " ++ toString v.index ++ " is not allocated"

namespace Function

/-- All bindings in program order, whatever block they are in. -/
def bindings (f : Function) : List Binding := f.blocks.flatMap Block.bindings

/-- What is recorded of a variable, if the function has allocated it. -/
def info (f : Function) (v : Var) : Except Unallocated VarInfo :=
  match f.vars[v.index]? with
  | some info => .ok info
  | none => .error (.var v)

/-- The name of a dimension variable, if the function has allocated it. -/
def dimName (f : Function) (v : DimVar) : Except Unallocated String :=
  match f.dimNames[v.index]? with
  | some name => .ok name
  | none => .error (.dimVar v)

end Function

end TensorIR
