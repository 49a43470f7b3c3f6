import TensorIR.Function

/-!
# Scoping

When a function is well formed: no block is empty, every identifier is allocated, every variable is
defined at most once, parameters included, every read comes after a definition that is in scope, and
a dataflow variable is defined in dataflow blocks only and is not read after its block.

`Function.check` reports the first violation. It looks at the recorded shapes of all variables
first, then at the parameters, then at the bindings in program order, and at the body last. Of a
binding the value comes before the pattern and the pattern before the definition; of a call the
annotated shape comes before the arguments.
-/

namespace TensorIR

/-- A violation of the scoping rules, in the function of the given name. -/
inductive ScopeError where
  | emptyBlock (function : String) (block : Nat)
  | undefinedVar (function var : String)
  | unknownVar (function : String) (v : Var)
  | unknownDimVar (function : String) (v : DimVar)
  | rebound (function var : String)
  | dataflowVarEscapes (function var : String)
  | dataflowVarInPlainBlock (function var : String)
deriving DecidableEq, Repr

namespace ScopeError

/-- The text with which an ill-formed function is reported. -/
def message : ScopeError → String
  | emptyBlock function block => "block " ++ toString block ++ " of `" ++ function ++
      "` has no bindings"
  | undefinedVar function var => "`" ++ var ++ "` is used in `" ++ function ++
      "` before it is defined"
  | unknownVar function v => "variable id " ++ toString v.index ++ " is not allocated in `" ++
      function ++ "`"
  | unknownDimVar function v => "shape variable id " ++ toString v.index ++
      " is not allocated in `" ++ function ++ "`"
  | rebound function var => "`" ++ var ++ "` is bound more than once in `" ++ function ++ "`"
  | dataflowVarEscapes function var => "dataflow var `" ++ var ++
      "` is used outside its dataflow block in `" ++ function ++ "`"
  | dataflowVarInPlainBlock function var => "dataflow var `" ++ var ++
      "` is bound in a non-dataflow block of `" ++ function ++ "`"

end ScopeError

/-- The variables that are defined so far, by how long they can be read. -/
structure Scope where
  /-- Parameters and plain variables, which stay in scope. -/
  plain : List Var := []
  /-- Dataflow variables of the block at hand. -/
  inner : List Var := []
  /-- Dataflow variables of earlier blocks, which are out of scope. -/
  expired : List Var := []
deriving DecidableEq, Repr

namespace Scope

/-- Whether a variable has a definition, in scope or not. -/
def defines (scope : Scope) (v : Var) : Bool :=
  scope.plain.contains v || scope.inner.contains v || scope.expired.contains v

/-- Whether a variable can be read. -/
def sees (scope : Scope) (v : Var) : Bool := scope.plain.contains v || scope.inner.contains v

/-- The scope after a block, whose dataflow variables can no longer be read. -/
def leaveBlock (scope : Scope) : Scope :=
  { scope with inner := [], expired := scope.inner ++ scope.expired }

end Scope

namespace Function

/-- What is recorded of a variable, which has to be allocated. -/
def allocated (f : Function) (v : Var) : Except ScopeError VarInfo :=
  match f.vars[v.index]? with
  | some info => .ok info
  | none => .error (.unknownVar f.name v)

/-- Checks that the dimension variables of a shape are allocated. -/
def checkShape (f : Function) (s : Shape) : Except ScopeError Unit :=
  match s.vars.find? fun v => f.dimNames.length ≤ v.index with
  | some v => .error (.unknownDimVar f.name v)
  | none => .ok ()

/-- A variable that is read has to be allocated, defined and in scope. -/
def checkRead (f : Function) (scope : Scope) (v : Var) : Except ScopeError Unit := do
  let info ← f.allocated v
  if scope.sees v then return ()
  else if scope.expired.contains v then throw (.dataflowVarEscapes f.name info.name)
  else throw (.undefinedVar f.name info.name)

mutual

/-- Every read and every shape of an expression has to be good. -/
def checkExpr (f : Function) (scope : Scope) : Expr → Except ScopeError Unit
  | .var v => f.checkRead scope v
  | .shape s => f.checkShape s
  | .tuple fields => checkExprs f scope fields
  | .item t _ => checkExpr f scope t
  | .call head args => do
    f.checkShape (head.shape.getD [])
    checkExprs f scope args
  | .const _ | .external _ | .global _ => .ok ()

/-- Checks a list of expressions from left to right. -/
def checkExprs (f : Function) (scope : Scope) : List Expr → Except ScopeError Unit
  | [] => .ok ()
  | e :: es => do
    checkExpr f scope e
    checkExprs f scope es

end

/-- The scope after the definition of a variable, in a dataflow block or outside. -/
def checkDefinition (f : Function) (kind : BlockKind) (scope : Scope) (v : Var) :
    Except ScopeError Scope := do
  let info ← f.allocated v
  if scope.defines v then throw (.rebound f.name info.name)
  else if info.isDataflow then
    if kind = .plain then throw (.dataflowVarInPlainBlock f.name info.name)
    else return { scope with inner := v :: scope.inner }
  else return { scope with plain := v :: scope.plain }

/-- Checks a binding and gives the scope after it. What it reads is checked before what it
defines. -/
def checkBinding (f : Function) (kind : BlockKind) (scope : Scope) (b : Binding) :
    Except ScopeError Scope := do
  f.checkExpr scope b.value
  f.checkShape (b.pattern?.getD [])
  match b.defined? with
  | some v => f.checkDefinition kind scope v
  | none => return scope

/-- The scope after a block, the one at the given position. -/
def checkBlock (f : Function) (position : Nat) (scope : Scope) (b : Block) :
    Except ScopeError Scope := do
  if b.bindings.isEmpty then throw (.emptyBlock f.name position)
  let scope ← b.bindings.foldlM (f.checkBinding b.kind) scope
  return scope.leaveBlock

/-- The scope after a list of blocks, of which the first is at the given position. -/
def checkBlocks (f : Function) : Nat → Scope → List Block → Except ScopeError Scope
  | _, scope, [] => .ok scope
  | position, scope, b :: bs => do
    let scope ← f.checkBlock position scope b
    checkBlocks f (position + 1) scope bs

/-- The first violation of the scoping rules, if there is one. -/
def check (f : Function) : Except ScopeError Unit := do
  f.checkShape (f.vars.flatMap fun info => info.shape.getD [])
  let scope ← f.params.foldlM (f.checkDefinition .plain) {}
  let scope ← f.checkBlocks 0 scope f.blocks
  f.checkExpr scope f.body

end Function

end TensorIR
