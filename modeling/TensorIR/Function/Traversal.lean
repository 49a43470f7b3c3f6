import TensorIR.Expr.Vars
import TensorIR.Function

/-!
# Traversal

The nodes of a function in post-order: the parameters; then for each binding of each block the
subexpressions of its value, the value, the definition and the binding, and after its last binding
the block; then the body. Every occurrence counts, so a variable that is read twice appears twice.

From the nodes come all occurrences of variables and the number of times that each is read.
-/

namespace TensorIR

/-- What a traversal of a function visits. -/
inductive Node where
  | param (v : Var)
  | define (v : Var)
  | expr (e : Expr)
  | binding (b : Binding)
  | block (b : Block)
deriving DecidableEq, Repr

/-- The variable that occurs at a node: as a parameter, a definition or a read. -/
def Node.occurrence? : Node → Option Var
  | param v | define v => some v
  | expr e => e.asVar?
  | binding _ | block _ => none

/-- The variable that is read where a node is visited. -/
def Node.read? : Node → Option Var
  | expr e => e.asVar?
  | param _ | define _ | binding _ | block _ => none

namespace Expr

mutual

/-- The subexpressions of an expression in post-order, itself last. -/
def subexprs : Expr → List Expr
  | tuple fields => subexprsAll fields ++ [tuple fields]
  | item t i => t.subexprs ++ [item t i]
  | call head args => subexprsAll args ++ [call head args]
  | var v => [var v]
  | shape s => [shape s]
  | const c => [const c]
  | external s => [external s]
  | global n => [global n]

/-- The subexpressions of a list of expressions, one after the other. -/
def subexprsAll : List Expr → List Expr
  | [] => []
  | e :: es => e.subexprs ++ subexprsAll es

end

theorem subexprsAll_eq_flatMap (es : List Expr) : subexprsAll es = es.flatMap subexprs := by
  induction es with
  | nil => rfl
  | cons e es ih => rw [subexprsAll, ih, List.flatMap_cons]

mutual

/-- The calls of an expression that are not part of another call, in order. -/
def outerCalls : Expr → List CallHead
  | call head _ => [head]
  | tuple fields => outerCallsAll fields
  | item t _ => t.outerCalls
  | var _ | shape _ | const _ | external _ | global _ => []

/-- The outermost calls in a list of expressions, one after the other. -/
def outerCallsAll : List Expr → List CallHead
  | [] => []
  | e :: es => e.outerCalls ++ outerCallsAll es

end

end Expr

/-- The nodes of a binding: its value from the inside out, then what it defines, then itself. -/
def Binding.nodes (b : Binding) : List Node :=
  b.value.subexprs.map .expr ++ (b.defined?.map Node.define).toList ++ [.binding b]

/-- The nodes of a block: those of its bindings, then itself. -/
def Block.nodes (b : Block) : List Node := b.bindings.flatMap Binding.nodes ++ [.block b]

namespace Function

/-- All nodes of a function in the order of a traversal. -/
def nodes (f : Function) : List Node :=
  f.params.map .param ++ f.blocks.flatMap Block.nodes ++ f.body.subexprs.map .expr

/-- Every occurrence of a variable, as parameter, definition or read, in post-order. -/
def occurrences (f : Function) : List Var := f.nodes.filterMap Node.occurrence?

/-- The variables that a function reads, in the order of a traversal and as often as they are
read. -/
def reads (f : Function) : List Var := f.nodes.filterMap Node.read?

/-- How often a variable is read, by the body or the value of a binding. -/
def useCount (f : Function) (v : Var) : Nat := f.reads.count v

/-- The variables that are read, in increasing order, each with the number of its reads. -/
def useCounts (f : Function) : List (Var × Nat) :=
  let read := f.reads.eraseDups.mergeSort fun v w => v.index ≤ w.index
  read.map fun v => (v, f.useCount v)

/-- The calls of a function that are not part of another call, in program order. -/
def outerCalls (f : Function) : List CallHead :=
  f.bindings.flatMap (fun b => b.value.outerCalls) ++ f.body.outerCalls

end Function

end TensorIR
