import Mathlib.Data.List.Basic
import TensorIR.Function.Traversal
import TensorIR.Proofs.Emission

/-!
# The calls in an expression

`Expr.calls` lists all calls of an expression, the innermost first. What is annotated of a call does
not count, so annotating an expression leaves the list alone, and renaming variables renames them in
the arguments of each call.

The passes that rewrite calls look for them in one place only, as the whole value of a definition.
`Function.innerCalls` lists the calls that stand in any other place: in an argument or a tuple, in
the value of a matched shape, or in the body.
-/

namespace TensorIR

/-- A call without its annotations. -/
structure CallNode where
  callee : Callee
  attrs : Attrs
  args : List Expr
deriving DecidableEq, Repr

namespace Expr

/-- The call that the expression itself is, if it is one. -/
def callNode? : Expr → Option CallNode
  | call head args => some ⟨head.callee, head.attrs, args⟩
  | var _ | shape _ | tuple _ | item .. | const _ | external _ | global _ => none

/-- The calls of an expression in post-order. -/
def calls (e : Expr) : List CallNode := e.subexprs.filterMap callNode?

@[simp]
theorem calls_var (v : Var) : (var v).calls = [] := rfl

@[simp]
theorem calls_shape (s : Shape) : (shape s).calls = [] := rfl

@[simp]
theorem calls_external (symbol : String) : (external symbol).calls = [] := rfl

theorem calls_tuple (es : List Expr) : (tuple es).calls = es.flatMap calls := by
  rw [calls, subexprs, subexprsAll_eq_flatMap, List.filterMap_append, List.filterMap_flatMap]
  exact List.append_nil _

theorem calls_item (t : Expr) (i : Nat) : (item t i).calls = t.calls := by
  rw [calls, subexprs, List.filterMap_append]
  exact List.append_nil _

theorem calls_call (head : CallHead) (args : List Expr) :
    (call head args).calls = args.flatMap calls ++ [⟨head.callee, head.attrs, args⟩] := by
  rw [calls, subexprs, subexprsAll_eq_flatMap, List.filterMap_append, List.filterMap_flatMap]
  rfl

theorem calls_bare (e : Expr) : e.bare.calls = e.calls := by
  cases e with
  | call head args => rw [bare, calls_call, calls_call]
  | var _ | shape _ | tuple _ | item _ _ | const _ | external _ | global _ => rfl

theorem calls_annotate (vars : List VarInfo) (e : Expr) : (e.annotate vars).calls = e.calls := by
  cases e with
  | call head args => rw [annotate, calls_call, calls_call]
  | var _ | shape _ | tuple _ | item _ _ | const _ | external _ | global _ => rfl

end Expr

/-- The call with the variables in its arguments renamed. -/
def CallNode.rename (r : Var → Var) (node : CallNode) : CallNode :=
  { node with args := node.args.map (Expr.rename r) }

namespace Expr

theorem calls_rename (r : Var → Var) (e : Expr) :
    (e.rename r).calls = e.calls.map (CallNode.rename r) := by
  induction e using Expr.induction with
  | var _ | shape _ | const _ | external _ | global _ => rfl
  | item t i ih => rw [rename, calls_item, calls_item, ih]
  | tuple es ih =>
      rw [rename, renameAll_eq_map, calls_tuple, calls_tuple, List.flatMap_map, List.map_flatMap,
        List.flatMap_congr ih]
  | call head es ih =>
      rw [rename, renameAll_eq_map, calls_call, calls_call, List.flatMap_map, List.map_append,
        List.map_flatMap, List.flatMap_congr ih]
      rfl

/-- The calls of an expression without the expression itself. -/
def innerCalls : Expr → List CallNode
  | call _ args => args.flatMap calls
  | var v => (var v).calls
  | shape s => (shape s).calls
  | tuple fields => (tuple fields).calls
  | item t i => (item t i).calls
  | const c => (const c).calls
  | external s => (external s).calls
  | global n => (global n).calls

theorem innerCalls_call (head : CallHead) (args : List Expr) :
    (call head args).innerCalls = args.flatMap calls := rfl

theorem calls_eq_inner (e : Expr) : e.calls = e.innerCalls ++ e.callNode?.toList := by
  cases e with
  | call head args => exact calls_call head args
  | var _ | shape _ | tuple _ | item _ _ | const _ | external _ | global _ =>
      exact (List.append_nil _).symm

theorem innerCalls_bare (e : Expr) : e.bare.innerCalls = e.innerCalls := by
  cases e with
  | call _ _ | var _ | shape _ | tuple _ | item _ _ | const _ | external _ | global _ => rfl

theorem innerCalls_annotate (vars : List VarInfo) (e : Expr) :
    (e.annotate vars).innerCalls = e.innerCalls := by
  cases e with
  | call _ _ | var _ | shape _ | tuple _ | item _ _ | const _ | external _ | global _ => rfl

theorem innerCalls_rename (r : Var → Var) (e : Expr) :
    (e.rename r).innerCalls = e.innerCalls.map (CallNode.rename r) := by
  cases e with
  | call head args =>
      rw [rename, renameAll_eq_map, innerCalls, innerCalls, List.flatMap_map, List.map_flatMap,
        List.flatMap_congr fun e _ => calls_rename r e]
  | var v => exact calls_rename r (var v)
  | shape s => exact calls_rename r (shape s)
  | tuple fields => exact calls_rename r (tuple fields)
  | item t i => exact calls_rename r (item t i)
  | const c => exact calls_rename r (const c)
  | external s => exact calls_rename r (external s)
  | global n => exact calls_rename r (global n)

end Expr

/-- The calls of a binding, but for a call that is the whole value of a definition. -/
def Binding.innerCalls : Binding → List CallNode
  | .define _ value => value.innerCalls
  | .matchShape _ value _ => value.calls

theorem Binding.innerCalls_define (v : Var) (e : Expr) : (define v e).innerCalls = e.innerCalls :=
  rfl

namespace Function

/-- All calls of a function, in program order. -/
def calls (f : Function) : List CallNode :=
  f.bindings.flatMap (fun b => b.value.calls) ++ f.body.calls

/-- The calls of a function that are not the whole value of a definition. -/
def innerCalls (f : Function) : List CallNode :=
  f.bindings.flatMap Binding.innerCalls ++ f.body.calls

end Function

end TensorIR
