import TensorIR.Expr

/-!
# Inference of shapes and types

What is known statically of the value of an expression. Inference is local: a variable has what the
list of variables records of it, and a call has what is annotated on it or, failing that, what the
rule of its callee gives from its arguments. `none` means not known and is never an error.

A rule sees the types of its operands only, and no part of the call is an operand twice, so each
subexpression is visited at most once, however deep the calls are nested.
-/

namespace TensorIR

namespace Callee

/-- The shape of the result of a call from its arguments and their shapes. Elementwise operators
broadcast; an allocation has the shape that it is given, if that is spelled out. -/
def resultShape? (callee : Callee) (args : List Expr) (shapes : List (Option Shape)) :
    Option Shape :=
  match callee with
  | op .add | op .multiply | op .fma => Shape.broadcastAll? shapes
  | op .callDps | op .allocTensor => args[0]?.bind Expr.shapeLiteral?
  | op .vmAllocTensor => args[2]?.bind Expr.shapeLiteral?
  | op .callPacked | op .vmAllocStorage | op .vmStoreShape | op .vmLoadShape => none
  | external symbol =>
    if symbol = Builtin.allocShapeHeap then args[0]?.bind Expr.shapeLiteral? else none
  | global _ => none

end Callee

namespace Ty

/-- The type of an elementwise result of two operands: of the element type that both have, and of
the larger rank where both are known. -/
def elementwise? : Ty → Ty → Option Ty
  | tensor r e, tensor r' e' =>
    if e = e' then some (tensor (r.bind fun m => r'.map (max m)) e) else none
  | _, _ => none

/-- The type of an elementwise result of a list of operands, taken in order; unknown if there are
none or if one is not known to be a tensor. -/
def elementwiseAll? : List (Option Ty) → Option Ty
  | some (tensor r e) :: rest => rest.foldlM (fun acc t => t.bind acc.elementwise?) (tensor r e)
  | _ => none

/-- The length of a shape value of this type, if it is one and the length is known. -/
def shapeLength? : Ty → Option Nat
  | shape n => n
  | tensor .. | object | tuple _ => none

/-- The rank of a tensor of this type, if it is one and the rank is known. -/
def rank? : Ty → Option Nat
  | tensor r _ => r
  | shape _ | object | tuple _ => none

end Ty

namespace CallHead

/-- The type of the result of a call from its arguments and the types of its operands. Those are the
inputs of a destination-passing call, and the arguments of any other call. -/
def resultTy? (head : CallHead) (args : List Expr) (operandTys : List (Option Ty)) : Option Ty :=
  match head.callee with
  | .op .add | .op .multiply | .op .fma => Ty.elementwiseAll? operandTys
  | .op .callDps => do
    let out ← args[0]?.bind Expr.shapeLiteral?
    return .tensor (some out.length) ((operandTys.findSome? (·.bind Ty.elem?)).getD .float32)
  | .op .allocTensor => do
    let out ← args[0]?.bind Expr.shapeLiteral?
    return .tensor (some out.length) (← head.attrs.elem?)
  | .op .vmAllocTensor => do
    let out ← operandTys[2]?
    return .tensor (out.bind Ty.shapeLength?) (← head.attrs.elem?)
  | .op .vmAllocStorage => some .object
  | .op .callPacked | .op .vmStoreShape => some .unit
  | .op .vmLoadShape =>
    match head.attrs with
    | .loadShape slots => some (.shape (some slots.length))
    | _ => some (.shape none)
  | .external symbol =>
    if symbol = Builtin.shapeOf then operandTys[0]?.map fun t => .shape (t.bind Ty.rank?)
    else if symbol = Builtin.allocShapeHeap then some (.tensor (some 1) .int64)
    else none
  | .global _ => none

end CallHead

namespace Expr

mutual

/-- What is known of the shape of an expression, where `vars` records the variables. -/
def inferShape? (vars : List VarInfo) : Expr → Option Shape
  | var v => vars[v.index]?.bind VarInfo.shape
  | const _ => some []
  | call head args => head.shape <|> head.callee.resultShape? args (inferShapes vars args)
  | shape _ | tuple _ | item .. | external _ | global _ => none

/-- What is inferred of the shapes of a list of expressions. -/
def inferShapes (vars : List VarInfo) : List Expr → List (Option Shape)
  | [] => []
  | e :: es => e.inferShape? vars :: inferShapes vars es

end

theorem inferShapes_eq_map (vars : List VarInfo) (es : List Expr) :
    inferShapes vars es = es.map (inferShape? vars) := by
  induction es with
  | nil => rfl
  | cons e es ih => rw [inferShapes, ih, List.map_cons]

mutual

/-- What is known of the type of an expression, where `vars` records the variables. -/
def inferTy? (vars : List VarInfo) : Expr → Option Ty
  | var v => vars[v.index]?.bind VarInfo.ty
  | shape s => some (.shape (some s.length))
  | tuple fields => ((inferTys vars fields).mapM id).map Ty.tuple
  | item t i =>
    match t.inferTy? vars with
    | some (.tuple fields) => fields[i]?
    | _ => none
  | const c => some (.tensor (some 0) c.elem)
  | external _ | global _ => none
  | call head args =>
    head.ty <|> head.resultTy? args
      (if head.callee = .op .callDps then inferInputTys vars args else inferTys vars args)

/-- What is inferred of the types of a list of expressions. -/
def inferTys (vars : List VarInfo) : List Expr → List (Option Ty)
  | [] => []
  | e :: es => e.inferTy? vars :: inferTys vars es

/-- What is known of the type of each input of a destination-passing call: of the components of the
third argument, where that is a tuple. -/
def inferInputTys (vars : List VarInfo) : List Expr → List (Option Ty)
  | _ :: _ :: tuple inputs :: _ => inferTys vars inputs
  | _ => []

end

theorem inferTys_eq_map (vars : List VarInfo) (es : List Expr) :
    inferTys vars es = es.map (inferTy? vars) := by
  induction es with
  | nil => rfl
  | cons e es ih => rw [inferTys, ih, List.map_cons]

end Expr

end TensorIR
