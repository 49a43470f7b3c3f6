import TensorIR.Lowering.Emitter

/-!
# Destinations for kernels

A call in destination-passing style

    v = call_dps(shape, kernel, (a, b))

becomes the allocation of its output, followed by a call of the kernel that writes into it, with the
destination as the last argument:

    v = alloc_tensor(shape) {dtype}
    _ = kernel(a, b, v)

The variable `v` is kept and now names the tensor that was allocated.
-/

namespace TensorIR

/-- The arguments of a call in destination-passing style: the shape of the output, the kernel that
fills it, and what the kernel reads. -/
structure DpsCall where
  shape : Shape
  kernel : String
  inputs : List Expr

namespace DpsCall

/-- Reads the arguments of such a call, or says which one is not as it should be. -/
def ofArgs : List Expr → Except CallFault DpsCall
  | [.shape shape, .external kernel, .tuple inputs] => .ok ⟨shape, kernel, inputs⟩
  | [.shape _, .external _, _] => .error .dpsInputs
  | [.shape _, _, _] => .error .dpsCallee
  | [_, _, _] => .error .dpsShape
  | args => .error (.dpsArity args.length)

/-- The element type of the output of a call: that of the tensor type recorded of its variable, else
that of the first input that is known to be a tensor, else single-precision floats. -/
def outputElem (call : DpsCall) (info : VarInfo) (vars : List VarInfo) : ElemType :=
  let recorded := info.ty.bind Ty.elem?
  let ofInput := call.inputs.findSome? fun input => (input.inferTy? vars).bind Ty.elem?
  (recorded <|> ofInput).getD .float32

/-- Emits the allocation of the output and the call of the kernel. -/
def emit (f : Function) (position : Nat) (v : Var) (args : List Expr) (b : Builder) :
    Lowered Builder := do
  let call ← (ofArgs args).mapError (.malformedCall f.name position)
  let info ← looking (b.info v)
  let elem := call.outputElem info b.vars
  let b ← building f.name (b.bind v (.ofOp .allocTensor [.shape call.shape] (.allocTensor elem)))
  let kernelCall := .ofCallee (.external call.kernel) (call.inputs ++ [.var v])
  return (b.emitNamed "_" kernelCall).1

end DpsCall

/-- The function with each `call_dps` split into an allocation and a call of its kernel. -/
def Function.allocateOutputs (f : Function) : Lowered Function :=
  f.replaceBindings fun position binding b =>
    match binding with
    | .define v (.call ⟨.op .callDps, _, _, _⟩ args) => DpsCall.emit f position v args b
    | _ => building f.name (b.push binding)

end TensorIR
