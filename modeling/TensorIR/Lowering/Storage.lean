import TensorIR.Lowering.Emitter

/-!
# Storage for tensors

An abstract allocation

    v = alloc_tensor(shape) {dtype}

becomes a block of raw storage and a typed view of it:

    storage = vm.alloc_storage((bytes,)) {alignment, device, dtype}
    v = vm.alloc_tensor(storage, (0,), shape) {dtype}

where `bytes` is the product of the dimensions and the width of an element, folded. A
`call_packed(kernel, (inputs...), out)` becomes the direct call `kernel(inputs..., out)`.
-/

namespace TensorIR

/-- The number of bytes that a tensor of the shape takes. -/
def Shape.storageBytes (s : Shape) (elem : ElemType) : Dim :=
  Dim.fold .mul s.numElements (.int elem.bytes)

/-- Where storage is allocated, and how it is aligned, in bytes. -/
structure StorageTarget where
  alignment : Nat := 64
  device : Device := .cpu
deriving DecidableEq, Repr

namespace StorageTarget

/-- The shape and element type of an allocation, from its arguments and attributes. -/
def allocation : List Expr → Attrs → Except CallFault (Shape × ElemType)
  | [.shape shape], .allocTensor elem => .ok (shape, elem)
  | [.shape _], _ => .error .allocElem
  | _, _ => .error .allocArguments

/-- Emits the storage of a tensor and the view of it that `v` names. -/
def emitAllocation (target : StorageTarget) (f : Function) (position : Nat) (v : Var)
    (args : List Expr) (attrs : Attrs) (b : Builder) : Lowered Builder := do
  let (shape, elem) ← (allocation args attrs).mapError (.malformedCall f.name position)
  let storage := .ofOp .vmAllocStorage [.shape [shape.storageBytes elem]]
    (.allocStorage target.alignment target.device elem)
  let (b, w) := b.emitNamed "storage" storage
  let view := .ofOp .vmAllocTensor [.var w, .shape (.ofInts [0]), .shape shape] (.allocTensor elem)
  building f.name (b.bind v view)

end StorageTarget

/-- The direct call that a `call_packed` stands for, from its arguments. -/
def directCall : List Expr → Except CallFault Expr
  | [.external kernel, .tuple inputs, out] =>
    .ok (.ofCallee (.external kernel) (inputs ++ [out]))
  | [.external _, _, _] => .error .packedInputs
  | [_, _, _] => .error .packedCallee
  | args => .error (.packedArity args.length)

/-- The function with its tensors placed in storage and its kernels called directly. -/
def Function.placeTensors (target : StorageTarget) (f : Function) : Lowered Function :=
  f.replaceBindings fun position binding b =>
    match binding with
    | .define v (.call ⟨.op .allocTensor, attrs, _, _⟩ args) =>
      target.emitAllocation f position v args attrs b
    | .define v (.call ⟨.op .callPacked, _, _, _⟩ args) => do
      let call ← (directCall args).mapError (.malformedCall f.name position)
      building f.name (b.bind v call)
    | _ => building f.name (b.push binding)

end TensorIR
