import TensorIR.Function.Traversal
import TensorIR.Lowering.Emitter

/-!
# Fusion of multiplication and addition

In a dataflow block, an addition whose first operand is a product from earlier in the block becomes
one fused operation:

    t = multiply(a, b)
    s = add(t, c)        becomes        s = ewise_fma(a, b, c)

The product must have no other reader in the function. Its binding stays behind without a reader.

The variable `s` is kept if what is recorded of it is what the fused call has by inference.
Otherwise a new variable of the same kind takes its place, and later reads of `s` are renamed to it.
Plain blocks change only by that renaming.
-/

namespace TensorIR

/-- What fusion remembers from one binding to the next. -/
structure Fusion where
  /-- The variables that a new one has taken the place of. -/
  renames : Renaming := []
  /-- The operands of the products of the block at hand. -/
  products : List (Var × Expr × Expr) := []

namespace Fusion

/-- The factors, if the value is a product of two operands. -/
def product? : Expr → Option (Expr × Expr)
  | .call head [a, b] => if head.callee = .op .multiply then some (a, b) else none
  | _ => none

/-- The operands of the fused operation that stands for an addition to a product of the block, if
the addition is the only reader of the product in the function. -/
def fused? (f : Function) (s : Fusion) : Expr → Option (List Expr)
  | .call head [.var t, c] =>
    if head.callee = .op .add ∧ f.useCount t = 1 then
      (s.products.lookup t).map fun (a, b) => [a, b, c]
    else none
  | _ => none

/-- Emits a fused operation in the place of the addition that defines `v`. -/
def emitFused (f : Function) (v : Var) (value : Expr) (s : Fusion) (b : Builder) :
    Lowered (Fusion × Builder) := do
  let shape := value.inferShape? b.vars
  let ty := value.inferTy? b.vars
  let info ← looking (b.info v)
  if info.shape = shape ∧ info.ty = ty then
    let b ← building f.name (b.bind v value)
    return (s, b)
  else
    let (b, w) := b.fresh { info with shape, ty }
    let b ← building f.name (b.bind w value)
    return ({ s with renames := (v, w) :: s.renames }, b)

/-- Emits a binding: products in dataflow blocks are remembered, sums that can be fused are fused,
and anything else is kept with renamed reads. -/
def emitter (f : Function) : Emitter Fusion := fun _ binding s b => do
  let binding := binding.substitute s.renames
  let keep (s : Fusion) : Lowered (Fusion × Builder) := do
    let b ← building f.name (b.push binding)
    return (s, b)
  match binding with
  | .matchShape .. => keep s
  | .define v value =>
    if b.inDataflow then
      match product? value, s.fused? f value with
      | some operands, _ => keep { s with products := (v, operands) :: s.products }
      | none, some operands => emitFused f v (.ofOp .fma operands) s b
      | none, none => keep s
    else keep s

end Fusion

/-- The function with its single-use products fused into the additions that read them. -/
def Function.fuse (f : Function) : Lowered Function := do
  let forgetProducts (s : Fusion) : Fusion := { s with products := [] }
  let (s, b) ← (Fusion.emitter f).emitBlocks forgetProducts f.name 0 f.blocks {} (.reopen f)
  building f.name (b.finish (f.body.substitute s.renames))

end TensorIR
