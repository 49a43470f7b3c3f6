import TensorIR.Expr.Vars
import TensorIR.Lowering.Error
import TensorIR.Module

/-!
# Lowering binding by binding

A pass takes a module and makes a new one with the same names in the same order, each function
lowered and each heap function as it was.

Most passes lower a function one binding at a time: `emitBlocks` goes through the blocks, opens and
closes a region for each dataflow block, ends each plain block where the old one ended, and leaves
to an `Emitter` what is emitted for each binding. What the emitter has to remember it keeps in a
state of its own.
-/

namespace TensorIR

/-- Lowers every function of a module under its name and leaves heap functions alone; the first
failure ends it. -/
def Module.mapFunctions (m : Module) (lower : Function → Lowered Function) : Lowered Module := do
  let entries ← m.entries.mapM fun (name, item) =>
    match item with
    | .function f => do return (name, .function (← lower f))
    | .heapFunction f => return (name, .heapFunction f)
  return .ofEntries entries

/-- The binding with the reads of its value renamed. What it defines keeps its name. -/
def Binding.substitute (ρ : Renaming) (binding : Binding) : Binding :=
  binding.withValue (binding.value.substitute ρ)

/-- Emits what becomes of a binding, given its position in program order. -/
abbrev Emitter (σ : Type) := Nat → Binding → σ → Builder → Lowered (σ × Builder)

namespace Emitter

variable {σ : Type}

/-- Emits what becomes of a list of bindings, of which the first is at the given position. -/
def emitBindings (emit : Emitter σ) : Nat → List Binding → σ → Builder → Lowered (σ × Builder)
  | _, [], s, b => .ok (s, b)
  | position, x :: xs, s, b => do
    let (s, b) ← emit position x s b
    emitBindings emit (position + 1) xs s b

/-- Emits what becomes of a block, as a block of the same kind. -/
def emitBlock (emit : Emitter σ) (function : String) (position : Nat) (block : Block) (s : σ)
    (b : Builder) : Lowered (σ × Builder) :=
  match block.kind with
  | .dataflow => do
    let b ← building function b.openRegion
    let (s, b) ← emit.emitBindings position block.bindings s b
    let (b, closed) := b.closeRegion
    building function closed
    return (s, b)
  | .plain => do
    let (s, b) ← emit.emitBindings position block.bindings s b
    return (s, b.sealBlock)

/-- Emits what becomes of a list of blocks, of which the first begins at the given position. The
state passes through `enter` before each block. -/
def emitBlocks (emit : Emitter σ) (enter : σ → σ) (function : String) :
    Nat → List Block → σ → Builder → Lowered (σ × Builder)
  | _, [], s, b => .ok (s, b)
  | position, block :: blocks, s, b => do
    let (s, b) ← emit.emitBlock function position block (enter s) b
    emitBlocks emit enter function (position + block.bindings.length) blocks s b

end Emitter

/-- The function with each binding replaced by what becomes of it on its own. The body stays. -/
def Function.replaceBindings (f : Function)
    (emit : Nat → Binding → Builder → Lowered Builder) : Lowered Function := do
  let emitter : Emitter Unit := fun position binding _ b =>
    (fun b => ((), b)) <$> emit position binding b
  let (_, b) ← emitter.emitBlocks id f.name 0 f.blocks () (.reopen f)
  building f.name (b.finish f.body)

end TensorIR
