import TensorIR.Lowering.Emitter

/-!
# Demotion of dataflow blocks

Every dataflow block becomes a plain block. Each variable that it defines, output or not, is
replaced by a new plain variable with the same record, and every later read is renamed. Parameters
and variables of plain blocks are kept.

Nothing of the dataflow kind may remain: a dataflow variable that is read or defined where no new
variable stands for it is an error.
-/

namespace TensorIR

namespace Demotion

/-- The error for a dataflow variable that remains. -/
def unconverted (f : Function) (info : VarInfo) : LoweringError :=
  .unconvertedDataflowVar f.name info.name

/-- None of the variables may be a dataflow variable. -/
def checkPlain (f : Function) (b : Builder) : List Var → Lowered Unit
  | [] => .ok ()
  | v :: vs => do
    let info ← looking (b.info v)
    if info.isDataflow then throw (unconverted f info)
    checkPlain f b vs

/-- Emits a binding of a block of the given kind with its variable demoted. -/
def emitBinding (f : Function) (kind : BlockKind) (binding : Binding) (ρ : Renaming)
    (b : Builder) : Lowered (Renaming × Builder) := do
  let binding := binding.substitute ρ
  checkPlain f b binding.value.reads
  match binding.defined? with
  | none =>
    let b ← building f.name (b.push binding)
    return (ρ, b)
  | some v =>
    let info ← looking (b.info v)
    match kind with
    | .dataflow =>
      let (b, w) := b.fresh { info with kind := .plain }
      let b ← building f.name (b.push (binding.withDefined w))
      return ((v, w) :: ρ, b)
    | .plain =>
      if info.isDataflow then throw (unconverted f info)
      let b ← building f.name (b.push binding)
      return (ρ, b)

/-- Emits the bindings of one block in order. -/
def emitBindings (f : Function) (kind : BlockKind) :
    List Binding → Renaming → Builder → Lowered (Renaming × Builder)
  | [], ρ, b => .ok (ρ, b)
  | x :: xs, ρ, b => do
    let (ρ, b) ← emitBinding f kind x ρ b
    emitBindings f kind xs ρ b

/-- Emits blocks in order, each as a block of its own. -/
def emitBlocks (f : Function) : List Block → Renaming → Builder → Lowered (Renaming × Builder)
  | [], ρ, b => .ok (ρ, b)
  | block :: blocks, ρ, b => do
    let (ρ, b) ← emitBindings f block.kind block.bindings ρ b
    emitBlocks f blocks ρ b.sealBlock

end Demotion

/-- The function with plain blocks and plain variables only. -/
def Function.demote (f : Function) : Lowered Function := do
  let (ρ, b) ← Demotion.emitBlocks f f.blocks [] (.reopen f)
  let body := f.body.substitute ρ
  Demotion.checkPlain f b body.reads
  building f.name (b.finish body)

end TensorIR
