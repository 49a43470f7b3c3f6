import TensorIR.Builder

/-!
# Histories of a builder

Every operation on a builder as data, so that what a builder is put through can be written down,
replayed and reasoned about. An operation that is refused leaves the builder as it was, with one
exception: closing a region that lacks an output closes it all the same.
-/

namespace TensorIR.Builder

/-- The operations of a builder as data, so that a history of them is a list. -/
inductive Action where
  | param (name : String) (shape : Option Shape) (ty : Option Ty)
  | dimVar (name : String)
  | fresh (info : VarInfo)
  | setRetTy (ty : Ty)
  | openRegion
  | closeRegion
  | dropRegion
  | sealBlock
  | emit (value : Expr)
  | emitNamed (name : String) (value : Expr)
  | emitOutput (value : Expr)
  | bind (v : Var) (value : Expr)
  | push (binding : Binding)
  | pushBlock (block : Block)
deriving DecidableEq, Repr

/-- What an operation of a builder gives back. -/
inductive Answer where
  | done
  | var (v : Var)
  | dimVar (v : DimVar)
  | refused (e : BuildError)
deriving DecidableEq, Repr

/-- The outcome of an operation that allocates a variable. -/
def allocating : Builder × Var → Builder × Answer
  | (b, v) => (b, .var v)

/-- The outcome of an operation that can be refused: the builder it gives, or the builder before it
and the refusal. -/
def refusable (b : Builder) : Except BuildError Builder → Builder × Answer
  | .ok b' => (b', .done)
  | .error e => (b, .refused e)

/-- The builder after an operation, and its answer. -/
def perform (b : Builder) : Action → Builder × Answer
  | .param name shape ty => allocating (b.addParam name shape ty)
  | .dimVar name =>
    let (b', v) := b.addDimVar name
    (b', .dimVar v)
  | .fresh info => allocating (b.fresh info)
  | .setRetTy ty => (b.setRetTy ty, .done)
  | .openRegion => refusable b b.openRegion
  | .closeRegion =>
    match b.closeRegion with
    | (b', .ok ()) => (b', .done)
    | (b', .error e) => (b', .refused e)
  | .dropRegion => (b.dropRegion, .done)
  | .sealBlock => (b.sealBlock, .done)
  | .emit value => allocating (b.emit value)
  | .emitNamed name value => allocating (b.emitNamed name value)
  | .emitOutput value =>
    match b.emitOutput value with
    | .ok result => allocating result
    | .error e => (b, .refused e)
  | .bind v value => refusable b (b.bind v value)
  | .push binding => refusable b (b.push binding)
  | .pushBlock block => refusable b (b.pushBlock block)

/-- The builder after a history of operations, whatever their answers were. -/
def performAll (b : Builder) (actions : List Action) : Builder :=
  actions.foldl (fun b a => (b.perform a).1) b

end TensorIR.Builder
