import TensorIR.Expr.Inference
import TensorIR.Function.Scope

/-!
# Building functions

A builder holds a function in progress. Bindings are emitted one at a time and gather in a pending
block; a block ends when it is sealed, when a dataflow region opens or closes, and when a finished
block is pushed. Inside a region new variables are dataflow variables, which end with the region;
its outputs are plain variables, of which it should have one.

Emitting annotates: a call without a shape or type gets what can be inferred, and a new variable is
recorded with the shape and type of its value. A value that is bound to a variable that already
exists has to agree with what is recorded of it, wherever both are known.

A region can be closed on the spot, where a missing output is reported at once, or dropped, where
the first such report is kept for the end. `Builder.finish` closes the region that is still open,
raises what was kept, and hands out the function only if it is well formed.

`Builder.reopen` begins with the name, parameters, variables and return type of a function and none
of its blocks. Variables keep their positions, so emitting a binding of the old function again
keeps its identity.
-/

namespace TensorIR

/-- What the builder refuses, with the names and texts that its messages show. -/
inductive BuildError where
  | outputOutsideDataflow
  | nestedDataflow
  | dataflowWithoutOutput (block : Nat)
  | dataflowVarOutsideDataflow (var : String)
  /-- The texts of the recorded and of the inferred shape. -/
  | shapeMismatch (var expected found : String)
  /-- The texts of the recorded and of the inferred type. -/
  | tyMismatch (var expected found : String)
  | unknownVar (v : Var)
  | emptyBlock
  | illFormed (e : ScopeError)
deriving DecidableEq, Repr

/-- The text with which the builder reports a refusal. -/
def BuildError.message : BuildError → String
  | outputOutsideDataflow => "`emit_output` called outside a dataflow block"
  | nestedDataflow => "dataflow blocks cannot be nested"
  | dataflowWithoutOutput block => "dataflow block " ++ toString block ++ " has no output binding"
  | dataflowVarOutsideDataflow var => "dataflow var `" ++ var ++
      "` cannot be bound outside a dataflow block"
  | shapeMismatch var expected found => "`" ++ var ++ "` is annotated with shape " ++ expected ++
      " but its value has shape " ++ found
  | tyMismatch var expected found => "`" ++ var ++ "` is annotated with type " ++ expected ++
      " but its value has type " ++ found
  | unknownVar v => "variable id " ++ toString v.index ++ " is not allocated in this builder"
  | emptyBlock => "cannot append an empty block"
  | illFormed e => e.message

/-- The expression with a missing shape or type of a call filled in, if it can be inferred. Both are
inferred from the call as it was. Only the outermost call is annotated. -/
def Expr.annotate (vars : List VarInfo) : Expr → Expr
  | call head args =>
    let ty := (call head args).inferTy? vars
    let shape := (call head args).inferShape? vars
    call { head with shape, ty } args
  | var v => var v
  | shape s => shape s
  | tuple fields => tuple fields
  | item t i => item t i
  | const c => const c
  | external s => external s
  | global n => global n

/-- A function under construction: what has been closed into blocks, the bindings that wait for
their block to be closed, and the tables of identifiers. -/
structure Builder where
  name : String
  params : List Var := []
  vars : List VarInfo := []
  dimNames : List String := []
  retTy : Option Ty := none
  blocks : List Block := []
  pending : List Binding := []
  inDataflow : Bool := false
  /-- The first report of a dropped region. -/
  deferred : Option BuildError := none
  /-- The number of the next dataflow variable named by the builder. -/
  nextLocal : Nat := 0
  /-- The number of the next plain variable named by the builder. -/
  nextGlobal : Nat := 0
deriving DecidableEq, Repr

namespace Builder

/-- Opens a function for new blocks: all of it but its blocks and its body. -/
def reopen (f : Function) : Builder :=
  { name := f.name, params := f.params, vars := f.vars, dimNames := f.dimNames, retTy := f.retTy }

/-! ### Variables -/

/-- Allocates a variable without binding it. -/
def fresh (b : Builder) (info : VarInfo) : Builder × Var :=
  ({ b with vars := b.vars ++ [info] }, ⟨b.vars.length⟩)

/-- Allocates a plain variable and appends it to the parameters. -/
def addParam (b : Builder) (name : String) (shape : Option Shape) (ty : Option Ty) :
    Builder × Var :=
  let (b, v) := b.fresh ⟨name, .plain, shape, ty⟩
  ({ b with params := b.params ++ [v] }, v)

/-- Allocates a dimension variable; names need not be distinct. -/
def addDimVar (b : Builder) (name : String) : Builder × DimVar :=
  ({ b with dimNames := b.dimNames ++ [name] }, ⟨b.dimNames.length⟩)

/-- What is recorded of a variable, if the builder has allocated it. -/
def info (b : Builder) (v : Var) : Except Unallocated VarInfo :=
  match b.vars[v.index]? with
  | some info => .ok info
  | none => .error (.var v)

/-- Declares the return type, in the place of one that was declared before. -/
def setRetTy (b : Builder) (ty : Ty) : Builder := { b with retTy := some ty }

/-! ### Blocks -/

/-- Ends the block in progress, if it has a binding. -/
def endBlock (b : Builder) (kind : BlockKind) : Builder :=
  if b.pending.isEmpty then b
  else { b with blocks := b.blocks ++ [⟨kind, b.pending⟩], pending := [] }

/-- Ends the plain block in progress. Inside a region this does nothing. -/
def sealBlock (b : Builder) : Builder := if b.inDataflow then b else b.endBlock .plain

/-- Starts a dataflow block; bindings that wait are closed into a plain block first. -/
def openRegion (b : Builder) : Except BuildError Builder :=
  if b.inDataflow then .error .nestedDataflow
  else .ok { b.endBlock .plain with inDataflow := true }

/-- Whether a binding makes something visible after its region: a plain variable, or the values of
dimension variables. -/
def isOutput (b : Builder) : Binding → Bool
  | .define v _ => (b.vars[v.index]?.map fun info => !info.isDataflow).getD false
  | .matchShape .. => true

/-- Closes the region, if one is open. The region is closed also where it has bindings and none of
them is an output, which is reported. -/
def closeRegion (b : Builder) : Builder × Except BuildError Unit :=
  if b.inDataflow then
    ({ b.endBlock .dataflow with inDataflow := false },
      if b.pending.isEmpty || b.pending.any b.isOutput then .ok ()
      else .error (.dataflowWithoutOutput b.blocks.length))
  else (b, .ok ())

/-- Closes the region, if one is open, and keeps the first report of a missing output for the
end. -/
def dropRegion (b : Builder) : Builder :=
  match b.closeRegion with
  | (b, .ok ()) => b
  | (b, .error e) => { b with deferred := b.deferred <|> some e }

/-! ### Emission -/

/-- Lets a binding wait for the end of its block, without any check. -/
def append (b : Builder) (binding : Binding) : Builder :=
  { b with pending := b.pending ++ [binding] }

/-- Defines a new variable as the annotated value and records of it what is inferred of the
value. -/
def bindFresh (b : Builder) (name : String) (kind : VarKind) (value : Expr) : Builder × Var :=
  let value := value.annotate b.vars
  let (b', v) := b.fresh ⟨name, kind, value.inferShape? b.vars, value.inferTy? b.vars⟩
  (b'.append (.define v value), v)

/-- The kind of the variables that are emitted here. -/
def currentKind (b : Builder) : VarKind := if b.inDataflow then .dataflow else .plain

/-- Binds a value to a new variable that the builder names. -/
def emit (b : Builder) (value : Expr) : Builder × Var :=
  if b.inDataflow then
    { b with nextLocal := b.nextLocal + 1 }.bindFresh ("lv" ++ toString b.nextLocal) .dataflow value
  else
    { b with nextGlobal := b.nextGlobal + 1 }.bindFresh ("gv" ++ toString b.nextGlobal) .plain value

/-- Binds a value to a new variable of the given name. -/
def emitNamed (b : Builder) (name : String) (value : Expr) : Builder × Var :=
  b.bindFresh name b.currentKind value

/-- Binds a value to a new output of the region. -/
def emitOutput (b : Builder) (value : Expr) : Except BuildError (Builder × Var) :=
  if b.inDataflow then
    .ok <| { b with nextGlobal := b.nextGlobal + 1 }.bindFresh ("gv" ++ toString b.nextGlobal)
      .plain value
  else .error .outputOutsideDataflow

/-- What is recorded of a variable that is to be bound here. -/
def bindable (b : Builder) (v : Var) : Except BuildError VarInfo :=
  match b.vars[v.index]? with
  | none => .error (.unknownVar v)
  | some info =>
    if info.isDataflow && !b.inDataflow then .error (.dataflowVarOutsideDataflow info.name)
    else .ok info

/-- The recorded shape of a variable has to be the one that its value has. -/
def checkShape (b : Builder) (info : VarInfo) (value : Expr) : Except BuildError Unit :=
  match info.shape, value.inferShape? b.vars with
  | some expected, some found =>
    if expected = found then .ok ()
    else .error (.shapeMismatch info.name (expected.render b.dimNames) (found.render b.dimNames))
  | _, _ => .ok ()

/-- The recorded type of a variable has to be compatible with the one that its value has. -/
def checkTy (b : Builder) (info : VarInfo) (value : Expr) : Except BuildError Unit :=
  match info.ty, value.inferTy? b.vars with
  | some expected, some found =>
    if expected.compatible found then .ok ()
    else .error (.tyMismatch info.name expected.render found.render)
  | _, _ => .ok ()

/-- Binds a value to a variable that exists. -/
def bind (b : Builder) (v : Var) (value : Expr) : Except BuildError Builder := do
  let value := value.annotate b.vars
  let info ← b.bindable v
  b.checkShape info value
  b.checkTy info value
  return b.append (.define v value)

/-- Emits a binding as it is, but for annotations. -/
def push (b : Builder) : Binding → Except BuildError Builder
  | .define v value => b.bind v value
  | .matchShape none value pattern =>
    .ok (b.append (.matchShape none (value.annotate b.vars) pattern))
  | .matchShape (some v) value pattern => do
    let _ ← b.bindable v
    return b.append (.matchShape (some v) (value.annotate b.vars) pattern)

/-- Adds a whole block as it is. -/
def pushBlock (b : Builder) (block : Block) : Except BuildError Builder :=
  if b.inDataflow then .error .nestedDataflow
  else if block.bindings.isEmpty then .error .emptyBlock
  else
    let b := b.endBlock .plain
    .ok { b with blocks := b.blocks ++ [block] }

/-! ### The finished function -/

/-- The function with the bindings so far and the given result, unchecked. -/
def toFunction (b : Builder) (body : Expr) : Function :=
  let b := b.endBlock .plain
  { name := b.name, params := b.params, blocks := b.blocks, body, retTy := b.retTy, vars := b.vars,
    dimNames := b.dimNames }

/-- The finished function, if no region lacks an output and the function is well formed. -/
def finish (b : Builder) (body : Expr) : Except BuildError Function := do
  let (b, closed) := b.closeRegion
  closed
  match b.deferred with
  | some e => throw e
  | none =>
    let f := b.toFunction body
    f.check.mapError .illFormed
    return f

end Builder

end TensorIR
