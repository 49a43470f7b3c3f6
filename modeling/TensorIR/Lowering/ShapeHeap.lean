import TensorIR.Lowering.Emitter
import TensorIR.Lowering.ShapeHeap.Layout

/-!
# Shapes on a heap

The virtual machine has no symbolic integers. A function with symbolic shapes is made to keep them
on a shape heap, a flat tensor of integers with the slots of a `HeapLayout`.

The first block allocates the heap. Parameters whose recorded shape binds dimension variables have
their run-time shape queried and stored. Then the bindings follow in order: a matched shape stores
the variables that it is first to bind, and its variable, if any, becomes an alias of the value; in
all other values a symbolic shape becomes a load from the heap.

Right before a load of a computed slot that is not current, a new block begins with a call of the
generated heap function, which computes every computed slot from the variables. A computed slot is
current after the first call at which all of its variables are stored. Until then it holds whatever
the calls so far have left there, and it is not loaded.

Functions without symbolic shapes are left as they are. A heap function is generated for a function
with computed slots only. It is put after all definitions of the module, under the first name that
is free of the base name, `base_1`, `base_2` and so on.
-/

namespace TensorIR

namespace ShapeHeap

/-- What stays the same while a function is lowered. -/
structure Context where
  function : Function
  layout : HeapLayout
  /-- The name of the generated heap function, if there are computed slots. -/
  shapeFunction : Option String
  heap : Var

/-- How far the lowering of a function has come. -/
structure State where
  builder : Builder
  /-- The dimension variables whose values are on the heap. -/
  stored : List DimVar := []
  /-- The computed dimensions whose values are on the heap. -/
  current : List Dim := []

/-- Whether all variables of a dimension are among those given. -/
def ready (stored : List DimVar) (d : Dim) : Bool := d.vars.all stored.contains

/-- The positions of the dimension variables that a shape binds and that are not stored yet, each
variable at its first position. -/
def newVars (stored : List DimVar) : Nat → Shape → List (Nat × DimVar)
  | _, [] => []
  | position, .var v :: dims =>
    if stored.contains v then newVars stored (position + 1) dims
    else (position, v) :: newVars (v :: stored) (position + 1) dims
  | position, .int _ :: dims | position, .binary .. :: dims => newVars stored (position + 1) dims

namespace State

/-- Emits a call and gives the variable that names its result. -/
def emit (st : State) (name : String) (call : Expr) : State × Var :=
  let (b, v) := st.builder.emitNamed name call
  ({ st with builder := b }, v)

/-- Emits the query for the run-time shape of a tensor. -/
def queryShape (st : State) (tensor : Expr) : State × Var :=
  st.emit "sh" (.ofCallee (.external Builtin.shapeOf) [tensor])

/-- Emits the store of the given dimensions of a shape value. -/
def store (cx : Context) (st : State) (shape : Expr) (new : List (Nat × DimVar)) : State :=
  let entries := new.map fun (dim, v) => ⟨dim, cx.layout.varSlot v⟩
  let (st, _) := st.emit "_" (.ofOp .vmStoreShape [shape, .var cx.heap] (.storeShape entries))
  { st with stored := new.map Prod.snd ++ st.stored }

/-- Whether a computed dimension of a shape is not current. -/
def isStale (st : State) (s : Shape) : Bool :=
  s.any fun d => d.asVar?.isNone && !st.current.contains d

/-- Emits a call of the heap function at the start of a new block. -/
def refresh (cx : Context) (st : State) : State :=
  match cx.shapeFunction with
  | none => st
  | some name =>
    let st := { st with builder := st.builder.sealBlock }
    let (st, _) := st.emit "_" (.ofCallee (.global name) [.var cx.heap])
    { st with current := cx.layout.computed.filter (ready st.stored) }

/-- Emits the load of a symbolic shape. Every variable in it has to be stored. -/
def load (cx : Context) (st : State) (s : Shape) : Lowered (State × Var) :=
  match s.vars.find? fun v => !st.stored.contains v with
  | some v => do throw (.dimVarNotReady cx.function.name (← HeapLayout.dimName cx.function v))
  | none =>
    let st := if st.isStale s then st.refresh cx else st
    let slots := s.map cx.layout.slot
    .ok (st.emit "shape" (.ofOp .vmLoadShape [.var cx.heap] (.loadShape slots)))

mutual

/-- Emits the loads of the symbolic shapes of an expression, and gives the expression with the
loaded values in their place. -/
def lowerExpr (cx : Context) : Expr → State → Lowered (State × Expr)
  | .shape s, st =>
    if s.isSymbolic then do
      let (st, v) ← st.load cx s
      return (st, .var v)
    else return (st, .shape s)
  | .tuple fields, st => do
    let (st, fields) ← lowerExprs cx fields st
    return (st, .tuple fields)
  | .item t i, st => do
    let (st, t) ← lowerExpr cx t st
    return (st, .item t i)
  | .call head args, st => do
    let (st, args) ← lowerExprs cx args st
    return (st, .call head args)
  | .var v, st => return (st, .var v)
  | .const c, st => return (st, .const c)
  | .external s, st => return (st, .external s)
  | .global n, st => return (st, .global n)

/-- Emits the loads of the symbolic shapes of a list of expressions, from left to right. -/
def lowerExprs (cx : Context) : List Expr → State → Lowered (State × List Expr)
  | [], st => return (st, [])
  | e :: es, st => do
    let (st, e) ← lowerExpr cx e st
    let (st, es) ← lowerExprs cx es st
    return (st, e :: es)

end

/-- Defines an old variable as its lowered value, if the builder takes it. -/
def bind (cx : Context) (st : State) (v : Var) (value : Expr) : Lowered State := do
  let b ← building cx.function.name (st.builder.bind v value)
  return { st with builder := b }

/-- Stores the dimension variables that matching a value is first to bind. A value that is known to
be a shape is stored as it is; of any other the shape is queried. -/
def storePattern (cx : Context) (st : State) (value : Expr) (pattern : Shape) : State :=
  match newVars st.stored 0 pattern with
  | [] => st
  | new =>
    match value.inferTy? st.builder.vars with
    | some (.shape _) => st.store cx value new
    | _ =>
      let (st, v) := st.queryShape value
      st.store cx (.var v) new

/-- Stores the dimension variables that the recorded shape of a parameter is first to bind. -/
def storeParam (cx : Context) (st : State) (v : Var) : Lowered State := do
  let info ← looking (cx.function.info v)
  match newVars st.stored 0 (info.shape.getD []) with
  | [] => return st
  | new =>
    let (st, shape) := st.queryShape (.var v)
    return st.store cx (.var shape) new

/-- A variable that a binding defines must not be a dataflow variable. -/
def checkDefined (cx : Context) (st : State) : Option Var → Lowered Unit
  | none => .ok ()
  | some v => do
    let info ← looking (st.builder.info v)
    if info.isDataflow then throw (.unconvertedDataflowVar cx.function.name info.name)

/-- Lowers a binding: the shapes in its value become loads, its pattern is stored, and its variable
is defined again. -/
def lowerBinding (cx : Context) (st : State) (binding : Binding) : Lowered State := do
  st.checkDefined cx binding.defined?
  let (st, value) ← lowerExpr cx binding.value st
  match binding with
  | .define v _ => st.bind cx v value
  | .matchShape v? _ pattern =>
    let st := st.storePattern cx value pattern
    match v? with
    | some v => st.bind cx v value
    | none => return st

end State

/-- The state after the block that allocates the heap, and the variable that names it. -/
def start (f : Function) (layout : HeapLayout) : State × Var :=
  let size := (int64? layout.size).getD Int64.maxValue
  let call := .ofCallee (.external Builtin.allocShapeHeap) [.shape (.ofInts [size])]
  let (b, heap) := (Builder.reopen f).emitNamed "shape_heap" call
  ({ builder := b.sealBlock }, heap)

/-- Lowers a function with the given layout of its heap. -/
def lower (f : Function) (layout : HeapLayout) (shapeFunction : Option String) :
    Lowered Function := do
  let (st, heap) := start f layout
  let cx : Context := { function := f, layout, shapeFunction, heap }
  let st ← f.params.foldlM (State.storeParam cx) st
  let st ← f.bindings.foldlM (State.lowerBinding cx) st
  let st := { st with builder := st.builder.sealBlock }
  let (st, body) ← State.lowerExpr cx f.body st
  building f.name (st.builder.finish body)

/-- The candidates for a name: the base, then the base with a number. -/
def candidate (base : String) : Nat → String
  | 0 => base
  | n + 1 => base ++ "_" ++ toString (n + 1)

/-- The first candidate that is not taken. Among one more candidate than there are names taken, one
is free. -/
def freeName (base : String) (taken : List String) : String :=
  let candidates := (List.range (taken.length + 1)).map (candidate base)
  (candidates.find? fun name => !taken.contains name).getD base

/-- Lowers a function, and gives the heap function that it needs, if it needs one. -/
def lowerFunction (base : String) (taken : List String) (f : Function) :
    Lowered (Function × Option HeapFunction) :=
  match f.symbolicShapes with
  | [] => .ok (f, none)
  | shapes => do
    let layout ← HeapLayout.plan f shapes
    if layout.computed.isEmpty then
      let f ← lower f layout none
      return (f, none)
    else
      let name := freeName base taken
      let f ← lower f layout (some name)
      return (f, some (layout.heapFunction name))

/-- Lowers the functions of a list of definitions, and gives the heap functions that they need. -/
def lowerEntries (base : String) : List String → List (String × Item) →
    Lowered (List (String × Item) × List HeapFunction)
  | _, [] => .ok ([], [])
  | taken, (key, .heapFunction f) :: rest => do
    let (rest, generated) ← lowerEntries base taken rest
    return ((key, .heapFunction f) :: rest, generated)
  | taken, (key, .function f) :: rest => do
    let (f, needed) ← lowerFunction base taken f
    let (rest, generated) ← lowerEntries base (needed.toList.map HeapFunction.name ++ taken) rest
    return ((key, .function f) :: rest, needed.toList ++ generated)

end ShapeHeap

/-- The module with the symbolic shapes of its functions on heaps. The heap functions that this
needs are named after `base`. -/
def Module.heapShapes (base : String) (m : Module) : Lowered Module := do
  let (entries, generated) ← ShapeHeap.lowerEntries base m.names m.entries
  return .ofEntries (entries ++ generated.map fun f => (f.name, .heapFunction f))

end TensorIR
