import TensorIR.Function
import TensorIR.HeapFunction
import TensorIR.Lowering.Error

/-!
# Layout of the shape heap

The slots that a function needs at run time for its symbolic shapes. Each dimension variable that a
parameter or a pattern binds has one, in the order of the first bindings; after them each distinct
dimension of a symbolic shape that is not a bare variable has one, in the order in which they are
first met. A shape is symbolic if one of its dimensions is not a literal; its literal dimensions
take slots as well.
-/

namespace TensorIR

namespace Expr

mutual

/-- The symbolic shapes of an expression from left to right. Annotations of calls are not among
them. -/
def symbolicShapes : Expr → List Shape
  | shape s => if s.isSymbolic then [s] else []
  | tuple fields => symbolicShapesAll fields
  | item t _ => t.symbolicShapes
  | call _ args => symbolicShapesAll args
  | var _ | const _ | external _ | global _ => []

/-- The symbolic shapes of a list of expressions, from left to right. -/
def symbolicShapesAll : List Expr → List Shape
  | [] => []
  | e :: es => e.symbolicShapes ++ symbolicShapesAll es

end

theorem symbolicShapesAll_eq_flatMap (es : List Expr) :
    symbolicShapesAll es = es.flatMap symbolicShapes := by
  induction es with
  | nil => rfl
  | cons e es ih => rw [symbolicShapesAll, ih, List.flatMap_cons]

end Expr

/-- The symbolic shapes of the values of all bindings and of the body, in program order. -/
def Function.symbolicShapes (f : Function) : List Shape :=
  f.bindings.flatMap (fun b => b.value.symbolicShapes) ++ f.body.symbolicShapes

/-- The slots of a shape heap: first those of dimension variables, then those of computed
dimensions. -/
structure HeapLayout where
  vars : List DimVar
  computed : List Dim
deriving DecidableEq, Repr

namespace HeapLayout

/-- The number of cells of the heap. -/
def size (layout : HeapLayout) : Nat := layout.vars.length + layout.computed.length

/-- The slot of a dimension variable. -/
def varSlot (layout : HeapLayout) (v : DimVar) : Nat := layout.vars.idxOf v

/-- The slot of a dimension that is a bare variable or among the computed ones. -/
def slot (layout : HeapLayout) : Dim → Nat
  | .var v => layout.varSlot v
  | d => layout.vars.length + layout.computed.idxOf d

/-- The dimension variables that stand alone in a shape, and so are bound by matching it. -/
def bound (s : Shape) : List DimVar := s.filterMap Dim.asVar?

/-- The recorded shapes of a list of parameters; those without one bind nothing. -/
def paramShapes (f : Function) : List Var → Lowered (List Shape)
  | [] => .ok []
  | v :: vs => do
    let info ← looking (f.info v)
    let shapes ← paramShapes f vs
    return info.shape.getD [] :: shapes

/-- The name of a dimension variable for the messages of a pass. -/
def dimName (f : Function) (v : DimVar) : Lowered String := looking (f.dimName v)

/-- The layout for a function, given its symbolic shapes. Every variable in them has to be bound. -/
def plan (f : Function) (shapes : List Shape) : Lowered HeapLayout := do
  let params ← paramShapes f f.params
  let patterns := f.bindings.filterMap Binding.pattern?
  let vars := ((params ++ patterns).flatMap bound).eraseDups
  match (shapes.flatMap Shape.vars).find? fun v => !vars.contains v with
  | some v => throw (.unboundDimVar f.name (← dimName f v))
  | none =>
    let computed := shapes.flatten.filter fun d => d.asVar?.isNone
    return ⟨vars, computed.eraseDups⟩

/-- A dimension as arithmetic on the slots of its variables. -/
def toHeap (layout : HeapLayout) : Dim → HeapExpr
  | .int n => .int n
  | .var v => .load (layout.varSlot v)
  | .binary op lhs rhs => .binary op (layout.toHeap lhs) (layout.toHeap rhs)

/-- The heap function that computes every computed slot from the slots of the variables. -/
def heapFunction (layout : HeapLayout) (name : String) : HeapFunction :=
  { name, heapSize := layout.size,
    body := layout.computed.map fun d => ⟨layout.slot d, layout.toHeap d⟩ }

end HeapLayout

end TensorIR
