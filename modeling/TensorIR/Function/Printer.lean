import TensorIR.Decimal.Shortest
import TensorIR.Function
import TensorIR.Text.Quoted

/-!
# Text of functions

A function prints as a script for people to read. Variables show as their names, which need not
tell them apart; a definition also shows the type and shape that are recorded of its variable:

    fn foo(x: Tensor[ndim=2, float32] (m, n)) {
      dataflow {
        lv0: Tensor[ndim=2, float32] (m, n) = tessel.multiply(x, x)
        gv0: Tensor[ndim=2, float32] (m, n) = tessel.add(lv0, x)
      }
      return gv0
    }

A read of a variable that is not allocated shows as `%n`. A definition of one has no text.
-/

namespace TensorIR

/-- Floats are written positionally from `0.0001` up to, but not including,
`10000000000000000.0`. -/
def Const.floatLayout : Decimal.Layout := ⟨-4, 16⟩

/-- A constant as text. -/
def Const.render : Const → String
  | int n => toString n.toInt
  | float bits => Const.floatLayout.render bits
  | bool b => toString b

/-- The text of a symbol that the host resolves. -/
def renderSymbol (symbol : String) : String := "extern(" ++ Text.quote symbol ++ ")"

/-- What a call calls, as it stands before the arguments. -/
def Callee.render : Callee → String
  | op o => o.name
  | external symbol => renderSymbol symbol
  | global name => "@" ++ name

/-- A device as its kind and its number. -/
def Device.render (d : Device) : String := d.kind.name ++ ":" ++ toString d.id

/-- A dimension and the cell that it is stored in. -/
def ShapeSlot.render (s : ShapeSlot) : String := toString s.dim ++ "->" ++ toString s.slot

/-- The attributes of a call, in braces after a space. -/
def Attrs.render : Attrs → String
  | none => ""
  | allocTensor elem => " \x7bdtype=" ++ elem.name ++ "\x7d"
  | allocStorage alignment device elem => " \x7balignment=" ++ toString alignment ++ ", device=" ++
      device.render ++ ", dtype=" ++ elem.name ++ "\x7d"
  | storeShape entries => " \x7b" ++ ", ".intercalate (entries.map ShapeSlot.render) ++ "\x7d"
  | loadShape slots => " \x7bslots=[" ++ ", ".intercalate (slots.map toString) ++ "]\x7d"

namespace Function

/-- The name of a variable that is read, or `%n` for one that is not allocated. -/
def renderRead (f : Function) (v : Var) : String :=
  (f.vars[v.index]?.map VarInfo.name).getD ("%" ++ toString v.index)

mutual

/-- An expression as text; a tuple of one field keeps a comma to be told from brackets. -/
def renderExpr (f : Function) : Expr → String
  | .var v => f.renderRead v
  | .shape s => s.render f.dimNames
  | .tuple fields =>
    let parts := ", ".intercalate (renderExprs f fields)
    if fields.length = 1 then "(" ++ parts ++ ",)" else "(" ++ parts ++ ")"
  | .item t i => renderExpr f t ++ "[" ++ toString i ++ "]"
  | .const c => c.render
  | .external symbol => renderSymbol symbol
  | .global name => "@" ++ name
  | .call head args =>
    head.callee.render ++ "(" ++ ", ".intercalate (renderExprs f args) ++ ")" ++ head.attrs.render

/-- The texts of a list of expressions. -/
def renderExprs (f : Function) : List Expr → List String
  | [] => []
  | e :: es => renderExpr f e :: renderExprs f es

end

/-- A variable at its definition, with what is recorded of it. -/
def renderDefinition (f : Function) (v : Var) : Except Unallocated String := do
  let info ← f.info v
  let ty := (info.ty.map fun t => ": " ++ t.render).getD ""
  let shape := (info.shape.map fun s => " " ++ s.render f.dimNames).getD ""
  return info.name ++ ty ++ shape

/-- A binding as a line of text. -/
def renderBinding (f : Function) : Binding → Except Unallocated String
  | .define v value => do
    return "    " ++ (← f.renderDefinition v) ++ " = " ++ f.renderExpr value ++ "\n"
  | .matchShape v? value pattern => do
    let target ← match v? with
      | some v => (· ++ " = ") <$> f.renderDefinition v
      | none => pure ""
    return "    " ++ target ++ "match_shape(" ++ f.renderExpr value ++ ", " ++
      pattern.render f.dimNames ++ ")\n"

/-- A block as text, its bindings indented below its keyword. -/
def renderBlock (f : Function) (b : Block) : Except Unallocated String := do
  let keyword := if b.isDataflow then "dataflow" else "block"
  let lines ← b.bindings.mapM f.renderBinding
  return "  " ++ keyword ++ " \x7b\n" ++ String.join lines ++ "  \x7d\n"

/-- A function as text, or the first identifier in it that has no record. -/
def render (f : Function) : Except Unallocated String := do
  let params ← f.params.mapM f.renderDefinition
  let ret := (f.retTy.map fun t => " -> " ++ t.render).getD ""
  let blocks ← f.blocks.mapM f.renderBlock
  return "fn " ++ f.name ++ "(" ++ ", ".intercalate params ++ ")" ++ ret ++ " \x7b\n" ++
    String.join blocks ++ "  return " ++ f.renderExpr f.body ++ "\n\x7d"

end Function

end TensorIR
