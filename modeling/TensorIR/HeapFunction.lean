import TensorIR.Arith

/-!
# Heap functions

Straight-line integer code on a heap of 64-bit cells. Lowering moves the arithmetic of all symbolic
shapes of a function into one such function: it reads the cells that hold dimension variables and
writes the dimensions computed from them.

Running a function stops at the first assignment that fails and leaves the heap as the assignments
before it made it.
-/

namespace TensorIR

/-- An integer expression over the cells of a heap. -/
inductive HeapExpr where
  | int (n : Int64)
  | load (slot : Nat)
  | binary (op : ArithOp) (lhs rhs : HeapExpr)
deriving DecidableEq, Repr

/-- One assignment: the cell to write and the arithmetic on other cells that gives its value. -/
structure HeapAssign where
  slot : Nat
  value : HeapExpr
deriving DecidableEq, Repr

/-- A sequence of assignments, for a heap of at least `heapSize` cells. -/
structure HeapFunction where
  name : String
  heapSize : Nat
  body : List HeapAssign
deriving DecidableEq, Repr

/-- Why a heap function stops. -/
inductive HeapError where
  | slotOutOfRange (slot heapSize : Nat)
  /-- The value of the cell overflows or divides by zero. -/
  | arithmetic (slot : Nat)
deriving DecidableEq, Repr

/-- The text with which the failure of a heap function is reported. -/
def HeapError.message : HeapError → String
  | slotOutOfRange slot heapSize => "heap slot " ++ toString slot ++ " out of range (heap has " ++
      toString heapSize ++ " slots)"
  | arithmetic slot => "arithmetic overflow or division by zero computing slot " ++ toString slot

namespace HeapExpr

/-- The value of an expression that is to be assigned to the cell `target`. -/
def eval (heap : List Int64) (target : Nat) : HeapExpr → Except HeapError Int64
  | int n => .ok n
  | load slot =>
    match heap[slot]? with
    | some n => .ok n
    | none => .error (.slotOutOfRange slot heap.length)
  | binary op lhs rhs => do
    let a ← lhs.eval heap target
    let b ← rhs.eval heap target
    match op.apply a b with
    | some n => .ok n
    | none => .error (.arithmetic target)

/-- The text of an expression in a place that needs at least the binding strength `level`. Operators
associate to the left. -/
def render (level : Nat) : HeapExpr → String
  | int n => toString n.toInt
  | load slot => "heap[" ++ toString slot ++ "]"
  | binary op lhs rhs =>
    let text := lhs.render op.precedence ++ " " ++ op.symbol ++ " " ++
      rhs.render (op.precedence + 1)
    if op.precedence < level then "(" ++ text ++ ")" else text

end HeapExpr

namespace HeapAssign

/-- The cells after one assignment; the value is computed before the cell is looked for. -/
def run (s : HeapAssign) (heap : List Int64) : Except HeapError (List Int64) := do
  let n ← s.value.eval heap s.slot
  if s.slot < heap.length then return heap.set s.slot n
  else throw (.slotOutOfRange s.slot heap.length)

/-- The heap after a list of assignments, or up to the one that fails, with the failure. -/
def runAll : List HeapAssign → List Int64 → List Int64 × Option HeapError
  | [], heap => (heap, none)
  | s :: ss, heap =>
    match s.run heap with
    | .ok heap' => runAll ss heap'
    | .error e => (heap, some e)

/-- An assignment as a line of text. -/
def render (s : HeapAssign) : String :=
  "  heap[" ++ toString s.slot ++ "] = " ++ s.value.render 0 ++ "\n"

end HeapAssign

namespace HeapFunction

/-- Runs a function: the heap it leaves, and the failure that stopped it, if one did. -/
def run (f : HeapFunction) (heap : List Int64) : List Int64 × Option HeapError :=
  HeapAssign.runAll f.body heap

/-- A heap function as text, one line for each assignment. -/
def render (f : HeapFunction) : String :=
  "scalar fn " ++ f.name ++ "(heap: int64[" ++ toString f.heapSize ++ "]) \x7b\n" ++
    String.join (f.body.map HeapAssign.render) ++ "\x7d"

end HeapFunction

end TensorIR
