import TensorIR.Dim

/-!
# Shapes

A shape is the list of a tensor's dimensions, outermost first.

Two shapes broadcast by aligning their last dimensions. Where both have a dimension, equal ones are
kept and a literal `1` yields to the other; where only one has, it is kept. Two dimensions that are
neither equal nor `1` cannot be reconciled without their values, and the result is unknown.
-/

namespace TensorIR

/-- The dimensions of a tensor, outermost first. -/
abbrev Shape := List Dim

namespace Shape

/-- The shape with literal dimensions. -/
def ofInts (ns : List Int64) : Shape := ns.map Dim.int

/-- Whether some dimension is not a literal, so that the shape is known only at run time. -/
def isSymbolic (s : Shape) : Bool := s.any fun d => d.literal?.isNone

/-- The product of the dimensions from left to right, folded. -/
def numElements (s : Shape) : Dim := s.foldl (Dim.fold .mul) (.int 1)

/-- The dimension variables of a shape from left to right, one entry for each occurrence. -/
def vars (s : Shape) : List DimVar := s.flatMap Dim.vars

/-- The dimensions of a shape have values one by one. -/
theorem eval_cons {ρ : DimVar → Option Int64} {d : Dim} {s : Shape} {ns : List Int64} :
    (d :: s).mapM (Dim.eval ρ) = some ns ↔
      ∃ n rest, ns = n :: rest ∧ d.eval ρ = some n ∧ s.mapM (Dim.eval ρ) = some rest := by
  rw [List.mapM_cons]
  constructor
  · intro h
    obtain ⟨n, head, h⟩ := Option.bind_eq_some_iff.1 h
    obtain ⟨rest, tail, same⟩ := Option.bind_eq_some_iff.1 h
    exact ⟨n, rest, (Option.some.inj same).symm, head, tail⟩
  · rintro ⟨n, rest, rfl, head, tail⟩
    rw [head, tail]
    rfl

/-- A shape in parentheses; one with a single dimension keeps a comma, as a tuple does. -/
def render (names : List String) (s : Shape) : String :=
  let dims := ", ".intercalate (s.map (Dim.render names 0))
  if s.length = 1 then "(" ++ dims ++ ",)" else "(" ++ dims ++ ")"

end Shape

/-- The dimension that two aligned dimensions broadcast to. -/
def Dim.join? (a b : Dim) : Option Dim :=
  if a = b ∨ b = .int 1 then some a
  else if a = .int 1 then some b
  else none

namespace Shape

/-- Broadcasting of shapes that are listed innermost dimension first. -/
def broadcastInner? : Shape → Shape → Option Shape
  | [], bs => some bs
  | a :: as, [] => some (a :: as)
  | a :: as, b :: bs => do
    let dim ← a.join? b
    let dims ← broadcastInner? as bs
    return dim :: dims

/-- The shape that two shapes broadcast to, if that is known without the values of variables. -/
def broadcast? (a b : Shape) : Option Shape :=
  (broadcastInner? a.reverse b.reverse).map List.reverse

/-- The shape that a list of operand shapes broadcasts to, taken in order; unknown if there are no
operands or the shape of one is unknown. -/
def broadcastAll? : List (Option Shape) → Option Shape
  | [] => none
  | first :: rest => rest.foldlM (fun acc s => s.bind acc.broadcast?) =<< first

end Shape

end TensorIR
