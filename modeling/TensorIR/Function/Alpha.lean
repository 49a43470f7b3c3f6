import TensorIR.Function

/-!
# Alpha-equivalence

Two functions are equivalent when they differ only in the names and positions of their variables.
Definitions pair a variable of the one with a variable of the other, each at most once, and reads
have to follow the pairs. Variables that neither side defines are free and have to be the same.
Dimension variables are paired by their first occurrence. Names, of functions and variables, are not
compared.

Two expressions are compared in the same way, from no pairs.
-/

namespace TensorIR

/-- Pairs of identifiers of two functions. -/
abbrev Pairs (α : Type) := List (α × α)

namespace Pairs

variable {α : Type} [DecidableEq α]

/-- How two identifiers stand to the pairs made so far. -/
inductive Standing where
  | paired
  | free
  | clash
deriving DecidableEq, Repr

/-- What stands on the right beside an identifier on the left. -/
def right? (pairs : Pairs α) (a : α) : Option α := pairs.lookup a

/-- What stands on the left beside an identifier on the right. -/
def left? (pairs : Pairs α) (b : α) : Option α :=
  (pairs.find? fun pair => pair.2 = b).map Prod.fst

/-- How two identifiers stand to the pairs so far: both new, paired with each other, or at odds with
an earlier pair. -/
def standing (pairs : Pairs α) (a b : α) : Standing :=
  match pairs.right? a, pairs.left? b with
  | none, none => .free
  | some b', some a' => if b' = b ∧ a' = a then .paired else .clash
  | _, _ => .clash

end Pairs

/-- The identifiers of two functions that have been matched so far. -/
structure Pairing where
  vars : Pairs Var := []
  dims : Pairs DimVar := []
deriving DecidableEq, Repr

namespace Pairing

/-- Pairs two variables at their definitions; fails if either has a partner. -/
def define? (p : Pairing) (a b : Var) : Option Pairing :=
  match p.vars.standing a b with
  | .free => some { p with vars := (a, b) :: p.vars }
  | .paired | .clash => none

/-- Whether two reads agree: they follow a pair, or are of one and the same free variable. -/
def readsAgree (p : Pairing) (a b : Var) : Bool :=
  match p.vars.standing a b with
  | .paired => true
  | .free => a = b
  | .clash => false

/-- Follows the pair of two dimension variables, or makes it on first encounter. -/
def dimVar? (p : Pairing) (a b : DimVar) : Option Pairing :=
  match p.dims.standing a b with
  | .paired => some p
  | .free => some { p with dims := (a, b) :: p.dims }
  | .clash => none

/-- Matches two dimensions, from left to right. -/
def dim? : Dim → Dim → Pairing → Option Pairing
  | .int m, .int n, p => if m = n then some p else none
  | .var a, .var b, p => p.dimVar? a b
  | .binary op l r, .binary op' l' r', p =>
    if op = op' then dim? l l' p >>= dim? r r' else none
  | _, _, _ => none

/-- Matches two shapes dimension by dimension. -/
def shape? : Shape → Shape → Pairing → Option Pairing
  | [], [], p => some p
  | d :: ds, d' :: ds', p => dim? d d' p >>= shape? ds ds'
  | _, _, _ => none

/-- The pairing after two annotations that agree: both absent, or shapes that agree. -/
def annotation? (a b : Option Shape) (p : Pairing) : Option Pairing :=
  match a, b with
  | none, none => some p
  | some s, some t => shape? s t p
  | _, _ => none

mutual

/-- The pairing after two expressions that agree. -/
def expr? : Expr → Expr → Pairing → Option Pairing
  | .var a, .var b, p => if p.readsAgree a b then some p else none
  | .shape s, .shape t, p => shape? s t p
  | .tuple es, .tuple fs, p => exprs? es fs p
  | .item e i, .item f j, p => if i = j then expr? e f p else none
  | .const c, .const d, p => if c = d then some p else none
  | .external s, .external t, p => if s = t then some p else none
  | .global m, .global n, p => if m = n then some p else none
  | .call h es, .call k fs, p =>
    if h.callee = k.callee ∧ h.attrs = k.attrs ∧ h.ty = k.ty then
      exprs? es fs p >>= annotation? h.shape k.shape
    else none
  | _, _, _ => none

/-- Matches two lists of expressions place by place. -/
def exprs? : List Expr → List Expr → Pairing → Option Pairing
  | [], [], p => some p
  | e :: es, f :: fs, p => expr? e f p >>= exprs? es fs
  | _, _, _ => none

end

/-- Matches what is recorded of two variables; their names do not matter. -/
def info? (a b : VarInfo) (p : Pairing) : Option Pairing :=
  if a.kind = b.kind ∧ a.ty = b.ty then annotation? a.shape b.shape p else none

end Pairing

/-- Whether two expressions are equal, with dimension variables paired by first occurrence. -/
def Expr.alphaEq (a b : Expr) : Bool := (Pairing.expr? a b {}).isSome

/-- Why a comparison of two functions ends early. -/
inductive Mismatch where
  | different
  /-- One of them defines a variable that it does not allocate. -/
  | unallocated (id : Unallocated)
deriving DecidableEq, Repr

/-- A comparison that has no result finds the functions different. -/
def Mismatch.ofOption {α : Type} : Option α → Except Mismatch α
  | some a => .ok a
  | none => .error different

namespace Function

open Mismatch (ofOption)

/-- The pairing after the definitions of two variables whose records agree. -/
def matchDefinition (f g : Function) (a b : Var) (p : Pairing) : Except Mismatch Pairing := do
  let infoA ← (f.info a).mapError .unallocated
  let infoB ← (g.info b).mapError .unallocated
  let p ← ofOption (p.info? infoA infoB)
  ofOption (p.define? a b)

/-- Matches two lists of parameters as definitions, one after the other. -/
def matchParams (f g : Function) : List Var → List Var → Pairing → Except Mismatch Pairing
  | [], [], p => .ok p
  | a :: as, b :: bs, p => do
    let p ← f.matchDefinition g a b p
    matchParams f g as bs p
  | _, _, _ => .error .different

/-- Matches two bindings: first what they read, then the variables that they define. -/
def matchBinding (f g : Function) : Binding → Binding → Pairing → Except Mismatch Pairing
  | .define a x, .define b y, p => do
    let p ← ofOption (Pairing.expr? x y p)
    f.matchDefinition g a b p
  | .matchShape a? x s, .matchShape b? y t, p => do
    let p ← ofOption (Pairing.expr? x y p)
    let p ← ofOption (Pairing.shape? s t p)
    match a?, b? with
    | some a, some b => f.matchDefinition g a b p
    | none, none => return p
    | _, _ => throw .different
  | _, _, _ => .error .different

/-- Matches two lists of bindings, each under the pairs of those before. -/
def matchBindings (f g : Function) : List Binding → List Binding → Pairing → Except Mismatch Pairing
  | [], [], p => .ok p
  | x :: xs, y :: ys, p => do
    let p ← f.matchBinding g x y p
    matchBindings f g xs ys p
  | _, _, _ => .error .different

/-- Matches two lists of blocks, which have to agree in kind and length before their bindings are
looked at. -/
def matchBlocks (f g : Function) : List Block → List Block → Pairing → Except Mismatch Pairing
  | [], [], p => .ok p
  | x :: xs, y :: ys, p => do
    if x.kind ≠ y.kind ∨ x.bindings.length ≠ y.bindings.length then throw .different
    let p ← f.matchBindings g x.bindings y.bindings p
    matchBlocks f g xs ys p
  | _, _, _ => .error .different

/-- The pairing under which two functions agree. Their outlines are compared first, so that the
lengths of parameter lists, blocks and their bindings match before anything is looked up. -/
def matchFunction (f g : Function) : Except Mismatch Pairing := do
  if f.params.length ≠ g.params.length ∨ f.blocks.length ≠ g.blocks.length ∨ f.retTy ≠ g.retTy then
    throw .different
  let p ← f.matchParams g f.params g.params {}
  let p ← f.matchBlocks g f.blocks g.blocks p
  ofOption (Pairing.expr? f.body g.body p)

/-- Whether two functions are equal up to the names and positions of their variables. -/
def alphaEq (f g : Function) : Except Unallocated Bool :=
  match f.matchFunction g with
  | .ok _ => .ok true
  | .error .different => .ok false
  | .error (.unallocated id) => .error id

end Function

end TensorIR
