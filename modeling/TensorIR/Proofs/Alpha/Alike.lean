import TensorIR.Function.Traversal
import TensorIR.Proofs.Alpha.Relations

/-!
# Functions alike under a correspondence

The comparison of two functions discovers, on encounter, which variables and dimension variables
stand for each other. Here the outcome is given beforehand: a `Correspondence` pairs the variables
of two functions and their dimension variables, each with at most one other, and two parts are
`Alike` if they are the same but for paired identifiers.

A function and all that is derived from it later share one correspondence. So it has to say from the
start which of the variables that are yet to be allocated will be partners: the first new variable
of the one function is the partner of the first new one of the other, and so on (`Records.fresh`),
although the two lists of variables may differ in length.
-/

namespace TensorIR

open Relator

/-- Which variables and dimension variables of two functions stand for each other. -/
structure Correspondence where
  vars : Var → Var → Prop
  dims : DimVar → DimVar → Prop
  vars_unique : BiUnique vars
  dims_unique : BiUnique dims

variable {κ : Correspondence}

/-! ### Dimensions and shapes -/

/-- The dimensions differ in corresponding variables only. -/
inductive Dim.Alike (κ : Correspondence) : Dim → Dim → Prop where
  | int (n : Int64) : Alike κ (.int n) (.int n)
  | var {v w} (h : κ.dims v w) : Alike κ (.var v) (.var w)
  | binary (op : ArithOp) {l l' r r'} (lhs : Alike κ l l') (rhs : Alike κ r r') :
    Alike κ (.binary op l r) (.binary op l' r')

/-- The shapes have as many dimensions, alike in each place. -/
abbrev Shape.Alike (κ : Correspondence) : Shape → Shape → Prop := List.Forall₂ (Dim.Alike κ)

namespace Dim.Alike

variable {d d' : Dim}

theorem vars (h : Dim.Alike κ d d') : List.Forall₂ κ.dims d.vars d'.vars := by
  induction h with
  | int _ => exact .nil
  | var paired => exact .cons paired .nil
  | binary _ _ _ lhs rhs => exact List.rel_append lhs rhs

theorem literal? (h : Dim.Alike κ d d') : d.literal? = d'.literal? := by
  cases h <;> rfl

theorem asVar? (h : Dim.Alike κ d d') : Option.Rel κ.dims d.asVar? d'.asVar? := by
  cases h with
  | int _ | binary _ _ _ => exact .none
  | var paired => exact .some paired

theorem isNone_asVar? (h : Dim.Alike κ d d') : d.asVar?.isNone = d'.asVar?.isNone := by
  cases h <;> rfl

end Dim.Alike

theorem Dim.alike_unique (κ : Correspondence) : BiUnique (Dim.Alike κ) := by
  constructor
  · intro a b c h h'
    induction h generalizing b with
    | int _ => cases h' with | int _ => rfl
    | var paired => cases h' with | var paired' => rw [κ.dims_unique.1 paired paired']
    | binary _ _ _ ihl ihr => cases h' with | binary _ lhs rhs => rw [ihl lhs, ihr rhs]
  · intro a b c h h'
    induction h generalizing c with
    | int _ => cases h' with | int _ => rfl
    | var paired => cases h' with | var paired' => rw [κ.dims_unique.2 paired paired']
    | binary _ _ _ ihl ihr => cases h' with | binary _ lhs rhs => rw [ihl lhs, ihr rhs]

theorem Shape.alike_unique (κ : Correspondence) : BiUnique (Shape.Alike κ) :=
  (Dim.alike_unique κ).forall₂

namespace Shape

variable {s t : Shape}

theorem Alike.vars (h : Shape.Alike κ s t) : List.Forall₂ κ.dims s.vars t.vars :=
  List.rel_flatMap h fun _ _ => Dim.Alike.vars

theorem Alike.isSymbolic (h : Shape.Alike κ s t) : s.isSymbolic = t.isSymbolic :=
  rel_any h fun _ _ alike => congrArg Option.isNone alike.literal?

theorem alike_ofInts (ns : List Int64) : Shape.Alike κ (ofInts ns) (ofInts ns) :=
  List.rel_map (R := Eq) (fun n _ same => same ▸ Dim.Alike.int n) (List.forall₂_eq_eq_eq ▸ rfl)

end Shape

/-! ### Expressions -/

/-- The records agree up to corresponding dimension variables and up to names. -/
structure VarInfo.Alike (κ : Correspondence) (i j : VarInfo) : Prop where
  kind : i.kind = j.kind
  ty : i.ty = j.ty
  shape : Option.Rel (Shape.Alike κ) i.shape j.shape

/-- The heads agree up to corresponding dimension variables in the annotated shape. -/
structure CallHead.Alike (κ : Correspondence) (h k : CallHead) : Prop where
  callee : h.callee = k.callee
  attrs : h.attrs = k.attrs
  ty : h.ty = k.ty
  shape : Option.Rel (Shape.Alike κ) h.shape k.shape

/-- The expressions differ in corresponding variables only. -/
inductive Expr.Alike (κ : Correspondence) : Expr → Expr → Prop where
  | var {v w} (h : κ.vars v w) : Alike κ (.var v) (.var w)
  | shape {s t} (h : Shape.Alike κ s t) : Alike κ (.shape s) (.shape t)
  | tuple {es fs} (h : List.Forall₂ (Alike κ) es fs) : Alike κ (.tuple es) (.tuple fs)
  | item {e f} (h : Alike κ e f) (i : Nat) : Alike κ (.item e i) (.item f i)
  | const (c : Const) : Alike κ (.const c) (.const c)
  | external (s : String) : Alike κ (.external s) (.external s)
  | global (n : String) : Alike κ (.global n) (.global n)
  | call {h k es fs} (head : h.Alike κ k) (args : List.Forall₂ (Alike κ) es fs) :
    Alike κ (.call h es) (.call k fs)

/-- The lists of expressions are alike in each place. -/
abbrev Expr.AllAlike (κ : Correspondence) : List Expr → List Expr → Prop :=
  List.Forall₂ (Expr.Alike κ)

namespace Expr

/-- Induction on two expressions alike, with the claim for each two parts of tuples or calls at
hand. -/
@[elab_as_elim]
theorem Alike.induction {motive : Expr → Expr → Prop} {e f : Expr} (h : Alike κ e f)
    (var : ∀ v w, κ.vars v w → motive (.var v) (.var w))
    (shape : ∀ s t, Shape.Alike κ s t → motive (.shape s) (.shape t))
    (tuple : ∀ es fs, AllAlike κ es fs → List.Forall₂ motive es fs →
      motive (.tuple es) (.tuple fs))
    (item : ∀ e f i, Alike κ e f → motive e f → motive (.item e i) (.item f i))
    (const : ∀ c, motive (.const c) (.const c))
    (external : ∀ s, motive (.external s) (.external s))
    (global : ∀ n, motive (.global n) (.global n))
    (call : ∀ h k es fs, CallHead.Alike κ h k → AllAlike κ es fs → List.Forall₂ motive es fs →
      motive (.call h es) (.call k fs)) : motive e f :=
  Expr.Alike.rec (motive_1 := fun e f _ => motive e f)
    (motive_2 := fun es fs _ => List.Forall₂ motive es fs)
    (fun paired => var _ _ paired) (fun alike => shape _ _ alike)
    (fun alike all => tuple _ _ alike all) (fun alike i one => item _ _ i alike one)
    const external global (fun head args all => call _ _ _ _ head args all)
    .nil (fun _ _ one all => .cons one all) h

variable {e f : Expr} {es fs : List Expr}

theorem Alike.reads (h : Alike κ e f) : List.Forall₂ κ.vars e.reads f.reads := by
  have ofAll {es fs : List Expr}
      (ih : List.Forall₂ (fun e f => List.Forall₂ κ.vars e.reads f.reads) es fs) :
      List.Forall₂ κ.vars (readsAll es) (readsAll fs) := by
    rw [readsAll_eq_flatMap, readsAll_eq_flatMap]
    exact List.rel_flatMap ih fun _ _ h => h
  refine h.induction ?var ?shape ?tuple ?item ?const ?external ?global ?call
  case var => exact fun _ _ paired => .cons paired .nil
  case tuple => exact fun _ _ _ ih => ofAll ih
  case item => exact fun _ _ _ _ ih => ih
  case call => exact fun _ _ _ _ _ _ ih => ofAll ih
  case shape => exact fun _ _ _ => .nil
  case const | external | global => exact fun _ => .nil

theorem Alike.rename {ρ σ : Var → Var} (both : ∀ v w, κ.vars v w → κ.vars (ρ v) (σ w))
    (h : Alike κ e f) : Alike κ (e.rename ρ) (f.rename σ) := by
  have ofAll {es fs : List Expr}
      (ih : List.Forall₂ (fun e f => Alike κ (e.rename ρ) (f.rename σ)) es fs) :
      AllAlike κ (renameAll ρ es) (renameAll σ fs) := by
    rw [renameAll_eq_map, renameAll_eq_map]
    exact List.forall₂_map_left_iff.2 (List.forall₂_map_right_iff.2 ih)
  refine h.induction ?var ?shape ?tuple ?item ?const ?external ?global ?call
  case var => exact fun v w paired => .var (both v w paired)
  case shape => exact fun _ _ alike => .shape alike
  case tuple => exact fun _ _ _ ih => .tuple (ofAll ih)
  case item => exact fun _ _ i _ ih => .item ih i
  case const => exact .const
  case external => exact .external
  case global => exact .global
  case call => exact fun _ _ _ _ head _ ih => .call head (ofAll ih)

theorem Alike.shapeLiteral? (h : Alike κ e f) :
    Option.Rel (Shape.Alike κ) e.shapeLiteral? f.shapeLiteral? := by
  cases h with
  | shape alike => exact .some alike
  | _ => exact .none

theorem alike_ofCallee (callee : Callee) (h : AllAlike κ es fs) :
    Alike κ (ofCallee callee es) (ofCallee callee fs) :=
  .call ⟨rfl, rfl, rfl, .none⟩ h

theorem alike_ofOp (op : Op) (attrs : Attrs) (h : AllAlike κ es fs) :
    Alike κ (ofOp op es attrs) (ofOp op fs attrs) :=
  .call ⟨rfl, rfl, rfl, .none⟩ h

end Expr

/-- Renamings that rename partners to partners. -/
abbrev Renaming.Alike (κ : Correspondence) : Renaming → Renaming → Prop :=
  List.Forall₂ fun x y => κ.vars x.1 y.1 ∧ κ.vars x.2 y.2

theorem Renaming.Alike.apply {ρ σ : Renaming} (h : Renaming.Alike κ ρ σ) {v w : Var}
    (paired : κ.vars v w) : κ.vars (ρ.apply v) (σ.apply w) :=
  rel_getD (rel_lookup κ.vars_unique h paired) paired

theorem Expr.Alike.substitute {ρ σ : Renaming} (renames : Renaming.Alike κ ρ σ) {e f : Expr}
    (h : Expr.Alike κ e f) : Expr.Alike κ (e.substitute ρ) (f.substitute σ) :=
  h.rename fun _ _ => renames.apply

/-! ### Bindings and functions -/

/-- The bindings are of one form, with corresponding variables in corresponding places. -/
inductive Binding.Alike (κ : Correspondence) : Binding → Binding → Prop where
  | define {v w x y} (defined : κ.vars v w) (value : Expr.Alike κ x y) :
    Alike κ (.define v x) (.define w y)
  | matchShape {v w x y s t} (defined : Option.Rel κ.vars v w) (value : Expr.Alike κ x y)
    (pattern : Shape.Alike κ s t) : Alike κ (.matchShape v x s) (.matchShape w y t)

namespace Binding

variable {x y : Binding}

theorem Alike.defined? (h : Binding.Alike κ x y) :
    Option.Rel κ.vars x.defined? y.defined? := by
  cases h with
  | define paired _ => exact .some paired
  | matchShape defined _ _ => exact defined

theorem Alike.value (h : Binding.Alike κ x y) : Expr.Alike κ x.value y.value := by
  cases h with
  | define _ value | matchShape _ value _ => exact value

theorem Alike.pattern? (h : Binding.Alike κ x y) :
    Option.Rel (Shape.Alike κ) x.pattern? y.pattern? := by
  cases h with
  | define _ _ => exact .none
  | matchShape _ _ pattern => exact .some pattern

theorem Alike.withDefined {v w : Var} (paired : κ.vars v w) (h : Binding.Alike κ x y) :
    Binding.Alike κ (x.withDefined v) (y.withDefined w) := by
  cases h with
  | define _ value => exact .define paired value
  | matchShape _ value pattern => exact .matchShape (.some paired) value pattern

theorem Alike.withValue {e f : Expr} (value : Expr.Alike κ e f) (h : Binding.Alike κ x y) :
    Binding.Alike κ (x.withValue e) (y.withValue f) := by
  cases h with
  | define defined _ => exact .define defined value
  | matchShape defined _ pattern => exact .matchShape defined value pattern

end Binding

/-- The blocks are of one kind, with bindings that are alike in each place. -/
structure Block.Alike (κ : Correspondence) (x y : Block) : Prop where
  kind : x.kind = y.kind
  bindings : List.Forall₂ (Binding.Alike κ) x.bindings y.bindings

/-- Every recorded shape is of dimension variables that have a name. -/
def ShapesNamed (vars : List VarInfo) (dims : List String) : Prop :=
  ∀ info ∈ vars, ∀ v ∈ (info.shape.getD []).vars, v.index < dims.length

/-- The records of partners agree, and all dimension variables have names, those that are recorded
and those that have partners. -/
structure Records (κ : Correspondence) (vars vars' : List VarInfo) (dims dims' : List String) :
    Prop where
  infos : ∀ v w, κ.vars v w → Option.Rel (VarInfo.Alike κ) vars[v.index]? vars'[w.index]?
  /-- What will be allocated next on the two sides are partners. -/
  fresh : ∀ n, κ.vars ⟨vars.length + n⟩ ⟨vars'.length + n⟩
  named : ∀ v w, κ.dims v w → v.index < dims.length ∧ w.index < dims'.length
  left : ShapesNamed vars dims
  right : ShapesNamed vars' dims'

/-- The functions are alike part by part, and so are the records of corresponding variables; names
do not matter. -/
structure Function.Alike (κ : Correspondence) (f g : Function) : Prop where
  params : List.Forall₂ κ.vars f.params g.params
  blocks : List.Forall₂ (Block.Alike κ) f.blocks g.blocks
  body : Expr.Alike κ f.body g.body
  retTy : f.retTy = g.retTy
  records : Records κ f.vars g.vars f.dimNames g.dimNames

theorem Shape.alike_getD {s t : Option Shape} (h : Option.Rel (Shape.Alike κ) s t) :
    Shape.Alike κ (s.getD []) (t.getD []) :=
  rel_getD h .nil

namespace Records

variable {vars vars' : List VarInfo} {dims dims' : List String}

theorem named_left (h : Records κ vars vars' dims dims') {s t : Shape} (alike : Shape.Alike κ s t) :
    ∀ v ∈ s.vars, v.index < dims.length := by
  intro v mem
  obtain ⟨w, -, paired⟩ := exists_partner alike.vars mem
  exact (h.named v w paired).1

theorem named_right (h : Records κ vars vars' dims dims') {s t : Shape}
    (alike : Shape.Alike κ s t) : ∀ w ∈ t.vars, w.index < dims'.length := by
  intro w mem
  obtain ⟨v, -, paired⟩ := exists_partner (R := flip κ.dims) alike.vars.flip mem
  exact (h.named v w paired).2

/-- Two variables that are allocated with records alike become partners. -/
theorem append (h : Records κ vars vars' dims dims') {i j : VarInfo} (alike : VarInfo.Alike κ i j) :
    Records κ (vars ++ [i]) (vars' ++ [j]) dims dims' where
  infos v w paired := by
    -- Partners are last on both sides or on none, since the two new variables are partners.
    refine rel_getElem?_concat ?_ (h.infos v w paired) alike
    obtain ⟨v⟩ := v
    obtain ⟨w⟩ := w
    have last : (⟨v⟩ : Var) = ⟨vars.length⟩ ↔ (⟨w⟩ : Var) = ⟨vars'.length⟩ :=
      rel_eq κ.vars_unique paired (h.fresh 0)
    rw [Var.mk.injEq, Var.mk.injEq] at last
    exact last
  fresh n := by
    rw [List.length_append, List.length_append, Nat.add_assoc, Nat.add_assoc]
    exact h.fresh (1 + n)
  named := h.named
  left := by
    intro info mem
    rcases List.mem_append.1 mem with mem | mem
    · exact h.left info mem
    · rw [List.mem_singleton.1 mem]
      exact h.named_left (Shape.alike_getD alike.shape)
  right := by
    intro info mem
    rcases List.mem_append.1 mem with mem | mem
    · exact h.right info mem
    · rw [List.mem_singleton.1 mem]
      exact h.named_right (Shape.alike_getD alike.shape)

end Records

namespace Function.Alike

variable {f g : Function}

theorem bindings (h : Function.Alike κ f g) :
    List.Forall₂ (Binding.Alike κ) f.bindings g.bindings :=
  List.rel_flatMap h.blocks fun _ _ => Block.Alike.bindings

theorem info (h : Function.Alike κ f g) {v w : Var} (paired : κ.vars v w) :
    Agree (VarInfo.Alike κ) (f.info v) (g.info w) := by
  have recorded := h.records.infos v w paired
  rw [Function.info, Function.info]
  revert recorded
  generalize f.vars[v.index]? = i
  generalize g.vars[w.index]? = j
  rintro (alike | _)
  · exact .ok alike
  · exact .error

end Function.Alike

end TensorIR
