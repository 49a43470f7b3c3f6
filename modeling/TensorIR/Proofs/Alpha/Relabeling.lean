import Mathlib.Data.List.Basic
import Mathlib.Data.Set.Function
import TensorIR.Proofs.Alpha.Relations
import TensorIR.Proofs.Scoping

/-!
# Relabelling the identifiers of a function

One map on variables and one on dimension variables, applied wherever an identifier stands. A
function `RenamesTo` another if two such maps, each one-to-one on the identifiers that the function
uses, make its parameters, blocks and body those of the other, and the records of the variables that
it defines those of their images. Names do not count, and neither do identifiers that are allocated
but not used.

A relabelling by two maps in turn is one by their compositions, and one whose maps fix all that
occurs changes nothing. That is all it takes for `RenamesTo` to be reflexive, symmetric and
transitive. Symmetry also needs that a well-formed function reads only what it defines, as the maps
can be inverted there and nowhere else.
-/

namespace TensorIR

variable {φ ψ : Var → Var} {δ ε : DimVar → DimVar}

theorem map_eq_self {α : Type} {f : α → α} {xs : List α} (fixed : ∀ x ∈ xs, f x = x) :
    xs.map f = xs :=
  (List.map_congr_left fixed).trans (List.map_id xs)

theorem exists_leftInverse {α : Type} {f : α → α} {s : Set α} (inj : s.InjOn f) :
    ∃ g : α → α, ∀ x ∈ s, g (f x) = x := by
  cases isEmpty_or_nonempty α with
  | inl empty => exact ⟨id, fun x _ => empty.elim x⟩
  | inr nonempty => exact ⟨_, inj.leftInvOn_invFunOn⟩

/-! ### Dimensions and shapes -/

namespace Dim

theorem mapVars_mapVars (d : Dim) : (d.mapVars δ).mapVars ε = d.mapVars (ε ∘ δ) := by
  induction d with
  | int _ | var _ => rfl
  | binary op lhs rhs ihl ihr => rw [mapVars, mapVars, ihl, ihr, mapVars]

theorem mapVars_eq_self {d : Dim} (fixed : ∀ v ∈ d.vars, δ v = v) : d.mapVars δ = d := by
  induction d with
  | int _ => rfl
  | var v => rw [mapVars, fixed v (List.mem_singleton_self v)]
  | binary op lhs rhs ihl ihr =>
      rw [vars, List.forall_mem_append] at fixed
      rw [mapVars, ihl fixed.1, ihr fixed.2]

end Dim

namespace Shape

/-- The shape with the variables of its dimensions renamed by `δ`. -/
def mapVars (δ : DimVar → DimVar) (s : Shape) : Shape := s.map (Dim.mapVars δ)

theorem vars_mapVars (s : Shape) : (s.mapVars δ).vars = s.vars.map δ := by
  rw [mapVars, vars, vars, List.flatMap_map, List.map_flatMap]
  exact List.flatMap_congr fun d _ => Dim.vars_mapVars δ d

theorem mapVars_mapVars (s : Shape) : (s.mapVars δ).mapVars ε = s.mapVars (ε ∘ δ) := by
  rw [mapVars, mapVars, mapVars, List.map_map]
  exact List.map_congr_left fun d _ => Dim.mapVars_mapVars d

theorem mapVars_eq_self {s : Shape} (fixed : ∀ v ∈ s.vars, δ v = v) : s.mapVars δ = s :=
  map_eq_self fun d mem =>
    Dim.mapVars_eq_self fun v occurs => fixed v (List.mem_flatMap.2 ⟨d, mem, occurs⟩)

/-! An annotation is a shape or absent, and an absent one has no variables. -/

theorem vars_annotation (s : Option Shape) :
    ((s.map (mapVars δ)).getD []).vars = (s.getD []).vars.map δ := by
  cases s with
  | none => rfl
  | some s => exact vars_mapVars s

theorem annotation_mapVars (s : Option Shape) :
    (s.map (mapVars δ)).map (mapVars ε) = s.map (mapVars (ε ∘ δ)) := by
  cases s with
  | none => rfl
  | some s => exact congrArg some (mapVars_mapVars s)

theorem annotation_eq_self {s : Option Shape} (fixed : ∀ v ∈ (s.getD []).vars, δ v = v) :
    s.map (mapVars δ) = s := by
  cases s with
  | none => rfl
  | some s => exact congrArg some (mapVars_eq_self fixed)

end Shape

/-! ### Expressions -/

/-- The head with other dimension variables in the annotated shape. -/
def CallHead.relabel (δ : DimVar → DimVar) (head : CallHead) : CallHead :=
  { head with shape := head.shape.map (Shape.mapVars δ) }

namespace Expr

mutual

/-- The expression with `φ` applied to the variables that it reads and `δ` to the dimension
variables in its shapes and in the shapes annotated on its calls. -/
def relabel (φ : Var → Var) (δ : DimVar → DimVar) : Expr → Expr
  | var v => var (φ v)
  | shape s => shape (s.mapVars δ)
  | tuple fields => tuple (relabelAll φ δ fields)
  | item t i => item (t.relabel φ δ) i
  | call head args => call (head.relabel δ) (relabelAll φ δ args)
  | const c => const c
  | external s => external s
  | global n => global n

/-- A list of expressions under other variables and dimension variables. -/
def relabelAll (φ : Var → Var) (δ : DimVar → DimVar) : List Expr → List Expr
  | [] => []
  | e :: es => e.relabel φ δ :: relabelAll φ δ es

end

theorem relabelAll_eq_map (es : List Expr) : relabelAll φ δ es = es.map (relabel φ δ) := by
  induction es with
  | nil => rfl
  | cons e es ih => rw [relabelAll, ih, List.map_cons]

theorem dimVars_relabel (e : Expr) : (e.relabel φ δ).dimVars = e.dimVars.map δ := by
  have ofAll {es : List Expr} (ih : ∀ e ∈ es, (e.relabel φ δ).dimVars = e.dimVars.map δ) :
      dimVarsAll (relabelAll φ δ es) = (dimVarsAll es).map δ := by
    rw [relabelAll_eq_map, dimVarsAll_eq_flatMap, dimVarsAll_eq_flatMap, List.flatMap_map,
      List.map_flatMap]
    exact List.flatMap_congr ih
  induction e using Expr.induction with
  | var _ | const _ | external _ | global _ => rfl
  | shape s => exact Shape.vars_mapVars s
  | item t _ ih => exact ih
  | tuple es ih => exact ofAll ih
  | call head es ih =>
      rw [relabel, dimVars, dimVars, ofAll ih, List.map_append, CallHead.relabel,
        Shape.vars_annotation]

theorem relabel_relabel (e : Expr) :
    (e.relabel φ δ).relabel ψ ε = e.relabel (ψ ∘ φ) (ε ∘ δ) := by
  have ofAll {es : List Expr}
      (ih : ∀ e ∈ es, (e.relabel φ δ).relabel ψ ε = e.relabel (ψ ∘ φ) (ε ∘ δ)) :
      relabelAll ψ ε (relabelAll φ δ es) = relabelAll (ψ ∘ φ) (ε ∘ δ) es := by
    rw [relabelAll_eq_map, relabelAll_eq_map, relabelAll_eq_map, List.map_map]
    exact List.map_congr_left ih
  induction e using Expr.induction with
  | var _ | const _ | external _ | global _ => rfl
  | shape s => exact congrArg shape (Shape.mapVars_mapVars s)
  | item t i ih => exact congrArg (item · i) ih
  | tuple es ih => exact congrArg tuple (ofAll ih)
  | call head es ih =>
      rw [relabel, relabel, relabel, ofAll ih, CallHead.relabel, CallHead.relabel, CallHead.relabel,
        Shape.annotation_mapVars]

theorem relabel_eq_self {e : Expr} (vars : ∀ v ∈ e.reads, φ v = v)
    (dims : ∀ d ∈ e.dimVars, δ d = d) : e.relabel φ δ = e := by
  have ofAll {es : List Expr} (vars : ∀ v ∈ readsAll es, φ v = v)
      (dims : ∀ d ∈ dimVarsAll es, δ d = d) (ih : ∀ e ∈ es, (∀ v ∈ e.reads, φ v = v) →
        (∀ d ∈ e.dimVars, δ d = d) → e.relabel φ δ = e) : relabelAll φ δ es = es := by
    rw [readsAll_eq_flatMap, List.forall_mem_flatMap] at vars
    rw [dimVarsAll_eq_flatMap, List.forall_mem_flatMap] at dims
    rw [relabelAll_eq_map]
    exact map_eq_self fun e mem => ih e mem (vars e mem) (dims e mem)
  induction e using Expr.induction with
  | const _ | external _ | global _ => rfl
  | var v => rw [relabel, vars v (List.mem_singleton_self v)]
  | shape s => rw [relabel, Shape.mapVars_eq_self dims]
  | item t i ih => rw [relabel, ih vars dims]
  | tuple es ih => rw [relabel, ofAll vars dims ih]
  | call head es ih =>
      rw [dimVars, List.forall_mem_append] at dims
      rw [relabel, ofAll vars dims.2 ih, CallHead.relabel, Shape.annotation_eq_self dims.1]

end Expr

/-! ### Bindings and blocks -/

namespace Binding

/-- The binding under other variables and dimension variables. -/
def relabel (φ : Var → Var) (δ : DimVar → DimVar) : Binding → Binding
  | define v value => define (φ v) (value.relabel φ δ)
  | matchShape v value pattern => matchShape (v.map φ) (value.relabel φ δ) (pattern.mapVars δ)

/-- The dimension variables in the value and the pattern of a binding. -/
def dimVars (x : Binding) : List DimVar := x.value.dimVars ++ (x.pattern?.getD []).vars

theorem defined?_relabel (x : Binding) : (x.relabel φ δ).defined? = x.defined?.map φ := by
  cases x <;> rfl

theorem dimVars_relabel (x : Binding) : (x.relabel φ δ).dimVars = x.dimVars.map δ := by
  cases x with
  | define v e =>
      rw [dimVars, dimVars, List.map_append]
      exact congrArg (· ++ _) (Expr.dimVars_relabel e)
  | matchShape v e s =>
      rw [dimVars, dimVars, List.map_append]
      exact congrArg₂ (· ++ ·) (Expr.dimVars_relabel e) (Shape.vars_mapVars s)

theorem relabel_relabel (x : Binding) :
    (x.relabel φ δ).relabel ψ ε = x.relabel (ψ ∘ φ) (ε ∘ δ) := by
  cases x with
  | define v e => rw [relabel, relabel, relabel, Expr.relabel_relabel, Function.comp_apply]
  | matchShape v e s =>
      rw [relabel, relabel, relabel, Expr.relabel_relabel, Shape.mapVars_mapVars, Option.map_map]

theorem relabel_eq_self {x : Binding} (defined : ∀ v ∈ x.defined?, φ v = v)
    (reads : ∀ v ∈ x.value.reads, φ v = v) (dims : ∀ d ∈ x.dimVars, δ d = d) :
    x.relabel φ δ = x := by
  rw [dimVars, List.forall_mem_append] at dims
  cases x with
  | define v e =>
      have value : e.relabel φ δ = e := Expr.relabel_eq_self reads dims.1
      rw [relabel, value, defined v rfl]
  | matchShape v e s =>
      have value : e.relabel φ δ = e := Expr.relabel_eq_self reads dims.1
      have pattern : s.mapVars δ = s := Shape.mapVars_eq_self dims.2
      rw [relabel, value, pattern]
      cases v with
      | none => rfl
      | some v => rw [Option.map_some, defined v rfl]

end Binding

/-- The block under other variables and dimension variables. -/
def Block.relabel (φ : Var → Var) (δ : DimVar → DimVar) (block : Block) : Block :=
  { block with bindings := block.bindings.map (Binding.relabel φ δ) }

theorem Block.relabel_relabel (block : Block) :
    (block.relabel φ δ).relabel ψ ε = block.relabel (ψ ∘ φ) (ε ∘ δ) := by
  rw [relabel, relabel, relabel, List.map_map]
  exact congrArg (mk block.kind) (List.map_congr_left fun x _ => Binding.relabel_relabel x)

/-! ### Functions -/

/-- The record of a variable becomes that of another, names apart. -/
structure VarInfo.Becomes (δ : DimVar → DimVar) (i j : VarInfo) : Prop where
  kind : i.kind = j.kind
  ty : i.ty = j.ty
  shape : i.shape.map (Shape.mapVars δ) = j.shape

theorem VarInfo.Becomes.comp_iff {i j k : VarInfo} (first : i.Becomes δ j) :
    i.Becomes (ε ∘ δ) k ↔ j.Becomes ε k := by
  have shape : j.shape.map (Shape.mapVars ε) = i.shape.map (Shape.mapVars (ε ∘ δ)) := by
    rw [← first.shape, Shape.annotation_mapVars]
  constructor
  · exact fun both =>
      ⟨first.kind.symm.trans both.kind, first.ty.symm.trans both.ty, shape.trans both.shape⟩
  · exact fun second =>
      ⟨first.kind.trans second.kind, first.ty.trans second.ty, shape.symm.trans second.shape⟩

theorem VarInfo.rel_comp_iff {i j k : Option VarInfo} (first : Option.Rel (VarInfo.Becomes δ) i j) :
    Option.Rel (VarInfo.Becomes (ε ∘ δ)) i k ↔ Option.Rel (VarInfo.Becomes ε) j k := by
  cases first with
  | none => constructor <;> (rintro ⟨⟩; exact .none)
  | some first =>
      constructor
      · rintro (both | _)
        exact .some (first.comp_iff.1 both)
      · rintro (second | _)
        exact .some (first.comp_iff.2 second)

namespace Function

/-- The dimension variables of the shape that is recorded of a variable. -/
def recordedDims (f : Function) (v : Var) : List DimVar :=
  ((f.vars[v.index]?.bind VarInfo.shape).getD []).vars

/-- The dimension variables that a function uses: those recorded of the variables that it defines,
those of the values and patterns of its bindings, and those of its body. -/
def dimVars (f : Function) : List DimVar :=
  f.defined.flatMap f.recordedDims ++ f.bindings.flatMap Binding.dimVars ++ f.body.dimVars

/-- The function becomes another when its identifiers are relabelled. -/
structure Becomes (φ : Var → Var) (δ : DimVar → DimVar) (f g : Function) : Prop where
  params : f.params.map φ = g.params
  blocks : f.blocks.map (Block.relabel φ δ) = g.blocks
  body : f.body.relabel φ δ = g.body
  retTy : f.retTy = g.retTy
  records : ∀ v ∈ f.defined,
    Option.Rel (VarInfo.Becomes δ) f.vars[v.index]? g.vars[(φ v).index]?

/-- The functions are equal up to a one-to-one choice of variables and dimension variables. -/
def RenamesTo (f g : Function) : Prop :=
  ∃ φ δ, Set.InjOn φ {v | v ∈ f.defined} ∧ Set.InjOn δ {d | d ∈ f.dimVars} ∧ f.Becomes φ δ g

variable {f g h : Function}

namespace Becomes

theorem bindings (become : f.Becomes φ δ g) :
    g.bindings = f.bindings.map (Binding.relabel φ δ) := by
  rw [Function.bindings, Function.bindings, ← become.blocks, List.flatMap_map, List.map_flatMap]
  rfl

theorem defined (become : f.Becomes φ δ g) : g.defined = f.defined.map φ := by
  rw [Function.defined, Function.defined, ← become.params, become.bindings, List.map_append,
    List.filterMap_map, List.map_filterMap]
  exact congrArg _ (List.filterMap_congr fun x _ => Binding.defined?_relabel x)

theorem recordedDims (become : f.Becomes φ δ g) {v : Var} (mem : v ∈ f.defined) :
    g.recordedDims (φ v) = (f.recordedDims v).map δ := by
  have recorded := become.records v mem
  rw [Function.recordedDims, Function.recordedDims]
  revert recorded
  generalize f.vars[v.index]? = i
  generalize g.vars[(φ v).index]? = j
  rintro (record | _)
  · rw [Option.bind_some, Option.bind_some, ← record.shape, Shape.vars_annotation]
  · rfl

theorem dimVars (become : f.Becomes φ δ g) : g.dimVars = f.dimVars.map δ := by
  rw [Function.dimVars, Function.dimVars, become.defined, become.bindings, ← become.body,
    Expr.dimVars_relabel, List.map_append, List.map_append, List.flatMap_map, List.flatMap_map,
    List.map_flatMap, List.map_flatMap]
  congr 2
  · exact List.flatMap_congr fun v mem => become.recordedDims mem
  · exact List.flatMap_congr fun x _ => Binding.dimVars_relabel x

/-- Two relabellings in turn are one. -/
theorem comp_iff (first : f.Becomes φ δ g) :
    f.Becomes (ψ ∘ φ) (ε ∘ δ) h ↔ g.Becomes ψ ε h := by
  have params : g.params.map ψ = f.params.map (ψ ∘ φ) := by rw [← first.params, List.map_map]
  have blocks : g.blocks.map (Block.relabel ψ ε) =
      f.blocks.map (Block.relabel (ψ ∘ φ) (ε ∘ δ)) := by
    rw [← first.blocks, List.map_map]
    exact List.map_congr_left fun block _ => Block.relabel_relabel block
  have body : g.body.relabel ψ ε = f.body.relabel (ψ ∘ φ) (ε ∘ δ) := by
    rw [← first.body, Expr.relabel_relabel]
  constructor
  · intro both
    refine ⟨params.trans both.params, blocks.trans both.blocks, body.trans both.body,
      first.retTy.symm.trans both.retTy, fun w mem => ?_⟩
    obtain ⟨v, ofV, rfl⟩ := List.mem_map.1 (first.defined ▸ mem)
    exact (VarInfo.rel_comp_iff (first.records v ofV)).1 (both.records v ofV)
  · intro second
    refine ⟨params.symm.trans second.params, blocks.symm.trans second.blocks,
      body.symm.trans second.body, first.retTy.trans second.retTy, fun v mem => ?_⟩
    have image : φ v ∈ g.defined := first.defined ▸ List.mem_map_of_mem mem
    exact (VarInfo.rel_comp_iff (first.records v mem)).2 (second.records (φ v) image)

end Becomes

/-- A relabelling that fixes what a well-formed function uses leaves it as it is. -/
theorem becomes_self (wellFormed : f.WellFormed) (vars : ∀ v ∈ f.defined, φ v = v)
    (dims : ∀ d ∈ f.dimVars, δ d = d) : f.Becomes φ δ f := by
  have ofParams : ∀ v ∈ f.params, φ v = v := fun v mem => vars v (List.mem_append_left _ mem)
  rw [dimVars, List.forall_mem_append, List.forall_mem_append, List.forall_mem_flatMap,
    List.forall_mem_flatMap] at dims
  refine ⟨map_eq_self ofParams, map_eq_self fun block inFunction => ?_,
    Expr.relabel_eq_self (fun v read => vars v (wellFormed.defined_of_result read)) dims.2, rfl,
    fun v mem => ?_⟩
  · refine congrArg (Block.mk block.kind) (map_eq_self fun x inBlock => ?_)
    have mem := mem_bindings inFunction inBlock
    refine Binding.relabel_eq_self (fun v defines => vars v ?_)
      (fun v read => vars v (wellFormed.defined_of_read mem read)) (dims.1.2 x mem)
    exact Function.mem_defined mem defines
  · rw [vars v mem]
    have fixed := dims.1.1 v mem
    rw [recordedDims] at fixed
    cases recorded : f.vars[v.index]? with
    | none => exact .none
    | some i =>
        rw [recorded] at fixed
        exact .some ⟨rfl, rfl, Shape.annotation_eq_self fixed⟩

namespace RenamesTo

theorem refl (wellFormed : f.WellFormed) : f.RenamesTo f :=
  ⟨id, id, Set.injOn_id _, Set.injOn_id _, becomes_self wellFormed (fun _ _ => rfl) fun _ _ => rfl⟩

theorem symm (wellFormed : f.WellFormed) (renames : f.RenamesTo g) : g.RenamesTo f := by
  obtain ⟨φ, δ, vars, dims, become⟩ := renames
  obtain ⟨ψ, varsBack⟩ := exists_leftInverse vars
  obtain ⟨ε, dimsBack⟩ := exists_leftInverse dims
  refine ⟨ψ, ε, fun v mem w mem' same => ?_, fun d mem e mem' same => ?_,
    become.comp_iff.1 (becomes_self wellFormed varsBack dimsBack)⟩
  · obtain ⟨v, ofV, rfl⟩ := List.mem_map.1 (become.defined ▸ mem)
    obtain ⟨w, ofW, rfl⟩ := List.mem_map.1 (become.defined ▸ mem')
    rw [varsBack v ofV, varsBack w ofW] at same
    rw [same]
  · obtain ⟨d, ofD, rfl⟩ := List.mem_map.1 (become.dimVars ▸ mem)
    obtain ⟨e, ofE, rfl⟩ := List.mem_map.1 (become.dimVars ▸ mem')
    rw [dimsBack d ofD, dimsBack e ofE] at same
    rw [same]

theorem trans (first : f.RenamesTo g) (second : g.RenamesTo h) : f.RenamesTo h := by
  obtain ⟨φ, δ, varsOne, dimsOne, one⟩ := first
  obtain ⟨ψ, ε, varsTwo, dimsTwo, two⟩ := second
  refine ⟨ψ ∘ φ, ε ∘ δ, varsTwo.comp varsOne fun v mem => ?_, dimsTwo.comp dimsOne fun d mem => ?_,
    one.comp_iff.2 two⟩
  · show φ v ∈ g.defined
    rw [one.defined]
    exact List.mem_map_of_mem mem
  · show δ d ∈ g.dimVars
    rw [one.dimVars]
    exact List.mem_map_of_mem mem

end RenamesTo

end Function

end TensorIR
