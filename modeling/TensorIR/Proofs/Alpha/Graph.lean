import TensorIR.Proofs.Alpha.Alike
import TensorIR.Proofs.Alpha.Relabeling

/-!
# Being alike and being relabelled

A correspondence gives every identifier one partner at most, so it is the graph of two maps, one on
variables and one on dimension variables. Two parts are alike under it exactly if the one becomes
the other when these maps are applied to the identifiers that occur. Here are the two directions, up
to bindings and blocks.
-/

namespace TensorIR

open Relator

variable {κ : Correspondence} {φ : Var → Var} {δ : DimVar → DimVar}

/-! ### From a correspondence to maps -/

/-- A relation that gives every element one partner at most is the graph of a map. -/
theorem exists_map_of_unique {α : Type} {R : α → α → Prop} (unique : RightUnique R) :
    ∃ f : α → α, ∀ a b, R a b → f a = b := by
  classical
  refine ⟨fun a => if partner : ∃ b, R a b then partner.choose else a, fun a b related => ?_⟩
  have partner : ∃ b, R a b := ⟨b, related⟩
  have chosen := unique partner.choose_spec related
  simp only [dif_pos partner, chosen]

section Maps

variable (vars : ∀ v w, κ.vars v w → φ v = w) (dims : ∀ d e, κ.dims d e → δ d = e)

theorem map_of_alike {α β : Type} {R : α → β → Prop} {f : α → β} (graph : ∀ a b, R a b → f a = b)
    {xs : List α} {ys : List β} (h : List.Forall₂ R xs ys) : xs.map f = ys := by
  induction h with
  | nil => rfl
  | cons head _ ih => rw [List.map_cons, graph _ _ head, ih]

include dims

theorem Dim.Alike.mapVars {d d' : Dim} (h : Dim.Alike κ d d') : d.mapVars δ = d' := by
  induction h with
  | int _ => rfl
  | var paired => rw [Dim.mapVars, dims _ _ paired]
  | binary op _ _ ihl ihr => rw [Dim.mapVars, ihl, ihr]

theorem Shape.Alike.mapVars {s t : Shape} (h : Shape.Alike κ s t) : s.mapVars δ = t :=
  map_of_alike (fun _ _ alike => alike.mapVars dims) h

theorem Shape.mapVars_of_alike {s t : Option Shape} (h : Option.Rel (Shape.Alike κ) s t) :
    s.map (Shape.mapVars δ) = t := by
  cases h with
  | none => rfl
  | some alike => exact congrArg some (alike.mapVars dims)

theorem VarInfo.Alike.becomes {i j : VarInfo} (h : VarInfo.Alike κ i j) : i.Becomes δ j :=
  ⟨h.kind, h.ty, Shape.mapVars_of_alike dims h.shape⟩

include vars

theorem Expr.Alike.relabel {e f : Expr} (h : Expr.Alike κ e f) : e.relabel φ δ = f := by
  have ofAll {es fs : List Expr} (ih : List.Forall₂ (fun e f => e.relabel φ δ = f) es fs) :
      Expr.relabelAll φ δ es = fs := by
    rw [Expr.relabelAll_eq_map]
    exact map_of_alike (fun _ _ same => same) ih
  refine h.induction ?var ?shape ?tuple ?item ?const ?external ?global ?call
  case var => exact fun v w paired => congrArg Expr.var (vars v w paired)
  case shape => exact fun s t alike => congrArg Expr.shape (alike.mapVars dims)
  case tuple => exact fun _ _ _ ih => congrArg Expr.tuple (ofAll ih)
  case item => exact fun _ _ i _ ih => congrArg (Expr.item · i) ih
  case const | external | global => exact fun _ => rfl
  case call =>
    intro h k es fs head _ ih
    have sameHead : h.relabel δ = k := by
      rw [CallHead.relabel, Shape.mapVars_of_alike dims head.shape, head.callee, head.attrs,
        head.ty]
    rw [Expr.relabel, sameHead, ofAll ih]

theorem Binding.Alike.relabel {x y : Binding} (h : Binding.Alike κ x y) : x.relabel φ δ = y := by
  cases h with
  | define paired value => rw [Binding.relabel, vars _ _ paired, value.relabel vars dims]
  | matchShape defined value pattern =>
      rw [Binding.relabel, value.relabel vars dims, pattern.mapVars dims]
      cases defined with
      | none => rfl
      | some paired => rw [Option.map_some, vars _ _ paired]

theorem Block.Alike.relabel {x y : Block} (h : Block.Alike κ x y) : x.relabel φ δ = y := by
  have bindings : x.bindings.map (Binding.relabel φ δ) = y.bindings :=
    map_of_alike (fun _ _ alike => alike.relabel vars dims) h.bindings
  rw [Block.relabel, bindings, h.kind]

end Maps

/-! ### From maps to a correspondence -/

/-- A map that is one-to-one on a list pairs the elements with their images, one partner each. -/
theorem unique_graph {α : Type} {f : α → α} {xs : List α} (inj : Set.InjOn f {x | x ∈ xs}) :
    BiUnique fun a b => a ∈ xs ∧ f a = b := by
  constructor
  · rintro a a' b ⟨mem, rfl⟩ ⟨mem', same⟩
    exact inj mem mem' same.symm
  · rintro a b b' ⟨-, rfl⟩ ⟨-, rfl⟩
    rfl

theorem forall₂_map_self {α β : Type} {R : α → β → Prop} {f : α → β} {xs : List α}
    (each : ∀ x ∈ xs, R x (f x)) : List.Forall₂ R xs (xs.map f) :=
  List.forall₂_map_right_iff.2 (List.forall₂_same.2 each)

theorem Dim.alike_mapVars {d : Dim} (dims : ∀ v ∈ d.vars, κ.dims v (δ v)) :
    Dim.Alike κ d (d.mapVars δ) := by
  induction d with
  | int n => exact .int n
  | var v => exact .var (dims v (List.mem_singleton_self v))
  | binary op lhs rhs ihl ihr =>
      rw [Dim.vars, List.forall_mem_append] at dims
      exact .binary op (ihl dims.1) (ihr dims.2)

theorem Shape.alike_mapVars {s : Shape} (dims : ∀ v ∈ s.vars, κ.dims v (δ v)) :
    Shape.Alike κ s (s.mapVars δ) :=
  forall₂_map_self fun d mem =>
    Dim.alike_mapVars fun v occurs => dims v (List.mem_flatMap.2 ⟨d, mem, occurs⟩)

theorem Shape.alike_annotation {s : Option Shape} (dims : ∀ v ∈ (s.getD []).vars, κ.dims v (δ v)) :
    Option.Rel (Shape.Alike κ) s (s.map (Shape.mapVars δ)) := by
  cases s with
  | none => exact .none
  | some s => exact .some (Shape.alike_mapVars dims)

theorem Expr.alike_relabel {e : Expr} (vars : ∀ v ∈ e.reads, κ.vars v (φ v))
    (dims : ∀ d ∈ e.dimVars, κ.dims d (δ d)) : Expr.Alike κ e (e.relabel φ δ) := by
  have ofAll {es : List Expr} (vars : ∀ v ∈ readsAll es, κ.vars v (φ v))
      (dims : ∀ d ∈ dimVarsAll es, κ.dims d (δ d))
      (ih : ∀ e ∈ es, (∀ v ∈ e.reads, κ.vars v (φ v)) → (∀ d ∈ e.dimVars, κ.dims d (δ d)) →
        Expr.Alike κ e (e.relabel φ δ)) : Expr.AllAlike κ es (relabelAll φ δ es) := by
    rw [readsAll_eq_flatMap, List.forall_mem_flatMap] at vars
    rw [dimVarsAll_eq_flatMap, List.forall_mem_flatMap] at dims
    rw [relabelAll_eq_map]
    exact forall₂_map_self fun e mem => ih e mem (vars e mem) (dims e mem)
  induction e using Expr.induction with
  | var v => exact .var (vars v (List.mem_singleton_self v))
  | shape s => exact .shape (Shape.alike_mapVars dims)
  | const c => exact .const c
  | external s => exact .external s
  | global n => exact .global n
  | item t i ih => exact .item (ih vars dims) i
  | tuple es ih => exact .tuple (ofAll vars dims ih)
  | call head es ih =>
      rw [dimVars, List.forall_mem_append] at dims
      exact .call ⟨rfl, rfl, rfl, Shape.alike_annotation dims.1⟩ (ofAll vars dims.2 ih)

theorem Binding.alike_relabel {x : Binding} (defined : ∀ v ∈ x.defined?, κ.vars v (φ v))
    (reads : ∀ v ∈ x.value.reads, κ.vars v (φ v)) (dims : ∀ d ∈ x.dimVars, κ.dims d (δ d)) :
    Binding.Alike κ x (x.relabel φ δ) := by
  rw [dimVars, List.forall_mem_append] at dims
  cases x with
  | define v e => exact .define (defined v rfl) (Expr.alike_relabel reads dims.1)
  | matchShape v e s =>
      refine .matchShape ?_ (Expr.alike_relabel reads dims.1) (Shape.alike_mapVars dims.2)
      cases v with
      | none => exact .none
      | some v => exact .some (defined v rfl)

theorem VarInfo.Becomes.alike {i j : VarInfo} (become : i.Becomes δ j)
    (dims : ∀ v ∈ (i.shape.getD []).vars, κ.dims v (δ v)) : VarInfo.Alike κ i j :=
  ⟨become.kind, become.ty, become.shape ▸ Shape.alike_annotation dims⟩

end TensorIR
