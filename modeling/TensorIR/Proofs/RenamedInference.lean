import TensorIR.Proofs.Alpha.Inference
import TensorIR.Proofs.Renaming

/-!
# Inference after a renaming

What is inferred of a renamed expression depends on what is recorded of the new variables. If that
is what was recorded of the old ones, nothing changes. It may also be less alike than that: for
types it is enough that the records are related by a relation that every rule of inference respects,
a `Ty.Congruence`, and then so is what is inferred. Equality is one. Another relates types that
differ in ranks and lengths only, `Ty.Similar`; the element types of a call can be told apart by no
such difference.
-/

namespace TensorIR

open Relator

theorem rel_mapM_id {α β : Type} {R : α → β → Prop} {xs : List (Option α)} {ys : List (Option β)}
    (h : List.Forall₂ (Option.Rel R) xs ys) :
    Option.Rel (List.Forall₂ R) (xs.mapM id) (ys.mapM id) := by
  induction h with
  | nil => exact .some .nil
  | cons head _ ih =>
      rw [List.mapM_cons, List.mapM_cons]
      exact rel_bind head fun _ _ first => rel_bind ih fun _ _ rest => .some (.cons first rest)

/-! ### Relations that inference respects -/

namespace Ty

/-- The type of a component, if the type is one of tuples and has the component. -/
def field? (i : Nat) : Ty → Option Ty
  | tuple fields => fields[i]?
  | tensor .. | shape _ | object => none

/-- A relation of types that inference cannot tell apart: whatever it looks at or makes of related
types is equal or related again. -/
structure Congruence (R : Ty → Ty → Prop) : Prop where
  refl : ∀ t, R t t
  elem : ∀ {s t}, R s t → s.elem? = t.elem?
  elementwise : ∀ {s s' t t'}, R s s' → R t t' →
    Option.Rel R (s.elementwise? t) (s'.elementwise? t')
  rank : ∀ {s t}, R s t → R (.shape s.rank?) (.shape t.rank?)
  length : ∀ {s t} e, R s t → R (.tensor s.shapeLength? e) (.tensor t.shapeLength? e)
  tuple : ∀ {ss ts}, List.Forall₂ R ss ts → R (.tuple ss) (.tuple ts)
  field : ∀ {s t} i, R s t → Option.Rel R (s.field? i) (t.field? i)

theorem congruence_eq : Congruence Eq where
  refl _ := rfl
  elem h := h ▸ rfl
  elementwise h h' := rel_eq_iff.2 (by rw [h, h'])
  rank h := h ▸ rfl
  length _ h := h ▸ rfl
  tuple h := congrArg Ty.tuple (List.forall₂_eq_eq_eq ▸ h)
  field _ h := rel_eq_iff.2 (by rw [h])

/-- The types differ in ranks and lengths only. -/
inductive Similar : Ty → Ty → Prop where
  | tensor (r r' : Option Nat) (e : ElemType) : Similar (.tensor r e) (.tensor r' e)
  | shape (n n' : Option Nat) : Similar (.shape n) (.shape n')
  | object : Similar .object .object
  | tuple {ss ts : List Ty} (fields : List.Forall₂ Similar ss ts) : Similar (.tuple ss) (.tuple ts)

mutual

theorem similar_refl : ∀ t : Ty, t.Similar t
  | tensor r e => .tensor r r e
  | shape n => .shape n n
  | object => .object
  | tuple ts => .tuple (similar_refl_all ts)

theorem similar_refl_all : ∀ ts : List Ty, List.Forall₂ Similar ts ts
  | [] => .nil
  | t :: ts => .cons (similar_refl t) (similar_refl_all ts)

end

theorem congruence_similar : Congruence Similar where
  refl := similar_refl
  elem h := by
    cases h <;> rfl
  elementwise h h' := by
    cases h with
    | tensor r r' e =>
        cases h' with
        | tensor q q' e' => exact rel_ite Iff.rfl (.some (.tensor _ _ e)) .none
        | shape _ _ | object | tuple _ => exact .none
    | shape _ _ | object | tuple _ => exact .none
  rank _ := .shape _ _
  length e _ := .tensor _ _ e
  tuple := .tuple
  field i h := by
    cases h with
    | tuple fields => exact rel_getElem? fields i
    | tensor _ _ _ | shape _ _ | object => exact .none

variable {R : Ty → Ty → Prop} (congruence : Congruence R)
include congruence

namespace Congruence

theorem refl? (t : Option Ty) : Option.Rel R t t := by
  cases t with
  | none => exact .none
  | some t => exact .some (congruence.refl t)

theorem elementwiseAll? {ss ts : List (Option Ty)} (h : List.Forall₂ (Option.Rel R) ss ts) :
    Option.Rel R (Ty.elementwiseAll? ss) (Ty.elementwiseAll? ts) := by
  cases h with
  | nil => exact .none
  | cons first rest =>
      cases first with
      | none => exact .none
      | @some s t first =>
          have elems := congruence.elem first
          cases s with
          | tensor r e =>
              cases t with
              | tensor r' e' =>
                  refine rel_foldlM rest (fun acc acc' t t' related types => ?_) first
                  exact rel_bind types fun _ _ => congruence.elementwise related
              | shape _ | object | tuple _ => cases elems
          | shape _ | object | tuple _ =>
              cases t with
              | tensor r' e' => cases elems
              | shape _ | object | tuple _ => exact .none

/-- The rule of a callee respects a congruence. The arguments matter to it for the shapes that are
spelled out in them. -/
theorem resultTy? (head : CallHead) {es fs : List Expr} {ss ts : List (Option Ty)}
    (literals : es[0]?.bind Expr.shapeLiteral? = fs[0]?.bind Expr.shapeLiteral?)
    (operands : List.Forall₂ (Option.Rel R) ss ts) :
    Option.Rel R (head.resultTy? es ss) (head.resultTy? fs ts) := by
  have refl := congruence.refl?
  have elem : ss.findSome? (·.bind Ty.elem?) = ts.findSome? (·.bind Ty.elem?) :=
    rel_eq_iff.1 <| rel_findSome? operands fun _ _ types =>
      rel_bind types fun _ _ related => rel_eq_iff.2 (congruence.elem related)
  simp only [CallHead.resultTy?, literals, elem]
  cases head.callee with
  | op op =>
      cases op with
      | add | multiply | fma => exact congruence.elementwiseAll? operands
      | vmAllocTensor =>
          refine rel_bind (rel_getElem? operands 2) fun s t related => ?_
          cases head.attrs.elem? with
          | none => exact .none
          | some e =>
              cases related with
              | none => exact refl _
              | some related => exact .some (congruence.length e related)
      | callDps | allocTensor | vmAllocStorage | callPacked | vmStoreShape | vmLoadShape =>
          exact refl _
  | external symbol =>
      refine rel_ite Iff.rfl ?_ (refl _)
      refine rel_map (rel_getElem? operands 0) fun s t related => ?_
      cases related with
      | none => exact congruence.refl _
      | some related => exact congruence.rank related
  | global _ => exact .none

end Congruence

end Ty

/-! ### Expressions -/

namespace Expr

variable {r : Var → Var} {vars vars' : List VarInfo}

theorem shapeLiteral?_rename (e : Expr) : (e.rename r).shapeLiteral? = e.shapeLiteral? := by
  cases e <;> rfl

theorem literal_rename (es : List Expr) (i : Nat) :
    (es.map (rename r))[i]?.bind shapeLiteral? = es[i]?.bind shapeLiteral? := by
  rw [List.getElem?_map]
  cases es[i]? with
  | none => rfl
  | some e => exact shapeLiteral?_rename e

/-- The variables of a part of a tuple or call are variables of the whole. -/
theorem mem_readsAll {es : List Expr} {e : Expr} (mem : e ∈ es) {v : Var} (read : v ∈ e.reads) :
    v ∈ readsAll es := by
  rw [readsAll_eq_flatMap]
  exact List.mem_flatMap.2 ⟨e, mem, read⟩

theorem inferShape?_rename {e : Expr} : (∀ v ∈ e.reads,
      vars'[(r v).index]?.bind VarInfo.shape = vars[v.index]?.bind VarInfo.shape) →
    (e.rename r).inferShape? vars' = e.inferShape? vars := by
  induction e using Expr.induction with
  | var v =>
      intro agree
      exact agree v (by simp [reads])
  | shape _ | tuple _ _ | item _ _ _ | const _ | external _ | global _ => exact fun _ => rfl
  | call head es ih =>
      intro agree
      have operands : es.map (inferShape? vars' ∘ rename r) = es.map (inferShape? vars) :=
        List.map_congr_left fun e mem => ih e mem fun v read => agree v (mem_readsAll mem read)
      rw [rename, inferShape?, inferShape?, renameAll_eq_map, inferShapes_eq_map,
        inferShapes_eq_map, List.map_map, operands]
      refine congrArg (head.shape <|> ·) ?_
      simp only [Callee.resultShape?, literal_rename]

theorem inferTy?_item (t : Expr) (i : Nat) :
    (item t i).inferTy? vars = (t.inferTy? vars).bind (Ty.field? i) := by
  rw [inferTy?]
  rcases t.inferTy? vars with _ | _ | _ | _ | _ <;> rfl

section Types

variable {R : Ty → Ty → Prop} (congruence : Ty.Congruence R)
include congruence

theorem rel_inferTy?_rename {e : Expr} (agree : ∀ v ∈ e.reads,
      Option.Rel R (vars[v.index]?.bind VarInfo.ty) (vars'[(r v).index]?.bind VarInfo.ty)) :
    Option.Rel R (e.inferTy? vars) ((e.rename r).inferTy? vars') := by
  -- The types of the inputs of a destination-passing call are those of the parts of a part.
  suffices both : Option.Rel R (e.inferTy? vars) ((e.rename r).inferTy? vars') ∧
      List.Forall₂ (Option.Rel R) (fieldTys vars e) (fieldTys vars' (e.rename r)) from both.1
  have ofAll {es : List Expr} (ih : ∀ e ∈ es,
      Option.Rel R (e.inferTy? vars) ((e.rename r).inferTy? vars') ∧
        List.Forall₂ (Option.Rel R) (fieldTys vars e) (fieldTys vars' (e.rename r))) :
      List.Forall₂ (Option.Rel R) (inferTys vars es) (inferTys vars' (renameAll r es)) := by
    rw [inferTys_eq_map, inferTys_eq_map, renameAll_eq_map, List.map_map]
    exact List.forall₂_map_left_iff.2 (List.forall₂_map_right_iff.2
      (List.forall₂_same.2 fun e mem => (ih e mem).1))
  induction e using Expr.induction with
  | var v => exact ⟨agree v (by simp [reads]), .nil⟩
  | shape _ | const _ | external _ | global _ => exact ⟨congruence.refl? _, .nil⟩
  | item t i ih =>
      refine ⟨?_, .nil⟩
      rw [rename, inferTy?_item, inferTy?_item]
      exact rel_bind (ih agree).1 fun _ _ => congruence.field i
  | tuple es ih =>
      have fields := ofAll fun e mem => ih e mem fun v read => agree v (mem_readsAll mem read)
      refine ⟨?_, fields⟩
      rw [rename, inferTy?, inferTy?]
      exact rel_map (rel_mapM_id fields) fun _ _ => congruence.tuple
  | call head es ih =>
      have parts := fun e mem => ih e mem fun v read => agree v (mem_readsAll mem read)
      have inputs : List.Forall₂ (Option.Rel R) (inferInputTys vars es)
          (inferInputTys vars' (es.map (rename r))) := by
        rw [inferInputTys_eq, inferInputTys_eq, List.getElem?_map]
        cases found : es[2]? with
        | none => exact .nil
        | some e => exact (parts e (List.mem_of_getElem? found)).2
      refine ⟨?_, .nil⟩
      rw [rename, inferTy?, inferTy?]
      refine rel_orElse (congruence.refl? _) (congruence.resultTy? head ?_ ?_)
      · rw [renameAll_eq_map, literal_rename]
      · split
        · rw [renameAll_eq_map]
          exact inputs
        · exact ofAll parts

end Types

theorem inferTy?_rename {e : Expr} (agree : ∀ v ∈ e.reads,
      vars'[(r v).index]?.bind VarInfo.ty = vars[v.index]?.bind VarInfo.ty) :
    (e.rename r).inferTy? vars' = e.inferTy? vars :=
  (rel_eq_iff.1 (rel_inferTy?_rename Ty.congruence_eq fun v read =>
    rel_eq_iff.2 (agree v read).symm)).symm

/-- The renamed variables have the shapes and types of the old ones. -/
def Agrees (vars vars' : List VarInfo) (r : Var → Var) (vs : List Var) : Prop :=
  ∀ v ∈ vs, vars'[(r v).index]?.bind VarInfo.shape = vars[v.index]?.bind VarInfo.shape ∧
    vars'[(r v).index]?.bind VarInfo.ty = vars[v.index]?.bind VarInfo.ty

theorem annotate_rename {e : Expr} (agrees : Agrees vars vars' r e.reads) :
    (e.rename r).annotate vars' = (e.annotate vars).rename r := by
  have shape := inferShape?_rename fun v read => (agrees v read).1
  have ty := inferTy?_rename fun v read => (agrees v read).2
  cases e with
  | call head es =>
      rw [rename] at shape ty
      rw [rename, annotate, annotate, rename, shape, ty]
  | var _ | shape _ | tuple _ | item _ _ | const _ | external _ | global _ => rfl

end Expr

end TensorIR
