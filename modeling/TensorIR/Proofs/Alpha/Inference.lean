import TensorIR.Builder
import TensorIR.Proofs.Alpha.Alike

/-!
# Inference on functions alike

Whatever is inferred from parts alike is alike: shapes are, and types, which have no variables, are
equal. Folding looks at the literals of a dimension only, and these have no other partners than
themselves. Broadcasting also asks whether two dimensions are equal; since a dimension has one
partner at most, two are equal exactly if their partners are.
-/

namespace TensorIR

open Relator

variable {κ : Correspondence}

/-! ### Dimensions and shapes -/

namespace Dim.Alike

variable {d d' l l' r r' : Dim}

theorem eq_iff (lhs : Dim.Alike κ l l') (rhs : Dim.Alike κ r r') : l = r ↔ l' = r' :=
  rel_eq (Dim.alike_unique κ) lhs rhs

theorem eq_int_iff (h : Dim.Alike κ d d') (n : Int64) : d = .int n ↔ d' = .int n :=
  h.eq_iff (.int n)

theorem isUnit_iff (h : Dim.Alike κ d d') (unit : Option Int64) :
    unit.map Dim.int = some d ↔ unit.map Dim.int = some d' := by
  cases unit with
  | none => exact ⟨nofun, nofun⟩
  | some n =>
      rw [Option.map_some, Option.some_inj, Option.some_inj, eq_comm, h.eq_int_iff n, eq_comm]

theorem fold (op : ArithOp) (lhs : Dim.Alike κ l l') (rhs : Dim.Alike κ r r') :
    Dim.Alike κ (Dim.fold op l r) (Dim.fold op l' r') := by
  have literals : literalResult? op l r = literalResult? op l' r' := by
    rw [literalResult?, literalResult?, lhs.literal?, rhs.literal?]
  rw [Dim.fold, Dim.fold, literals]
  cases literalResult? op l' r' with
  | some n => exact .int n
  | none =>
      refine rel_ite (lhs.isUnit_iff _) rhs (rel_ite (rhs.isUnit_iff _) lhs ?_)
      have zero : op = .mul ∧ (l = .int 0 ∨ r = .int 0) ↔
          op = .mul ∧ (l' = .int 0 ∨ r' = .int 0) := by
        rw [lhs.eq_int_iff 0, rhs.eq_int_iff 0]
      exact rel_ite zero (.int 0) (.binary op lhs rhs)

theorem join? (h : Dim.Alike κ l l') (h' : Dim.Alike κ r r') :
    Option.Rel (Dim.Alike κ) (l.join? r) (l'.join? r') := by
  rw [Dim.join?, Dim.join?]
  have first : l = r ∨ r = .int 1 ↔ l' = r' ∨ r' = .int 1 := by
    rw [h'.eq_int_iff 1, h.eq_iff h']
  exact rel_ite first (.some h) (rel_ite (h.eq_int_iff 1) (.some h') .none)

end Dim.Alike

namespace Shape

variable {s s' t t' : Shape}

theorem Alike.numElements (h : Shape.Alike κ s t) :
    Dim.Alike κ s.numElements t.numElements := by
  have step : LiftFun (Dim.Alike κ) (LiftFun (Dim.Alike κ) (Dim.Alike κ)) (Dim.fold .mul)
      (Dim.fold .mul) := fun _ _ acc _ _ d => Dim.Alike.fold .mul acc d
  exact List.rel_foldl step (.int 1) h

theorem Alike.broadcastInner? (h : Shape.Alike κ s t) (h' : Shape.Alike κ s' t') :
    Option.Rel (Shape.Alike κ) (broadcastInner? s s') (broadcastInner? t t') := by
  induction h generalizing s' t' with
  | nil => exact .some h'
  | cons head tail ih =>
      cases h' with
      | nil => exact .some (.cons head tail)
      | cons head' tail' =>
          exact rel_bind (head.join? head') fun _ _ dim =>
            rel_bind (ih tail') fun _ _ dims => .some (.cons dim dims)

theorem Alike.broadcast? (h : Shape.Alike κ s t) (h' : Shape.Alike κ s' t') :
    Option.Rel (Shape.Alike κ) (s.broadcast? s') (t.broadcast? t') :=
  rel_map (broadcastInner? (List.rel_reverse h) (List.rel_reverse h')) fun _ _ dims =>
    List.rel_reverse dims

theorem alike_broadcastAll? {shapes shapes' : List (Option Shape)}
    (h : List.Forall₂ (Option.Rel (Shape.Alike κ)) shapes shapes') :
    Option.Rel (Shape.Alike κ) (broadcastAll? shapes) (broadcastAll? shapes') := by
  cases h with
  | nil => exact .none
  | cons first rest =>
      exact rel_bind first fun _ _ start =>
        rel_foldlM rest (fun _ _ _ _ acc s => rel_bind s fun _ _ => acc.broadcast?) start

end Shape

/-! ### Expressions -/

section Infer

variable {vars vars' : List VarInfo}
  (infos : ∀ v w, κ.vars v w → Option.Rel (VarInfo.Alike κ) vars[v.index]? vars'[w.index]?)

theorem Callee.alike_resultShape? (callee : Callee) {es fs : List Expr}
    {shapes shapes' : List (Option Shape)} (args : Expr.AllAlike κ es fs)
    (operands : List.Forall₂ (Option.Rel (Shape.Alike κ)) shapes shapes') :
    Option.Rel (Shape.Alike κ) (callee.resultShape? es shapes)
      (callee.resultShape? fs shapes') := by
  have literal (i : Nat) : Option.Rel (Shape.Alike κ) (es[i]?.bind Expr.shapeLiteral?)
      (fs[i]?.bind Expr.shapeLiteral?) :=
    rel_bind (rel_getElem? args i) fun _ _ => Expr.Alike.shapeLiteral?
  cases callee with
  | op op =>
      cases op with
      | add | multiply | fma => exact Shape.alike_broadcastAll? operands
      | callDps | allocTensor => exact literal 0
      | vmAllocTensor => exact literal 2
      | callPacked | vmAllocStorage | vmStoreShape | vmLoadShape => exact .none
  | external symbol => exact rel_ite Iff.rfl (literal 0) .none
  | global _ => exact .none

theorem CallHead.Alike.resultTy? {h k : CallHead} {es fs : List Expr} (head : h.Alike κ k)
    (args : Expr.AllAlike κ es fs) (tys : List (Option Ty)) :
    h.resultTy? es tys = k.resultTy? fs tys := by
  have literal : (es[0]?.bind Expr.shapeLiteral?).map List.length =
      (fs[0]?.bind Expr.shapeLiteral?).map List.length := by
    have shapes := rel_bind (rel_getElem? args 0) fun _ _ => Expr.Alike.shapeLiteral?
    exact rel_eq_iff.1 (rel_map shapes fun _ _ => List.Forall₂.length_eq)
  rw [CallHead.resultTy?, CallHead.resultTy?, head.callee, head.attrs]
  revert literal
  generalize es[0]?.bind Expr.shapeLiteral? = s
  generalize fs[0]?.bind Expr.shapeLiteral? = t
  intro literal
  cases s with
  | none =>
      cases t with
      | none => rfl
      | some t => cases literal
  | some s =>
      cases t with
      | none => cases literal
      | some t =>
          have length : s.length = t.length := Option.some.inj literal
          simp only [Option.bind_eq_bind, Option.bind_some, length]

namespace Expr

include infos

theorem Alike.inferShape? {e f : Expr} (h : Expr.Alike κ e f) :
    Option.Rel (Shape.Alike κ) (e.inferShape? vars) (f.inferShape? vars') := by
  refine h.induction ?var ?shape ?tuple ?item ?const ?external ?global ?call
  case var => exact fun v w paired => rel_bind (infos v w paired) fun _ _ => VarInfo.Alike.shape
  case const => exact fun _ => .some .nil
  case call =>
    intro h k es fs head args ih
    refine rel_orElse head.shape ?_
    rw [head.callee, inferShapes_eq_map, inferShapes_eq_map]
    exact k.callee.alike_resultShape? args
      (List.forall₂_map_left_iff.2 (List.forall₂_map_right_iff.2 ih))
  case shape | tuple | item | external | global => intros; exact .none

/-- The types of the components of a tuple; of anything else there are none. -/
def fieldTys (vars : List VarInfo) : Expr → List (Option Ty)
  | tuple fields => inferTys vars fields
  | var _ | shape _ | item .. | const _ | external _ | global _ | call .. => []

omit infos in
theorem inferInputTys_eq (vars : List VarInfo) (es : List Expr) :
    inferInputTys vars es = (es[2]?.map (fieldTys vars)).getD [] := by
  match es with
  | [] | [_] | [_, _] => rfl
  | _ :: _ :: input :: _ => cases input <;> rfl

theorem Alike.inferTy? {e f : Expr} (h : Expr.Alike κ e f) :
    e.inferTy? vars = f.inferTy? vars' := by
  -- The types of the inputs of a destination-passing call are those of the parts of a part.
  suffices both : e.inferTy? vars = f.inferTy? vars' ∧ fieldTys vars e = fieldTys vars' f from
    both.1
  have ofAll {es fs : List Expr} (ih : List.Forall₂ (fun e f => e.inferTy? vars = f.inferTy? vars' ∧
      fieldTys vars e = fieldTys vars' f) es fs) : inferTys vars es = inferTys vars' fs := by
    rw [inferTys_eq_map, inferTys_eq_map]
    exact map_eq_map (ih.imp fun _ _ => And.left)
  refine h.induction ?var ?shape ?tuple ?item ?const ?external ?global ?call
  case var =>
    intro v w paired
    exact ⟨rel_eq_iff.1 (rel_bind (infos v w paired) fun _ _ alike => rel_eq_iff.2 alike.ty), rfl⟩
  case shape =>
    intro s t alike
    exact ⟨by simp only [Expr.inferTy?, alike.length_eq], rfl⟩
  case tuple =>
    intro es fs _ ih
    exact ⟨by simp only [Expr.inferTy?, ofAll ih], ofAll ih⟩
  case item =>
    intro e f i _ ih
    exact ⟨by simp only [Expr.inferTy?, ih.1], rfl⟩
  case const | external | global => exact fun _ => ⟨rfl, rfl⟩
  case call =>
    intro h k es fs head args ih
    have inputs : inferInputTys vars es = inferInputTys vars' fs := by
      rw [inferInputTys_eq, inferInputTys_eq]
      exact congrArg (Option.getD · [])
        (rel_eq_iff.1 (rel_map (rel_getElem? ih 2) fun _ _ => And.right))
    refine ⟨?_, rfl⟩
    simp only [Expr.inferTy?, inputs, ofAll ih, head.callee, head.ty, head.resultTy? args]

theorem Alike.annotate {e f : Expr} (h : Expr.Alike κ e f) :
    Expr.Alike κ (e.annotate vars) (f.annotate vars') := by
  have ty := h.inferTy? infos
  have shape := h.inferShape? infos
  cases h with
  | call head args => exact .call ⟨head.callee, head.attrs, ty, shape⟩ args
  | var paired => exact .var paired
  | shape alike => exact .shape alike
  | tuple alike => exact .tuple alike
  | item alike i => exact .item alike i
  | const c => exact .const c
  | external s => exact .external s
  | global n => exact .global n

end Expr

end Infer

end TensorIR
