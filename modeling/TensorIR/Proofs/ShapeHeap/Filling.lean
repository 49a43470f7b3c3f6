import TensorIR.Proofs.CallNodes
import TensorIR.Proofs.Scoping
import TensorIR.Proofs.Settled
import TensorIR.Proofs.ShapeHeap.Loads

/-!
# Inference with loads in place of shapes

A variable that names a load is recorded with no shape and with the type of the shape that is
loaded. This is all that is known of the shape as an expression. So putting loads in the place of
shapes does not change what is inferred of an expression, as long as no call looks at its arguments
for more: the rule of an allocation takes a shape that is spelled out, and finds none in a load.

Only calls that are annotated already are safe from that, and those at the top of a settled value
are (`Expr.annotate_fill`). A call in the middle of an expression need not be annotated.
-/

namespace TensorIR

/-- The variable is recorded as what a load of the shape gives. -/
def Var.Loads (vars : List VarInfo) (v : Var) (s : Shape) : Prop :=
  ∃ info, vars[v.index]? = some info ∧ info.shape = none ∧ info.ty = some (.shape (some s.length))

/-- There is a variable for each shape, recorded as what a load of it gives. -/
def LoadsAll (vars : List VarInfo) (vs : List Var) (ss : List Shape) : Prop :=
  ∀ (i : Nat) (s : Shape), ss[i]? = some s → ∃ v : Var, vs[i]? = some v ∧ v.Loads vars s

theorem Var.Loads.mono {vars vars' : List VarInfo} {v : Var} {s : Shape} (h : v.Loads vars s)
    (grown : vars <+: vars') : v.Loads vars' s := by
  obtain ⟨info, found, known⟩ := h
  obtain ⟨more, rfl⟩ := grown
  exact ⟨info, (getElem?_grown (List.getElem?_eq_some_iff.1 found).1).trans found, known⟩

namespace LoadsAll

variable {vars vars' : List VarInfo} {vs : List Var} {ss ts : List Shape}

theorem left (h : LoadsAll vars vs (ss ++ ts)) : LoadsAll vars vs ss := by
  intro i s found
  refine h i s ?_
  rw [List.getElem?_append_left (List.getElem?_eq_some_iff.1 found).1]
  exact found

theorem right (h : LoadsAll vars vs (ss ++ ts)) : LoadsAll vars (vs.drop ss.length) ts := by
  intro i s found
  have there : (ss ++ ts)[ss.length + i]? = some s := by
    rwa [List.getElem?_append_right (Nat.le_add_right _ _), Nat.add_sub_cancel_left]
  obtain ⟨v, at_, loads⟩ := h (ss.length + i) s there
  exact ⟨v, by rwa [List.getElem?_drop], loads⟩

theorem mono (h : LoadsAll vars vs ss) (grown : vars <+: vars') : LoadsAll vars' vs ss := by
  intro i s found
  obtain ⟨v, at_, loads⟩ := h i s found
  exact ⟨v, at_, loads.mono grown⟩

theorem nil : LoadsAll vars vs [] := nofun

theorem cons {v : Var} {s : Shape} (head : v.Loads vars s) (tail : LoadsAll vars vs ss) :
    LoadsAll vars (v :: vs) (s :: ss) := by
  intro i t found
  cases i with
  | zero =>
      cases found
      exact ⟨v, rfl, head⟩
  | succ i => exact tail i t found

end LoadsAll

namespace Expr

variable {vars vars' : List VarInfo} {vs : List Var} {v : Var} {s : Shape} {d : DimVar}

/-! ### What a filled expression reads and names -/

mutual

theorem mem_reads_fill {vs : List Var} : ∀ e : Expr,
    v ∈ (e.fill vs).reads → v ∈ e.reads ∨ v ∈ vs
  | .shape s, h => by
      rw [fill] at h
      split at h
      · cases vs with
        | nil => exact .inl h
        | cons w ws => exact .inr (by simp [List.mem_singleton.1 h])
      · exact .inl h
  | .tuple es, h | .call _ es, h => by
      rw [fill, reads] at h
      rw [reads]
      exact mem_readsAll_fillAll es h
  | .item t _, h => by
      rw [fill, reads] at h
      rw [reads]
      exact mem_reads_fill t h
  | .var _, h | .const _, h | .external _, h | .global _, h => .inl h

theorem mem_readsAll_fillAll {vs : List Var} : ∀ es : List Expr,
    v ∈ readsAll (fillAll vs es) → v ∈ readsAll es ∨ v ∈ vs
  | [], h => .inl h
  | e :: es, h => by
      rw [fillAll, readsAll, List.mem_append] at h
      rw [readsAll, List.mem_append, or_assoc]
      rcases h with here | later
      · exact (mem_reads_fill e here).imp_right .inr
      · exact .inr ((mem_readsAll_fillAll es later).imp_right List.mem_of_mem_drop)

end

mutual

theorem mem_dimVars_fill {vs : List Var} : ∀ e : Expr, d ∈ (e.fill vs).dimVars → d ∈ e.dimVars
  | .shape s, h => by
      rw [fill] at h
      split at h
      · cases vs with
        | nil => exact h
        | cons w ws => cases h
      · exact h
  | .tuple es, h => by
      rw [fill, dimVars] at h
      rw [dimVars]
      exact mem_dimVarsAll_fillAll es h
  | .call head es, h => by
      rw [fill, dimVars, List.mem_append] at h
      rw [dimVars, List.mem_append]
      exact h.imp_right (mem_dimVarsAll_fillAll es)
  | .item t _, h => by
      rw [fill, dimVars] at h
      rw [dimVars]
      exact mem_dimVars_fill t h
  | .var _, h | .const _, h | .external _, h | .global _, h => h

theorem mem_dimVarsAll_fillAll {vs : List Var} : ∀ es : List Expr,
    d ∈ dimVarsAll (fillAll vs es) → d ∈ dimVarsAll es
  | [], h => h
  | e :: es, h => by
      rw [fillAll, dimVarsAll, List.mem_append] at h
      rw [dimVarsAll, List.mem_append]
      exact h.imp (mem_dimVars_fill e) (mem_dimVarsAll_fillAll es)

end

/-! ### Inference -/

mutual

theorem stands_fill {vs : List Var} : ∀ e : Expr, e.calls = [] →
    (∀ v ∈ e.reads, vars'[v.index]? = vars[v.index]?) → LoadsAll vars' vs e.symbolicShapes →
    Stands vars vars' e (e.fill vs)
  | .var v, _, agree, _ => by
      have same := agree v (List.mem_singleton_self v)
      rw [fill]
      exact ⟨by rw [inferShape?, inferShape?, same], by rw [inferTy?, inferTy?, same]⟩
  | .shape s, _, _, loads => by
      rw [symbolicShapes] at loads
      rw [fill]
      split
      · next symbolic =>
          rw [if_pos symbolic] at loads
          obtain ⟨v, first, info, found, shape, ty⟩ := loads 0 s rfl
          rw [List.head?_eq_getElem?, first, Option.map_some, Option.getD_some]
          exact ⟨by rw [inferShape?, found, Option.bind_some, shape, inferShape?],
            by rw [inferTy?, found, Option.bind_some, ty, inferTy?]⟩
      · exact ⟨rfl, rfl⟩
  | .tuple es, inner, agree, loads => by
      rw [calls_tuple] at inner
      rw [fill]
      refine ⟨rfl, ?_⟩
      rw [inferTy?, inferTy?, (standsAll_fillAll es inner agree loads).2]
  | .item t i, inner, agree, loads => by
      rw [calls_item] at inner
      rw [fill]
      refine ⟨rfl, ?_⟩
      rw [inferTy?, inferTy?, (stands_fill t inner agree loads).ty]
  | .const _, _, _, _ | .external _, _, _, _ | .global _, _, _, _ => ⟨rfl, rfl⟩
  | .call head es, inner, _, _ => by
      rw [calls_call] at inner
      cases (List.append_eq_nil_iff.1 inner).2

theorem standsAll_fillAll {vs : List Var} : ∀ es : List Expr, es.flatMap calls = [] →
    (∀ v ∈ readsAll es, vars'[v.index]? = vars[v.index]?) →
    LoadsAll vars' vs (symbolicShapesAll es) →
    inferShapes vars' (fillAll vs es) = inferShapes vars es ∧
      inferTys vars' (fillAll vs es) = inferTys vars es
  | [], _, _, _ => ⟨rfl, rfl⟩
  | e :: es, inner, agree, loads => by
      rw [List.flatMap_cons, List.append_eq_nil_iff] at inner
      obtain ⟨here, later⟩ := List.forall_mem_append.1 agree
      obtain ⟨shape, ty⟩ := stands_fill e inner.1 here loads.left
      obtain ⟨shapes, tys⟩ := standsAll_fillAll es inner.2 later loads.right
      rw [fillAll]
      exact ⟨by rw [inferShapes, inferShapes, shape, shapes], by rw [inferTys, inferTys, ty, tys]⟩

end

/-- Filling spells out no shape. -/
theorem shapeLiteral?_fill {e : Expr} (h : (e.fill vs).shapeLiteral? = some s) :
    e.shapeLiteral? = some s := by
  cases e with
  | shape t =>
      rw [fill] at h
      split at h
      · cases vs with
        | nil => exact h
        | cons _ _ => cases h
      · exact h
  | var _ | tuple _ | item _ _ | const _ | external _ | global _ | call _ _ =>
      rw [fill] at h
      cases h

theorem getElem?_fillAll (es : List Expr) (i : Nat) (vs : List Var) :
    ∃ ws, (fillAll vs es)[i]? = es[i]?.map (fill ws) := by
  induction es generalizing i vs with
  | nil => exact ⟨vs, rfl⟩
  | cons e es ih =>
      cases i with
      | zero => exact ⟨vs, rfl⟩
      | succ i => exact ih i _

theorem shapeLiteral?_fillAll {es : List Expr} {i : Nat}
    (unspelled : es[i]?.bind shapeLiteral? = none) :
    (fillAll vs es)[i]?.bind shapeLiteral? = none := by
  obtain ⟨ws, at_⟩ := getElem?_fillAll es i vs
  rw [at_]
  cases found : es[i]? with
  | none => rfl
  | some e =>
      rw [found, Option.bind_some] at unspelled
      rw [Option.map_some, Option.bind_some, Option.eq_none_iff_forall_ne_some]
      intro s spelled
      rw [shapeLiteral?_fill spelled] at unspelled
      cases unspelled

end Expr

/-- A callee that could not tell the shape of its result from shapes cannot tell it from loads. -/
theorem Callee.resultShape?_fillAll {callee : Callee} {args : List Expr} {vs : List Var}
    {shapes : List (Option Shape)} (unknown : callee.resultShape? args shapes = none) :
    callee.resultShape? (Expr.fillAll vs args) shapes = none := by
  cases callee with
  | op op =>
      cases op with
      | add | multiply | fma => exact unknown
      | callDps | allocTensor | vmAllocTensor => exact Expr.shapeLiteral?_fillAll unknown
      | callPacked | vmAllocStorage | vmStoreShape | vmLoadShape => rfl
  | external symbol =>
      rw [resultShape?] at unknown ⊢
      split
      · next alloc =>
          rw [if_pos alloc] at unknown
          exact Expr.shapeLiteral?_fillAll unknown
      · rfl
  | global _ => rfl

/-- The same for types, where the operands of other calls than those in destination-passing style
have the same types. -/
theorem CallHead.resultTy?_fillAll {head : CallHead} {args : List Expr} {vs : List Var}
    {tys tys' : List (Option Ty)} (same : head.callee ≠ .op .callDps → tys' = tys)
    (unknown : head.resultTy? args tys = none) :
    head.resultTy? (Expr.fillAll vs args) tys' = none := by
  obtain ⟨callee, attrs, shape, ty⟩ := head
  cases callee with
  | op op =>
      cases op with
      | callDps =>
          cases found : args[0]?.bind Expr.shapeLiteral? with
          | none =>
              simp only [resultTy?, Expr.shapeLiteral?_fillAll found]
              rfl
          | some s =>
              simp only [resultTy?, found] at unknown
              cases unknown
      | allocTensor =>
          cases found : args[0]?.bind Expr.shapeLiteral? with
          | none =>
              simp only [resultTy?, Expr.shapeLiteral?_fillAll found]
              rfl
          | some s =>
              simp only [resultTy?, found] at unknown ⊢
              cases elem : attrs.elem? with
              | none => cases (Expr.fillAll vs args)[0]?.bind Expr.shapeLiteral? <;> rfl
              | some e =>
                  rw [elem] at unknown
                  cases unknown
      | add | multiply | fma | callPacked | vmAllocStorage | vmAllocTensor | vmStoreShape
      | vmLoadShape =>
          rw [same (by simp)]
          exact unknown
  | external symbol =>
      rw [same (by simp)]
      exact unknown
  | global _ => rfl

/-- A value that is annotated in full has on its call what is inferred of it. -/
theorem Expr.head_of_annotated {vars : List VarInfo} {head : CallHead} {args : List Expr}
    (annotated : (call head args).annotate vars = call head args) :
    head.shape = (call head args).inferShape? vars ∧ head.ty = (call head args).inferTy? vars := by
  have same := (Expr.call.inj annotated).1
  exact ⟨(congrArg CallHead.shape same).symm, (congrArg CallHead.ty same).symm⟩

/-- What a builder infers of a settled value, and so the value itself, is the same with loads in the
place of shapes. -/
theorem Expr.annotate_fill {vars vars' : List VarInfo} {vs : List Var} {e : Expr}
    (inner : e.innerCalls = []) (annotated : e.annotate vars = e)
    (agree : ∀ v ∈ e.reads, vars'[v.index]? = vars[v.index]?)
    (loads : LoadsAll vars' vs e.symbolicShapes) :
    Stands vars vars' e (e.fill vs) ∧ (e.fill vs).annotate vars' = e.fill vs := by
  cases e with
  | call head args =>
      obtain ⟨shapes, tys⟩ := standsAll_fillAll args inner agree loads
      obtain ⟨shape, ty⟩ := head_of_annotated annotated
      have sameShape : ((call head args).fill vs).inferShape? vars' = head.shape := by
        rw [fill, inferShape?, shapes]
        cases known : head.shape with
        | some s => rfl
        | none =>
            rw [known, inferShape?, known] at shape
            exact Callee.resultShape?_fillAll shape.symm
      have sameTy : ((call head args).fill vs).inferTy? vars' = head.ty := by
        rw [fill, inferTy?]
        cases known : head.ty with
        | some t => rfl
        | none =>
            rw [known, inferTy?, known] at ty
            refine CallHead.resultTy?_fillAll (fun other => ?_) ty.symm
            rw [if_neg other, if_neg other, tys]
      refine ⟨⟨sameShape.trans shape, sameTy.trans ty⟩, ?_⟩
      rw [fill] at sameShape sameTy ⊢
      rw [annotate, sameShape, sameTy]
  | var _ => exact ⟨stands_fill _ inner agree loads, rfl⟩
  | shape s =>
      refine ⟨stands_fill _ inner agree loads, ?_⟩
      rw [fill]
      split
      · cases vs <;> rfl
      · rfl
  | tuple _ | item _ _ | const _ | external _ | global _ =>
      exact ⟨stands_fill _ inner agree loads, rfl⟩

end TensorIR
