import TensorIR.Proofs.CallNodes
import TensorIR.Proofs.Outputs

/-!
# Inferred shapes have the inferred rank

The shape and the type of a value are inferred apart from each other, by rules of their own and with
failures of their own. Where both are known they still agree: the type is one of tensors, and its
rank is the length of the shape unless it is unknown (`Expr.coherent_inference`). The two folds over
the operands of an elementwise call keep in step, since the length of a broadcast shape is the
larger of two lengths, as the rank of an elementwise result is the larger of two ranks. Every other
rule that knows a shape takes its rank from the same argument.

Annotations are believed without question, and so is the length of a heap, of which the type says
that it has one dimension. Apart from these, all that inference starts from is what is on record of
variables. What a builder records of a new variable is inferred from the records that it has, so the
agreement is an invariant of every history in which the caller's own records agree
(`Builder.coherent_of_history`).
-/

namespace TensorIR

/-- The type is one of tensors, of the given rank or of an unknown one. -/
def Ty.OfRank (n : Nat) : Ty → Prop
  | tensor rank _ => rank = none ∨ rank = some n
  | shape _ | object | tuple _ => False

instance (n : Nat) : (t : Ty) → Decidable (t.OfRank n)
  | .tensor rank _ => inferInstanceAs (Decidable (rank = none ∨ rank = some n))
  | .shape _ | .object | .tuple _ => .isFalse id

/-- A shape and a type that one value can have: where both are known, the type is of the rank that
the shape says. -/
def Coherent (shape : Option Shape) (ty : Option Ty) : Prop :=
  ∀ s ∈ shape, ∀ t ∈ ty, t.OfRank s.length

instance (shape : Option Shape) (ty : Option Ty) : Decidable (Coherent shape ty) :=
  inferInstanceAs (Decidable (∀ s ∈ shape, ∀ t ∈ ty, t.OfRank s.length))

/-- The recorded shape and the recorded type of a variable do not contradict each other. -/
def VarInfo.Coherent (info : VarInfo) : Prop := TensorIR.Coherent info.shape info.ty

instance (info : VarInfo) : Decidable info.Coherent :=
  inferInstanceAs (Decidable (TensorIR.Coherent info.shape info.ty))

/-! ### Elementwise results -/

namespace Shape

variable {a b c : Shape}

theorem length_broadcastInner? (found : broadcastInner? a b = some c) :
    c.length = max a.length b.length := by
  fun_induction broadcastInner? a b generalizing c with
  | case1 b =>
      cases found
      exact (Nat.zero_max _).symm
  | case2 d a =>
      cases found
      exact (Nat.max_zero _).symm
  | case3 d a e b ih =>
      obtain ⟨f, -, found⟩ := Option.bind_eq_some_iff.1 found
      obtain ⟨c, rest, same⟩ := Option.bind_eq_some_iff.1 found
      cases same
      rw [List.length_cons, List.length_cons, List.length_cons, ih rest, Nat.succ_max_succ]

theorem length_broadcast? (found : a.broadcast? b = some c) :
    c.length = max a.length b.length := by
  obtain ⟨inner, aligned, rfl⟩ := Option.map_eq_some_iff.1 found
  rw [List.length_reverse, length_broadcastInner? aligned, List.length_reverse,
    List.length_reverse]

end Shape

theorem Ty.OfRank.elementwise {m n : Nat} {s t u : Ty} (left : s.OfRank m) (right : t.OfRank n)
    (found : s.elementwise? t = some u) : u.OfRank (max m n) := by
  cases s with
  | shape _ | object | tuple _ => exact left.elim
  | tensor r e =>
      cases t with
      | shape _ | object | tuple _ => exact right.elim
      | tensor r' e' =>
          rw [elementwise?] at found
          split at found
          · cases found
            obtain rfl | rfl := left
            · exact .inl rfl
            · obtain rfl | rfl := right
              · exact .inl rfl
              · exact .inr rfl
          · cases found

section Elementwise

variable {shapes : List (Option Shape)} {tys : List (Option Ty)}

/-- The two folds keep in step. -/
theorem coherent_foldlM (operands : List.Forall₂ Coherent shapes tys) {a : Shape} {t : Ty}
    (start : t.OfRank a.length) :
    Coherent (shapes.foldlM (fun acc s => s.bind acc.broadcast?) a)
      (tys.foldlM (fun acc t => t.bind acc.elementwise?) t) := by
  induction operands generalizing a t with
  | nil =>
      rintro s ⟨⟩ t ⟨⟩
      exact start
  | cons head _ ih =>
      intro s shape u ty
      obtain ⟨a', first, shapes⟩ := Option.bind_eq_some_iff.1 shape
      obtain ⟨b, rfl, joined⟩ := Option.bind_eq_some_iff.1 first
      obtain ⟨t', first, tys⟩ := Option.bind_eq_some_iff.1 ty
      obtain ⟨v, rfl, elementwise⟩ := Option.bind_eq_some_iff.1 first
      have next := start.elementwise (head b rfl v rfl) elementwise
      rw [← Shape.length_broadcast? joined] at next
      exact ih next s shapes u tys

theorem coherent_elementwise (operands : List.Forall₂ Coherent shapes tys) :
    Coherent (Shape.broadcastAll? shapes) (Ty.elementwiseAll? tys) := by
  cases operands with
  | nil => exact nofun
  | @cons x y _ _ head rest =>
      intro s shape u ty
      obtain ⟨a, rfl, shapes⟩ := Option.bind_eq_some_iff.1 shape
      match y with
      | some (.tensor r e) => exact coherent_foldlM rest (head a rfl _ rfl) s shapes u ty
      | none | some (.shape _) | some .object | some (.tuple _) => cases ty

end Elementwise

/-! ### Inference -/

namespace Expr

variable {vars : List VarInfo} {e : Expr} {head : CallHead} {args : List Expr}

/-- Nothing is annotated on any call. -/
def Unannotated (e : Expr) : Prop := ∀ x ∈ e.subexprs, x.bare = x

/-- A heap for shapes is allocated with no other shape than a one-dimensional one. -/
def HeapsFlat (e : Expr) : Prop :=
  ∀ node ∈ e.calls, node.callee = .external Builtin.allocShapeHeap →
    ∀ s ∈ node.args[0]?.bind shapeLiteral?, s.length = 1

instance (e : Expr) : Decidable e.Unannotated := inferInstanceAs (Decidable (∀ x ∈ _, _))

instance (e : Expr) : Decidable e.HeapsFlat := inferInstanceAs (Decidable (∀ x ∈ _, _))

theorem Unannotated.annotations (h : (call head args).Unannotated) :
    head.shape = none ∧ head.ty = none := by
  have outer := h (call head args) (by simp [subexprs])
  rw [bare] at outer
  injection outer with same
  rw [← same]
  exact ⟨rfl, rfl⟩

theorem Unannotated.arg (h : (call head args).Unannotated) (mem : e ∈ args) : e.Unannotated := by
  intro x inner
  refine h x ?_
  rw [subexprs, subexprsAll_eq_flatMap]
  exact List.mem_append_left _ (List.mem_flatMap.2 ⟨e, mem, inner⟩)

theorem HeapsFlat.arg (h : (call head args).HeapsFlat) (mem : e ∈ args) : e.HeapsFlat := by
  intro node inner
  refine h node ?_
  rw [calls_call]
  exact List.mem_append_left _ (List.mem_flatMap.2 ⟨e, mem, inner⟩)

theorem HeapsFlat.length_eq (h : (call head args).HeapsFlat)
    (callee : head.callee = .external Builtin.allocShapeHeap) :
    ∀ s ∈ args[0]?.bind shapeLiteral?, s.length = 1 :=
  h ⟨head.callee, head.attrs, args⟩ (by simp [calls_call]) callee

theorem eq_shape_of_literal {s : Shape} (literal : e.shapeLiteral? = some s) : e = shape s := by
  cases e with
  | shape t =>
      cases literal
      rfl
  | var _ | tuple _ | item _ _ | const _ | external _ | global _ | call _ _ => cases literal

/-- The type takes its rank from the shape. -/
theorem coherent_bind {x : Option Shape} {f : Shape → Option Ty}
    (rank : ∀ s, ∀ t ∈ f s, t.OfRank s.length) : Coherent x (x.bind f) := by
  rintro s rfl t known
  exact rank s t known

/-- Every rule for a callee gives a shape and a type that agree, if those of the arguments do. -/
theorem coherent_result
    (operands : List.Forall₂ Coherent (args.map (inferShape? vars)) (args.map (inferTy? vars)))
    (flat : (call head args).HeapsFlat) :
    Coherent (head.callee.resultShape? args (args.map (inferShape? vars)))
      (head.resultTy? args
        (if head.callee = .op .callDps then inferInputTys vars args
          else args.map (inferTy? vars))) := by
  have heap := flat.length_eq
  rw [CallHead.resultTy?]
  cases callee : head.callee with
  | op op =>
      cases op with
      | add | multiply | fma => exact coherent_elementwise operands
      | callDps =>
          refine coherent_bind fun s t known => ?_
          cases known
          exact .inr rfl
      | allocTensor =>
          refine coherent_bind fun s t known => ?_
          obtain ⟨elem, -, same⟩ := Option.bind_eq_some_iff.1 known
          cases same
          exact .inr rfl
      | vmAllocTensor =>
          intro s found t known
          obtain ⟨e, third, literal⟩ := Option.bind_eq_some_iff.1 found
          rw [eq_shape_of_literal literal] at third
          rw [if_neg (by decide), List.getElem?_map, third] at known
          obtain ⟨out, inferred, known⟩ := Option.bind_eq_some_iff.1 known
          cases inferred
          obtain ⟨elem, -, same⟩ := Option.bind_eq_some_iff.1 known
          cases same
          exact .inr rfl
      | callPacked | vmAllocStorage | vmStoreShape | vmLoadShape => rintro s ⟨⟩
  | external symbol =>
      rw [Callee.resultShape?]
      split
      · next allocates =>
          subst allocates
          intro s found t known
          cases known
          exact .inr (congrArg some (heap callee s found).symm)
      · rintro s ⟨⟩
  | global _ => rintro s ⟨⟩

/-- Where both are known, the inferred type is of the rank that the inferred shape says. -/
theorem coherent_inference (recorded : ∀ info ∈ vars, info.Coherent) :
    ∀ e : Expr, e.Unannotated → e.HeapsFlat → Coherent (e.inferShape? vars) (e.inferTy? vars) := by
  intro e
  induction e using Expr.induction with
  | var v =>
      intro _ _
      rw [inferShape?, inferTy?]
      cases found : vars[v.index]? with
      | none => exact nofun
      | some info => exact recorded info (List.mem_of_getElem? found)
  | const c =>
      rintro _ _ s ⟨⟩ t ⟨⟩
      exact .inr rfl
  | shape _ | tuple _ _ | item _ _ _ | external _ | global _ => exact fun _ _ => nofun
  | call head args ih =>
      intro unannotated flat
      have operands : List.Forall₂ Coherent (args.map (inferShape? vars))
          (args.map (inferTy? vars)) :=
        List.forall₂_map_left_iff.2 <| List.forall₂_map_right_iff.2 <| List.forall₂_same.2
          fun e mem => ih e mem (unannotated.arg mem) (flat.arg mem)
      obtain ⟨shape, ty⟩ := unannotated.annotations
      rw [inferShape?, inferTy?, shape, ty, inferShapes_eq_map, inferTys_eq_map]
      exact coherent_result operands flat

end Expr

/-! ### Histories -/

namespace Builder

variable {b b' : Builder} {a : Action} {actions : List Action} {value : Expr}

/-- Every record of a variable is coherent. -/
def Coherent (b : Builder) : Prop := ∀ info ∈ b.vars, info.Coherent

/-- What the caller says of a new variable is coherent: what it has on record of a variable that it
allocates itself, and what it annotates in the value of one that the builder allocates. Nothing is
asked of what is bound to variables that exist, which changes no record. -/
def Action.Coherent : Action → Prop
  | param _ shape ty => TensorIR.Coherent shape ty
  | fresh info => info.Coherent
  | emit value | emitNamed _ value | emitOutput value => value.Unannotated ∧ value.HeapsFlat
  | dimVar _ | setRetTy _ | openRegion | closeRegion | dropRegion | sealBlock => True
  | bind .. | push _ | pushBlock _ => True

instance : (a : Action) → Decidable a.Coherent
  | .param _ shape ty => inferInstanceAs (Decidable (TensorIR.Coherent shape ty))
  | .fresh info => inferInstanceAs (Decidable info.Coherent)
  | .emit value | .emitNamed _ value | .emitOutput value =>
    inferInstanceAs (Decidable (value.Unannotated ∧ value.HeapsFlat))
  | .dimVar _ | .setRetTy _ | .openRegion | .closeRegion | .dropRegion | .sealBlock | .bind ..
  | .push _ | .pushBlock _ => .isTrue trivial

theorem Coherent.of_vars (h : b.Coherent) (same : b'.vars = b.vars) : b'.Coherent := by
  rw [Coherent, same]
  exact h

theorem Coherent.append (h : b.Coherent) (info : VarInfo) (new : info.Coherent)
    (grown : b'.vars = b.vars ++ [info]) : b'.Coherent := by
  rw [Coherent, grown]
  exact List.forall_mem_append.2 ⟨h, List.forall_mem_singleton.2 new⟩

theorem Coherent.binds (h : b.Coherent) (unannotated : value.Unannotated)
    (flat : value.HeapsFlat) (binds : a.Binds b value) : (b.perform a).1.Coherent := by
  obtain ⟨i, j, name, kind, performed⟩ := binds
  have inferred := Expr.coherent_inference h value unannotated flat
  rw [← Expr.inferShape?_annotate, ← Expr.inferTy?_annotate] at inferred
  refine h.append ⟨name, kind, (value.annotate b.vars).inferShape? b.vars,
    (value.annotate b.vars).inferTy? b.vars⟩ inferred ?_
  rw [performed]
  rfl

theorem Coherent.perform (h : b.Coherent) (given : a.Coherent) : (b.perform a).1.Coherent := by
  cases a with
  | param name shape ty =>
      exact h.append ⟨name, .plain, shape, ty⟩ given rfl
  | fresh info => exact h.append info given rfl
  | emit value => exact h.binds given.1 given.2 (binds_emit b value)
  | emitNamed name value => exact h.binds given.1 given.2 (binds_emitNamed b name value)
  | emitOutput value =>
      cases place : b.inDataflow with
      | true => exact h.binds given.1 given.2 (binds_emitOutput value place)
      | false => exact h.of_vars (vars_emitOutput_outside place)
  | dimVar _ | setRetTy _ => exact h
  | openRegion => exact h.of_vars (vars_refusable fun b' => vars_of_openRegion)
  | closeRegion =>
      rw [(perform_closeRegion b).1]
      exact h.of_vars (vars_closeRegion b)
  | dropRegion => exact h.of_vars (vars_dropRegion b)
  | sealBlock => exact h.of_vars (vars_sealBlock b)
  | bind v value =>
      refine h.of_vars (vars_refusable fun b' bound => ?_)
      rw [bind_eq_ok_append bound]
      rfl
  | push x =>
      refine h.of_vars (vars_refusable fun b' pushed => ?_)
      rw [push_eq_ok_append pushed]
      rfl
  | pushBlock block => exact h.of_vars (vars_refusable fun b' => vars_of_pushBlock)

theorem Coherent.performAll (h : b.Coherent) (given : ∀ a ∈ actions, a.Coherent) :
    (b.performAll actions).Coherent := by
  induction actions generalizing b with
  | nil => exact h
  | cons a actions ih =>
      obtain ⟨first, rest⟩ := List.forall_mem_cons.1 given
      exact ih (h.perform first) rest

/-- After every operation of a history in which all that the caller says of variables is coherent,
so is all that is on record, and what is inferred of the shape and the type of any expression
without annotations. -/
theorem coherent_of_history (name : String) {actions : List Action}
    (given : ∀ a ∈ actions, a.Coherent) :
    ∀ before, before <+: actions →
      (performAll { name } before).Coherent ∧
      (∀ e : Expr, e.Unannotated → e.HeapsFlat → ∀ s t,
        e.inferShape? (performAll { name } before).vars = some s →
        e.inferTy? (performAll { name } before).vars = some t → t.OfRank s.length) ∧
      ∀ body f, (performAll { name } before).finish body = .ok f →
        ∀ info ∈ f.vars, info.Coherent := by
  intro before isPrefix
  have coherent : (performAll { name } before).Coherent :=
    Coherent.performAll (b := { name }) nofun fun a mem => given a (isPrefix.subset mem)
  refine ⟨coherent, fun e unannotated flat s t shape ty => ?_, fun body f finished => ?_⟩
  · exact Expr.coherent_inference coherent e unannotated flat s shape t ty
  · rw [(finish_eq_ok finished).2.2.1]
    exact coherent

/-- A history in which the rank of one parameter is on record and that of the other is not:

    fn main(x: (n, 1), y: (4)) {
      dataflow { lv0 = add(x, x); gv0 = fma(lv0, multiply(y, x), y) }
      heap = alloc_shape_heap((8))
    }
-/
def widening : List Action :=
  [.dimVar "n", .param "x" (some [.var ⟨0⟩, .int 1]) (some (.tensor (some 2) .float32)),
    .param "y" (some [.int 4]) (some (.tensor none .float32)), .openRegion,
    .emit (.ofOp .add [.var ⟨0⟩, .var ⟨0⟩]),
    .emitOutput (.ofOp .fma [.var ⟨2⟩, .ofOp .multiply [.var ⟨1⟩, .var ⟨0⟩], .var ⟨1⟩]),
    .closeRegion,
    .emitNamed "heap" (.ofCallee (.external Builtin.allocShapeHeap) [.shape [.int 8]])]

/-- A sum with the result of a kernel, which has more dimensions than either parameter. -/
def widened : Expr :=
  .ofOp .add [.var ⟨2⟩, .ofOp .callDps [.shape [.int 3, .int 1, .int 4], .external "f", .var ⟨0⟩]]

theorem coherent_of_history_widening :
    (performAll { name := "main" } widening).vars.map (fun info => (info.shape, info.ty)) =
        [(some [.var ⟨0⟩, .int 1], some (.tensor (some 2) .float32)),
          (some [.int 4], some (.tensor none .float32)),
          (some [.var ⟨0⟩, .int 1], some (.tensor (some 2) .float32)),
          (some [.var ⟨0⟩, .int 4], some (.tensor none .float32)),
          (some [.int 8], some (.tensor (some 1) .int64))] ∧
      (performAll { name := "main" } widening).Coherent ∧
      widened.inferTy? (performAll { name := "main" } widening).vars =
        some (.tensor (some 3) .float32) ∧
      (Ty.tensor (some 3) .float32).OfRank
        ([.int 3, .var ⟨0⟩, .int 4] : Shape).length := by
  have given : ∀ a ∈ widening, a.Coherent := by decide +kernel
  obtain ⟨coherent, agree, -⟩ := coherent_of_history "main" given widening List.prefix_rfl
  have shape : widened.inferShape? (performAll { name := "main" } widening).vars =
      some [.int 3, .var ⟨0⟩, .int 4] := by decide +kernel
  have ty : widened.inferTy? (performAll { name := "main" } widening).vars =
      some (.tensor (some 3) .float32) := by decide +kernel
  exact ⟨by decide +kernel, coherent, ty,
    agree widened (by decide +kernel) (by decide +kernel) _ _ shape ty⟩

end Builder

end TensorIR
