import TensorIR.Proofs.Alpha.Alike
import TensorIR.Proofs.WellFormed

/-!
# Checking functions alike

Of two functions alike, both are well formed or neither is. The two checks go in step: their scopes
hold partners in the same places (`Scope.Alike`), so they see and define partners alike, and what is
recorded of partners agrees on which of them are dataflow variables. All dimension variables with a
partner have names, so no shape of either function can fail.
-/

namespace TensorIR

variable {κ : Correspondence}

/-- The scopes hold corresponding variables in the same order. -/
structure Scope.Alike (κ : Correspondence) (s t : Scope) : Prop where
  plain : List.Forall₂ κ.vars s.plain t.plain
  inner : List.Forall₂ κ.vars s.inner t.inner
  expired : List.Forall₂ κ.vars s.expired t.expired

namespace Scope.Alike

variable {s t : Scope} {v w : Var}

theorem sees (h : Scope.Alike κ s t) (paired : κ.vars v w) : s.sees v = t.sees w := by
  rw [Scope.sees, Scope.sees, rel_contains κ.vars_unique h.plain paired,
    rel_contains κ.vars_unique h.inner paired]

theorem defines (h : Scope.Alike κ s t) (paired : κ.vars v w) : s.defines v = t.defines w := by
  rw [Scope.defines, Scope.defines, rel_contains κ.vars_unique h.plain paired,
    rel_contains κ.vars_unique h.inner paired, rel_contains κ.vars_unique h.expired paired]

theorem leaveBlock (h : Scope.Alike κ s t) : Scope.Alike κ s.leaveBlock t.leaveBlock :=
  ⟨h.plain, .nil, List.rel_append h.inner h.expired⟩

end Scope.Alike

theorem VarInfo.Alike.isDataflow {i j : VarInfo} (h : VarInfo.Alike κ i j) :
    i.isDataflow = j.isDataflow := by
  rw [VarInfo.isDataflow, VarInfo.isDataflow, h.kind]

theorem named_of_shapesNamed {vars : List VarInfo} {dims : List String}
    (h : ShapesNamed vars dims) :
    ∀ v ∈ Shape.vars (vars.flatMap fun info => info.shape.getD []), v.index < dims.length := by
  intro v mem
  obtain ⟨d, mem, occurs⟩ := List.mem_flatMap.1 mem
  obtain ⟨info, mem, inShape⟩ := List.mem_flatMap.1 mem
  exact h info mem v (List.mem_flatMap.2 ⟨d, inShape, occurs⟩)

namespace Function

variable {f g : Function} {kind : BlockKind} {s t : Scope}
  (records : Records κ f.vars g.vars f.dimNames g.dimNames)
include records

theorem agree_allocated {v w : Var} (paired : κ.vars v w) :
    Agree (VarInfo.Alike κ) (f.allocated v) (g.allocated w) := by
  have recorded := records.infos v w paired
  rw [allocated, allocated]
  revert recorded
  generalize f.vars[v.index]? = i
  generalize g.vars[w.index]? = j
  rintro (alike | _)
  · exact .ok alike
  · exact .error

theorem agree_checkShape {d d' : Shape} (alike : Shape.Alike κ d d') :
    Agree Eq (f.checkShape d) (g.checkShape d') := by
  rw [checkShape_eq_ok.2 (records.named_left alike), checkShape_eq_ok.2 (records.named_right alike)]
  exact .ok rfl

theorem agree_checkRead (scopes : Scope.Alike κ s t) {v w : Var} (paired : κ.vars v w) :
    Agree Eq (f.checkRead s v) (g.checkRead t w) := by
  refine (agree_allocated records paired).bind fun _ _ _ => ?_
  rw [scopes.sees paired, rel_contains κ.vars_unique scopes.expired paired]
  exact Agree.ite Iff.rfl (fun _ => .ok rfl) fun _ =>
    Agree.ite Iff.rfl (fun _ => .error) fun _ => .error

omit records in
theorem agree_checkExprs {es fs : List Expr}
    (each : List.Forall₂ (fun e e' => Agree Eq (f.checkExpr s e) (g.checkExpr t e')) es fs) :
    Agree Eq (f.checkExprs s es) (g.checkExprs t fs) := by
  induction each with
  | nil => exact .ok rfl
  | cons head _ ih => exact head.check ih

theorem agree_checkExpr (scopes : Scope.Alike κ s t) {e e' : Expr} (alike : Expr.Alike κ e e') :
    Agree Eq (f.checkExpr s e) (g.checkExpr t e') := by
  refine alike.induction ?var ?shape ?tuple ?item ?const ?external ?global ?call
  case var => exact fun v w paired => agree_checkRead records scopes paired
  case shape => exact fun _ _ alike => agree_checkShape records alike
  case tuple => exact fun _ _ _ ih => agree_checkExprs ih
  case item => exact fun _ _ _ _ ih => ih
  case const | external | global => exact fun _ => .ok rfl
  case call =>
    exact fun _ _ _ _ head _ ih =>
      (agree_checkShape records (Shape.alike_getD head.shape)).check (agree_checkExprs ih)

theorem agree_checkDefinition (scopes : Scope.Alike κ s t) {v w : Var} (paired : κ.vars v w) :
    Agree (Scope.Alike κ) (f.checkDefinition kind s v) (g.checkDefinition kind t w) := by
  refine (agree_allocated records paired).bind fun i j info => ?_
  rw [scopes.defines paired, info.isDataflow]
  refine Agree.ite Iff.rfl (fun _ => .error) fun _ => ?_
  refine Agree.ite Iff.rfl (fun _ => ?_) fun _ => ?_
  · exact Agree.ite Iff.rfl (fun _ => .error) fun _ =>
      .ok ⟨scopes.plain, .cons paired scopes.inner, scopes.expired⟩
  · exact .ok ⟨.cons paired scopes.plain, scopes.inner, scopes.expired⟩

theorem agree_checkBinding (scopes : Scope.Alike κ s t) {x y : Binding}
    (alike : Binding.Alike κ x y) :
    Agree (Scope.Alike κ) (f.checkBinding kind s x) (g.checkBinding kind t y) := by
  refine (agree_checkExpr records scopes alike.value).check ?_
  refine (agree_checkShape records (Shape.alike_getD alike.pattern?)).check ?_
  have defined := alike.defined?
  revert defined
  generalize x.defined? = v
  generalize y.defined? = w
  rintro (paired | _)
  · exact agree_checkDefinition records scopes paired
  · exact .ok scopes

theorem agree_checkBlock (scopes : Scope.Alike κ s t) {x y : Block} (alike : Block.Alike κ x y)
    (n n' : Nat) : Agree (Scope.Alike κ) (f.checkBlock n s x) (g.checkBlock n' t y) := by
  rw [checkBlock, checkBlock, rel_isEmpty alike.bindings]
  refine Agree.ite Iff.rfl (fun _ => .error) fun _ => ?_
  rw [alike.kind]
  refine Agree.bind (Agree.foldlM alike.bindings ?_ scopes) fun _ _ scopes => .ok scopes.leaveBlock
  exact fun _ _ _ _ scopes alike => agree_checkBinding records scopes alike

theorem agree_checkBlocks (scopes : Scope.Alike κ s t) {xs ys : List Block}
    (alike : List.Forall₂ (Block.Alike κ) xs ys) (n n' : Nat) :
    Agree (Scope.Alike κ) (f.checkBlocks n s xs) (g.checkBlocks n' t ys) := by
  induction alike generalizing n n' s t with
  | nil => exact .ok scopes
  | cons head _ ih =>
      exact (agree_checkBlock records scopes head n n').bind fun _ _ scopes => ih scopes _ _

omit records in
/-- Of two functions alike, both are well formed or neither is. -/
theorem Alike.check (h : Function.Alike κ f g) : Agree Eq f.check g.check := by
  have records := h.records
  have empty : Scope.Alike κ {} {} := ⟨.nil, .nil, .nil⟩
  rw [Function.check, Function.check, checkShape_eq_ok.2 (named_of_shapesNamed records.left),
    checkShape_eq_ok.2 (named_of_shapesNamed records.right), ok_bind, ok_bind]
  refine Agree.bind (Agree.foldlM h.params ?_ empty) fun _ _ scopes => ?_
  · exact fun _ _ _ _ scopes paired => agree_checkDefinition records scopes paired
  · exact (agree_checkBlocks records scopes h.blocks 0 0).bind fun _ _ scopes =>
      agree_checkExpr records scopes h.body

end Function

end TensorIR
