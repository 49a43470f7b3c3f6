import TensorIR.Proofs.Fusion.Misfits
import TensorIR.Proofs.Fusion.Pairs
import TensorIR.Proofs.Joining
import TensorIR.Proofs.Outputs

/-!
# Fusion keeps variables that were inferred

What is inferred of a fused operation is what is inferred of the sum that it stands for, if just
what is inferred of the product was recorded of its variable. Inference folds over the operands from
left to right, and the record is where the fold had got to after the first two. That holds whatever
is unknown: a fold that has failed has failed for good, and its record says no more than that.

A builder records of a new variable what is inferred of its value. So in a function of which every
value was emitted without annotations, and bound to a new variable, all sums have the records of the
fused operations, and fusion renames nothing (`Fusion.keeps_variables`). Since variables are only
ever added, what a binding has on record when it is emitted it has in the end.
-/

namespace TensorIR

/-! ### Folding in two steps -/

theorem Shape.broadcastAll?_nested (s : Option Shape) (ss ts : List (Option Shape)) :
    broadcastAll? (broadcastAll? (s :: ss) :: ts) = broadcastAll? (s :: (ss ++ ts)) := by
  cases s with
  | none => rfl
  | some s =>
      have folded : broadcastAll? (some s :: (ss ++ ts)) = (broadcastAll? (some s :: ss)).bind
          fun acc => ts.foldlM (fun acc s => s.bind acc.broadcast?) acc :=
        List.foldlM_append
      rw [folded]
      cases broadcastAll? (some s :: ss) <;> rfl

theorem Ty.exists_tensor_of_elementwise {t u v : Ty} (h : t.elementwise? u = some v) :
    ∃ r e, v = tensor r e := by
  unfold elementwise? at h
  split at h
  · split at h
    · exact ⟨_, _, (Option.some.inj h).symm⟩
    · cases h
  · cases h

/-- What comes out of tensors is a tensor. -/
theorem Ty.exists_tensor_of_fold {ts : List (Option Ty)} {r : Option Nat} {e : ElemType} {t : Ty}
    (h : elementwiseAll? (some (tensor r e) :: ts) = some t) : ∃ r' e', t = tensor r' e' := by
  rw [elementwiseAll?] at h
  induction ts generalizing r e with
  | nil => exact ⟨r, e, (Option.some.inj h).symm⟩
  | cons u ts ih =>
      rw [List.foldlM_cons] at h
      obtain ⟨acc, first, rest⟩ := Option.bind_eq_some_iff.1 h
      obtain ⟨u, -, joined⟩ := Option.bind_eq_some_iff.1 first
      obtain ⟨r', e', rfl⟩ := exists_tensor_of_elementwise joined
      exact ih rest

theorem Ty.elementwiseAll?_nested (t : Option Ty) (ts us : List (Option Ty)) :
    elementwiseAll? (elementwiseAll? (t :: ts) :: us) = elementwiseAll? (t :: (ts ++ us)) := by
  match t with
  | none | some (.shape _) | some .object | some (.tuple _) => rfl
  | some (.tensor r e) =>
      have folded : elementwiseAll? (some (tensor r e) :: (ts ++ us)) =
          (elementwiseAll? (some (tensor r e) :: ts)).bind
            fun acc => us.foldlM (fun acc t => t.bind acc.elementwise?) acc :=
        List.foldlM_append
      rw [folded]
      cases begun : elementwiseAll? (some (tensor r e) :: ts) with
      | none => rfl
      | some acc =>
          obtain ⟨r', e', rfl⟩ := exists_tensor_of_fold begun
          rfl

/-! ### Products, sums and fused operations -/

namespace Expr

variable {op : Op} {vars : List VarInfo} {head : CallHead} {args : List Expr} {attrs : Attrs}

theorem bare_call (callee : head.callee = .op op) :
    (call head args).bare = ofOp op args head.attrs := by
  rw [bare, ofOp, callee]

theorem inferShape?_elementwise (elementwise : op.Elementwise) :
    (ofOp op args attrs).inferShape? vars = Shape.broadcastAll? (args.map (inferShape? vars)) := by
  rw [ofOp, inferShape?, inferShapes_eq_map]
  rcases elementwise with rfl | rfl | rfl <;> rfl

theorem inferTy?_elementwise (elementwise : op.Elementwise) :
    (ofOp op args attrs).inferTy? vars = Ty.elementwiseAll? (args.map (inferTy? vars)) := by
  have other : Callee.op op ≠ .op .callDps := by
    rcases elementwise with rfl | rfl | rfl <;> decide
  rw [ofOp, inferTy?, if_neg other, inferTys_eq_map]
  rcases elementwise with rfl | rfl | rfl <;> rfl

end Expr

namespace Fusion

variable {vars : List VarInfo} {a a' c : Expr} {attrs attrs' : Attrs} {t : Var} {info : VarInfo}

/-- What is inferred of a fused operation is what is inferred of a sum, if of the variable that this
one reads just that is recorded which is inferred of the product. -/
theorem stands_fma (recorded : vars[t.index]? = some info)
    (shape : info.shape = (Expr.ofOp .multiply [a, a'] attrs).inferShape? vars)
    (ty : info.ty = (Expr.ofOp .multiply [a, a'] attrs).inferTy? vars) :
    Expr.Stands vars vars (.ofOp .add [.var t, c] attrs') (.ofOp .fma [a, a', c]) where
  shape := by
    have record : (Expr.var t).inferShape? vars = info.shape := by
      rw [Expr.inferShape?, recorded]
      rfl
    rw [Expr.inferShape?_elementwise (.inr (.inl rfl))] at shape
    rw [Expr.inferShape?_elementwise (.inl rfl), Expr.inferShape?_elementwise (.inr (.inr rfl))]
    simp only [List.map_cons, List.map_nil, record, shape]
    exact (Shape.broadcastAll?_nested _ [_] [_]).symm
  ty := by
    have record : (Expr.var t).inferTy? vars = info.ty := by
      rw [Expr.inferTy?, recorded]
      rfl
    rw [Expr.inferTy?_elementwise (.inr (.inl rfl))] at ty
    rw [Expr.inferTy?_elementwise (.inl rfl), Expr.inferTy?_elementwise (.inr (.inr rfl))]
    simp only [List.map_cons, List.map_nil, record, ty]
    exact (Ty.elementwiseAll?_nested _ [_] [_]).symm

end Fusion

/-! ### What is on record in the course of a history -/

namespace Expr

theorem bare_annotate (vars : List VarInfo) (e : Expr) : (e.annotate vars).bare = e.bare := by
  cases e <;> rfl

@[simp]
theorem reads_bare (e : Expr) : e.bare.reads = e.reads := by
  cases e <;> rfl

end Expr

/-- What is recorded of the variable is what is inferred of its value, whatever is annotated. -/
def Binding.Inferred (vars : List VarInfo) : Binding → Prop
  | define v value => (∀ u ∈ value.reads, u.index < vars.length) ∧ ∃ info,
      vars[v.index]? = some info ∧ info.shape = value.bare.inferShape? vars ∧
        info.ty = value.bare.inferTy? vars
  | matchShape .. => True

theorem Binding.Inferred.grow {x : Binding} {vars vars' : List VarInfo} (h : x.Inferred vars)
    (grown : vars <+: vars') : x.Inferred vars' := by
  obtain ⟨more, rfl⟩ := grown
  cases x with
  | matchShape _ _ _ => trivial
  | define v value =>
      obtain ⟨reads, info, found, shape, ty⟩ := h
      have agree : ∀ u ∈ value.bare.reads, vars[u.index]? = (vars ++ more)[u.index]? := by
        rw [Expr.reads_bare]
        exact fun u read => (getElem?_grown (reads u read)).symm
      refine ⟨fun u read => ?_, info, ?_, ?_, ?_⟩
      · have := reads u read
        rw [List.length_append]
        omega
      · exact (getElem?_grown (List.getElem?_eq_some_iff.1 found).1).trans found
      · rw [shape, Expr.inferShape?_congr agree]
      · rw [ty, Expr.inferTy?_congr agree]

namespace Builder

variable {b : Builder} {a : Action} {actions : List Action} {value : Expr}

/-- A value is emitted without annotations, and always for a new variable. -/
def Action.Inferring : Action → Prop
  | emit value | emitNamed _ value | emitOutput value => value.bare = value
  | bind .. | push (.define ..) | pushBlock _ => False
  | push (.matchShape ..) | param .. | dimVar _ | fresh _ | setRetTy _ | openRegion | closeRegion
  | dropRegion | sealBlock => True

instance : (a : Action) → Decidable a.Inferring
  | .emit value | .emitNamed _ value | .emitOutput value =>
    inferInstanceAs (Decidable (value.bare = value))
  | .bind .. | .push (.define ..) | .pushBlock _ => .isFalse id
  | .push (.matchShape ..) | .param .. | .dimVar _ | .fresh _ | .setRetTy _ | .openRegion
  | .closeRegion | .dropRegion | .sealBlock => .isTrue trivial

/-- All that is emitted has been inferred. -/
def Inferred (b : Builder) : Prop := ∀ x ∈ b.bindings, x.Inferred b.vars

theorem Action.Binds.inferred (binds : a.Binds b value) (bare : value.bare = value)
    (reads : ∀ v ∈ value.reads, v.index < b.vars.length) :
    (Binding.define ⟨b.vars.length⟩ (value.annotate b.vars)).Inferred (b.perform a).1.vars := by
  obtain ⟨i, j, name, kind, performed⟩ := binds
  let info : VarInfo := ⟨name, kind, (value.annotate b.vars).inferShape? b.vars,
    (value.annotate b.vars).inferTy? b.vars⟩
  have vars : (b.perform a).1.vars = b.vars ++ [info] := by
    rw [performed]
    rfl
  have agree : ∀ v ∈ value.reads, (b.vars ++ [info])[v.index]? = b.vars[v.index]? :=
    fun v read => getElem?_grown (reads v read)
  rw [vars]
  refine ⟨fun v read => ?_, info, List.getElem?_concat_length, ?_, ?_⟩
  · rw [Expr.reads_annotate] at read
    have := reads v read
    rw [List.length_append]
    omega
  · rw [Expr.bare_annotate, bare, Expr.inferShape?_congr agree]
    exact Expr.inferShape?_annotate b.vars value
  · rw [Expr.bare_annotate, bare, Expr.inferTy?_congr agree]
    exact Expr.inferTy?_annotate b.vars value

theorem inferred_accepted (inferring : a.Inferring)
    (reads : ∀ v ∈ a.reads, v.index < b.vars.length) :
    ∀ x ∈ a.accepted b, x.Inferred (b.perform a).1.vars := by
  cases a with
  | param _ _ _ | dimVar _ | fresh _ | setRetTy _ | closeRegion | openRegion | dropRegion
  | sealBlock => exact List.forall_mem_nil _
  | emit value =>
      rw [accepted_emit]
      exact List.forall_mem_singleton.2 ((binds_emit b value).inferred inferring reads)
  | emitNamed name value =>
      exact List.forall_mem_singleton.2 ((binds_emitNamed b name value).inferred inferring reads)
  | emitOutput value =>
      cases place : b.inDataflow with
      | true =>
          rw [accepted_emitOutput value place]
          exact List.forall_mem_singleton.2
            ((binds_emitOutput value place).inferred inferring reads)
      | false => simp [Action.accepted, perform, emitOutput, place]
  | push x =>
      cases x with
      | define _ _ => exact inferring.elim
      | matchShape v value pattern =>
          cases pushed : b.push (.matchShape v value pattern) with
          | error e => simp [Action.accepted, perform, pushed, refusable]
          | ok b' =>
              simp only [Action.accepted, perform, pushed, refusable, List.mem_singleton,
                forall_eq]
              trivial
  | bind _ _ | pushBlock _ => exact inferring.elim

theorem Inferred.perform (h : b.Inferred) (inferring : a.Inferring)
    (reads : ∀ v ∈ a.reads, v.index < b.vars.length) : (b.perform a).1.Inferred := by
  intro x mem
  rw [bindings_perform] at mem
  cases List.mem_append.1 mem with
  | inl old => exact (h x old).grow (vars_prefix_perform b a)
  | inr new => exact inferred_accepted inferring reads x new

theorem Inferred.performAll (h : b.Inferred) (inferring : ∀ a ∈ actions, a.Inferring) {n : Nat}
    (reads : ∀ e ∈ b.eventsFrom n actions, ∀ v ∈ e.action.reads,
      v.index < e.before.vars.length) : (b.performAll actions).Inferred := by
  induction actions generalizing b n with
  | nil => exact h
  | cons a actions ih =>
      obtain ⟨here, later⟩ := List.forall_mem_cons.1 reads
      obtain ⟨first, rest⟩ := List.forall_mem_cons.1 inferring
      exact ih (h.perform first here) rest later

end Builder

/-! ### Fusion of what was inferred -/

namespace Function

variable {f g : Function} {block : Block} {x : Binding} {v : Var} {operands : List Expr}

/-- All records are of what is inferred. -/
def Inferred (f : Function) : Prop := ∀ x ∈ f.bindings, x.Inferred f.vars

theorem inferred_of_finish {b : Builder} {body : Expr} (inferred : b.Inferred)
    (finished : b.finish body = .ok f) : f.Inferred := by
  obtain ⟨bindings, -, vars, -⟩ := Builder.finish_eq_ok finished
  rw [Inferred, bindings, vars]
  exact inferred

section Inferred

variable (inferred : f.Inferred) (wellFormed : f.WellFormed)
include inferred wellFormed

/-- The record of a sum is that of the fused operation. -/
theorem fusedInfo_inferred (inFunction : block ∈ f.blocks) (inBlock : x ∈ block.bindings)
    (defines : x.defined? = some v) (isSum : f.fusedOperands? block x = some operands) :
    f.vars[v.index]? = some (Fusion.Names.fusedInfo ⟨[], f.vars⟩ v operands) := by
  obtain ⟨w, head, t, c, a, a', rfl, -, callee, -, found, rfl⟩ := fusedOperands?_eq_some.1 isSum
  cases defines
  obtain ⟨head', product, callee'⟩ := (product?_eq_some wellFormed.toScoped inFunction).1 found
  obtain ⟨-, info, recorded, shape, ty⟩ := inferred _ (mem_bindings inFunction inBlock)
  obtain ⟨-, info', recorded', shape', ty'⟩ := inferred _ (mem_bindings inFunction product)
  rw [Expr.bare_call callee] at shape ty
  rw [Expr.bare_call callee'] at shape' ty'
  have stands : Expr.Stands f.vars f.vars (.ofOp .add [.var t, c] head.attrs)
      (.ofOp .fma [a, a', c]) := Fusion.stands_fma recorded' shape' ty'
  rw [Fusion.Names.fusedInfo, Expr.substitute_nil, stands.shape, stands.ty, ← shape, ← ty,
    List.getD_eq_getElem?_getD, recorded]
  rfl

theorem names_inferred : f.namesAfter f.allFusions = ⟨[], f.vars⟩ := by
  have fixed : ∀ sum ∈ f.allFusions, Fusion.Names.next ⟨[], f.vars⟩ sum = ⟨[], f.vars⟩ := by
    rintro ⟨v, operands⟩ mem
    obtain ⟨block, inFunction, mem⟩ := List.mem_flatMap.1 mem
    obtain ⟨x, inBlock, defines, isSum⟩ := mem_fusions_iff.1 mem
    exact if_pos (fusedInfo_inferred inferred wellFormed inFunction inBlock defines isSum)
  rw [namesAfter]
  generalize f.allFusions = sums at fixed
  induction sums with
  | nil => rfl
  | cons sum sums ih =>
      obtain ⟨first, rest⟩ := List.forall_mem_cons.1 fixed
      rw [List.foldl_cons, first]
      exact ih rest

theorem fusedVar_inferred : f.fusedVar = id := by
  rw [fusedVar, names_inferred inferred wellFormed]
  rfl

theorem fusedVars_inferred : f.fusedVars = f.vars := by
  rw [fusedVars, names_inferred inferred wellFormed]

/-- Nothing is renamed, so every binding still fits. -/
theorem fuse_inferred (settled : f.Settled) (checked : f.check = .ok ()) :
    f.fuse = .ok f.fused := by
  have refits : f.Refits := refits_iff.2 fun block inFunction x inBlock e misfit => by
    obtain ⟨v, -, renamed⟩ := exists_renamed settled inFunction inBlock misfit
    exact renamed (congrFun (fusedVar_inferred inferred wellFormed) v)
  have answers := fuse_answers settled checked
  rw [(fusionFault?_eq_none wellFormed).2 refits] at answers
  obtain ⟨g, fused, rfl⟩ := answers
  exact fused

end Inferred

end Function

namespace Fusion

theorem initial_inferred {b : Builder} (initial : b.Initial) : b.Inferred := by
  cases initial <;> exact nofun

/-- What is inferred of a fused operation is what is inferred of the sum, and therefore fusion keeps
every variable of a function of which all values were inferred. It comes through unless a region was
closed that has no output. -/
theorem keeps_variables :
    (∀ (vars : List VarInfo) (a a' c : Expr) (t : Var) (info : VarInfo),
      vars[t.index]? = some info →
      info.shape = (Expr.ofOp .multiply [a, a']).inferShape? vars →
      info.ty = (Expr.ofOp .multiply [a, a']).inferTy? vars →
        (Expr.ofOp .fma [a, a', c]).inferShape? vars =
          (Expr.ofOp .add [.var t, c]).inferShape? vars ∧
        (Expr.ofOp .fma [a, a', c]).inferTy? vars =
          (Expr.ofOp .add [.var t, c]).inferTy? vars) ∧
    ∀ (b : Builder) (actions : List Builder.Action) (body : Expr) (f : Function), b.Initial →
      (∀ a ∈ actions, a.Inferring) →
      (∀ e ∈ b.events actions, ∀ v ∈ e.action.reads, v.index < e.before.vars.length) →
      (b.performAll actions).finish body = .ok f →
        (∀ g, f.fuse = .ok g → g.vars = f.vars ∧ f.FusesTo g id) ∧
        (b.Regular actions → ∃ g, f.fuse = .ok g) := by
  constructor
  · intro vars a a' c t info recorded shape ty
    have stands : Expr.Stands vars vars (.ofOp .add [.var t, c]) (.ofOp .fma [a, a', c]) :=
      stands_fma recorded shape ty
    exact ⟨stands.shape, stands.ty⟩
  · intro b actions body f initial inferring reads finished
    have inferred := Function.inferred_of_finish
      ((initial_inferred initial).performAll inferring reads) finished
    have checked := (Builder.finish_eq_ok_iff.1 finished).2.2.2
    have wellFormed := Function.wellFormed_of_check checked
    constructor
    · intro g fused
      cases Function.fuse_eq checked fused
      have kept := Function.fusedVar_inferred inferred wellFormed
      have fuses := Function.fusesTo_fused wellFormed
      rw [kept] at fuses
      exact ⟨Function.fusedVars_inferred inferred wellFormed, fuses⟩
    · intro regular
      have settled := (Builder.settled_of_history initial regular finished).1
      exact ⟨f.fused, Function.fuse_inferred inferred wellFormed settled checked⟩

/-- Nothing is known of the type of the second parameter, and so of those of the product and the
sum, but their shapes are:

    fn main(x: (n,), y: (1,)) {
      dataflow { lv0 = multiply(x, y); gv0 = add(lv0, x) }
      return gv0
    }
-/
def guessing : List Builder.Action :=
  [.dimVar "n", .param "x" (some [.var ⟨0⟩]) (some (.tensor (some 1) .float32)),
    .param "y" (some [.int 1]) none, .openRegion, .emit (.ofOp .multiply [.var ⟨0⟩, .var ⟨1⟩]),
    .emitOutput (.ofOp .add [.var ⟨2⟩, .var ⟨0⟩]), .closeRegion]

/-- The function that the history builds. -/
def guessed : Function :=
  (({ name := "main" } : Builder).performAll guessing).toFunction (.var ⟨3⟩)

theorem keeps_variables_guessed :
    (Expr.ofOp .fma [.var ⟨0⟩, .var ⟨1⟩, .var ⟨0⟩]).inferShape? guessed.vars =
      (Expr.ofOp .add [.var ⟨2⟩, .var ⟨0⟩]).inferShape? guessed.vars ∧
    ∃ g, guessed.fuse = .ok g ∧ g.vars = guessed.vars ∧ guessed.FusesTo g id ∧
      .define ⟨3⟩ (.call ⟨.op .fma, .none, some [.var ⟨0⟩], none⟩ [.var ⟨0⟩, .var ⟨1⟩, .var ⟨0⟩]) ∈
        g.bindings := by
  obtain ⟨inference, functions⟩ := keeps_variables
  obtain ⟨keeps, fuses⟩ := functions { name := "main" } guessing (.var ⟨3⟩) guessed (.new "main")
    (by decide +kernel) (by decide +kernel) (by decide +kernel)
  obtain ⟨g, fused⟩ := fuses (by decide +kernel)
  obtain ⟨vars, fusesTo⟩ := keeps g fused
  have emitted : (guessed.fuse.toOption.map Function.bindings).bind (·[1]?) =
      some (.define ⟨3⟩ (.call ⟨.op .fma, .none, some [.var ⟨0⟩], none⟩
        [.var ⟨0⟩, .var ⟨1⟩, .var ⟨0⟩])) := by decide +kernel
  rw [fused] at emitted
  exact ⟨(inference guessed.vars _ _ _ ⟨2⟩ ⟨"lv0", .dataflow, some [.var ⟨0⟩], none⟩
    (by decide +kernel) (by decide +kernel) (by decide +kernel)).1, g, fused, vars, fusesTo,
    List.mem_of_getElem? emitted⟩

end Fusion

end TensorIR
