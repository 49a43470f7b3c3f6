import TensorIR.Builder.Action
import TensorIR.Lowering.Emitter
import TensorIR.Proofs.Emission
import TensorIR.Proofs.Inference
import TensorIR.Proofs.RenamedInference

/-!
# Substitution

A finite renaming acts on an expression through its reads: they are renamed one by one, and two
renamings in a row are one, again a finite one. Inference looks at a variable only for what is
recorded of it. So under the records of the new variables a renamed value has the shape and the type
that the value has under those of the old ones, if these are alike.

For a builder it follows that a renamed value is as good as the value. It is emitted with the same
annotations or refused for the same reason (`Builder.SameOutcome`): the checks read the value by
inference only, and what they compare it with is recorded of a variable that is not renamed.
-/

namespace TensorIR

namespace Renaming

/-- First the one renaming, then the other. -/
def andThen (ρ σ : Renaming) : Renaming := ρ.map (fun (v, w) => (v, σ.apply w)) ++ σ

theorem apply_andThen (ρ σ : Renaming) (v : Var) : (ρ.andThen σ).apply v = σ.apply (ρ.apply v) := by
  induction ρ with
  | nil => rfl
  | cons entry ρ ih =>
      obtain ⟨u, w⟩ := entry
      rw [andThen, List.map_cons, List.cons_append, apply_cons, apply_cons, ← andThen, ih,
        apply_ite σ.apply]

end Renaming

namespace Expr

theorem substitute_substitute (ρ σ : Renaming) (e : Expr) :
    (e.substitute ρ).substitute σ = e.substitute (ρ.andThen σ) := by
  rw [substitute, substitute, substitute, rename_rename]
  exact rename_congr fun v _ => (ρ.apply_andThen σ v).symm

section Agreement

variable {e : Expr} {ρ : Renaming} {vars vars' : List VarInfo}
  (agrees : Agrees vars vars' ρ.apply e.reads)
include agrees

theorem inferShape?_substitute : (e.substitute ρ).inferShape? vars' = e.inferShape? vars :=
  inferShape?_rename fun v read => (agrees v read).1

theorem inferTy?_substitute : (e.substitute ρ).inferTy? vars' = e.inferTy? vars :=
  inferTy?_rename fun v read => (agrees v read).2

theorem annotate_substitute :
    (e.substitute ρ).annotate vars' = (e.annotate vars).substitute ρ :=
  annotate_rename agrees

end Agreement

end Expr

namespace Builder

namespace Action

/-- The value that an operation emits. -/
def value? : Action → Option Expr
  | .emit value | .emitNamed _ value | .emitOutput value | .bind _ value => some value
  | .push binding => some binding.value
  | .param .. | .dimVar _ | .fresh _ | .setRetTy _ | .openRegion | .closeRegion | .dropRegion
  | .sealBlock | .pushBlock _ => none

/-- The variable that exists already and is to be defined. -/
def defined? : Action → Option Var
  | .bind v _ => some v
  | .push binding => binding.defined?
  | .param .. | .dimVar _ | .fresh _ | .setRetTy _ | .openRegion | .closeRegion | .dropRegion
  | .sealBlock | .emit _ | .emitNamed .. | .emitOutput _ | .pushBlock _ => none

/-- The operation with the reads of the value that it emits renamed. -/
def substitute (ρ : Renaming) : Action → Action
  | .emit value => .emit (value.substitute ρ)
  | .emitNamed name value => .emitNamed name (value.substitute ρ)
  | .emitOutput value => .emitOutput (value.substitute ρ)
  | .bind v value => .bind v (value.substitute ρ)
  | .push binding => .push (binding.substitute ρ)
  | a => a

end Action

/-- The builders are equal in what an emission depends on, but for the records of variables. -/
structure SameState (b c : Builder) : Prop where
  dimNames : c.dimNames = b.dimNames
  inDataflow : c.inDataflow = b.inDataflow
  nextLocal : c.nextLocal = b.nextLocal
  nextGlobal : c.nextGlobal = b.nextGlobal

/-- What comes of a value in one builder and of the renamed value in another one. Both are refused
for the same reason, or both are bound with the same annotations, to variables that are recorded
alike. -/
inductive SameOutcome (b : Builder) (ρ : Renaming) (e : Expr) (c : Builder) :
    Builder × Answer → Builder × Answer → Prop where
  | refused (fault : BuildError) : SameOutcome b ρ e c (b, .refused fault) (c, .refused fault)
  | bound {x : Binding} (value : x.value = e.annotate b.vars) :
    SameOutcome b ρ e c (b.append x, .done) (c.append (x.substitute ρ), .done)
  | emitted (nextLocal nextGlobal : Nat) {info : VarInfo}
    (shape : info.shape = e.inferShape? b.vars) (ty : info.ty = e.inferTy? b.vars) :
    SameOutcome b ρ e c
      (({ b with nextLocal, nextGlobal }.fresh info).1.append
        (.define ⟨b.vars.length⟩ (e.annotate b.vars)), .var ⟨b.vars.length⟩)
      (({ c with nextLocal, nextGlobal }.fresh info).1.append
        (.define ⟨c.vars.length⟩ ((e.annotate b.vars).substitute ρ)), .var ⟨c.vars.length⟩)

variable {e : Expr} {ρ : Renaming} {b c : Builder} {v : Var} {x : Binding}

theorem bindFresh_eq (b : Builder) (name : String) (kind : VarKind) (e : Expr) :
    b.bindFresh name kind e =
      ((b.fresh (.mk name kind (e.inferShape? b.vars) (e.inferTy? b.vars))).1.append
        (.define ⟨b.vars.length⟩ (e.annotate b.vars)), ⟨b.vars.length⟩) := by
  simp only [bindFresh, Expr.inferShape?_annotate, Expr.inferTy?_annotate]
  rfl

theorem bindable_eq (same : b.SameState c) (recorded : c.vars[v.index]? = b.vars[v.index]?) :
    c.bindable v = b.bindable v := by
  rw [bindable, bindable, recorded, same.inDataflow]

section Agreement

variable (agrees : Expr.Agrees b.vars c.vars ρ.apply e.reads)
include agrees

theorem bindFresh_substitute (name : String) (kind : VarKind) :
    c.bindFresh name kind (e.substitute ρ) =
      ((c.fresh (.mk name kind (e.inferShape? b.vars) (e.inferTy? b.vars))).1.append
        (.define ⟨c.vars.length⟩ ((e.annotate b.vars).substitute ρ)), ⟨c.vars.length⟩) := by
  rw [bindFresh_eq, Expr.inferShape?_substitute agrees, Expr.inferTy?_substitute agrees,
    Expr.annotate_substitute agrees]

variable (same : b.SameState c)
include same

theorem bind_substitute (recorded : c.vars[v.index]? = b.vars[v.index]?) :
    c.bind v (e.substitute ρ) =
      (b.bind v e).map fun _ => c.append (.define v ((e.annotate b.vars).substitute ρ)) := by
  have annotated := Expr.annotate_substitute agrees
  have readsAlike : Expr.Agrees b.vars c.vars ρ.apply (e.annotate b.vars).reads := by
    rwa [Expr.reads_annotate]
  have shape (info : VarInfo) : c.checkShape info ((e.annotate b.vars).substitute ρ) =
      b.checkShape info (e.annotate b.vars) := by
    rw [checkShape, checkShape, Expr.inferShape?_substitute readsAlike, same.dimNames]
  have ty (info : VarInfo) : c.checkTy info ((e.annotate b.vars).substitute ρ) =
      b.checkTy info (e.annotate b.vars) := by
    rw [checkTy, checkTy, Expr.inferTy?_substitute readsAlike]
  simp only [Builder.bind, annotated, bindable_eq same recorded, shape, ty]
  cases b.bindable v with
  | error fault => rfl
  | ok info =>
      rw [ok_bind, ok_bind]
      cases b.checkShape info (e.annotate b.vars) with
      | error fault => rfl
      | ok _ =>
          rw [ok_bind, ok_bind]
          cases b.checkTy info (e.annotate b.vars) with
          | error fault => rfl
          | ok _ => rfl

end Agreement

theorem push_substitute (agrees : Expr.Agrees b.vars c.vars ρ.apply x.value.reads)
    (same : b.SameState c) (recorded : ∀ v ∈ x.defined?, c.vars[v.index]? = b.vars[v.index]?) :
    c.push (x.substitute ρ) =
      (b.push x).map fun _ => c.append ((x.annotated b.vars).substitute ρ) := by
  have annotated := Expr.annotate_substitute agrees
  match x with
  | .define v value => exact bind_substitute agrees same (recorded v rfl)
  | .matchShape none value pattern =>
      exact congrArg (fun e => Except.ok (c.append (.matchShape none e pattern))) annotated
  | .matchShape (some v) value pattern =>
      simp only [Binding.substitute, Binding.withValue, Binding.value, push,
        bindable_eq same (recorded v rfl)] at annotated ⊢
      rw [annotated]
      cases b.bindable v <;> rfl

theorem sameOutcome_push (value : x.value = e)
    (agrees : Expr.Agrees b.vars c.vars ρ.apply e.reads) (same : b.SameState c)
    (recorded : ∀ v ∈ x.defined?, c.vars[v.index]? = b.vars[v.index]?) :
    SameOutcome b ρ e c (refusable b (b.push x)) (refusable c (c.push (x.substitute ρ))) := by
  subst value
  rw [push_substitute agrees same recorded]
  cases pushed : b.push x with
  | error fault => exact .refused fault
  | ok _ =>
      have value : (x.annotated b.vars).value = x.value.annotate b.vars := by
        cases x <;> rfl
      rw [push_eq_ok_append pushed]
      exact .bound value

theorem sameOutcome_bindFresh (agrees : Expr.Agrees b.vars c.vars ρ.apply e.reads)
    (nextLocal nextGlobal : Nat) (name : String) (kind : VarKind) :
    SameOutcome b ρ e c
      (allocating ({ b with nextLocal, nextGlobal }.bindFresh name kind e))
      (allocating ({ c with nextLocal, nextGlobal }.bindFresh name kind (e.substitute ρ))) := by
  rw [bindFresh_eq,
    bindFresh_substitute (b := { b with nextLocal, nextGlobal })
      (c := { c with nextLocal, nextGlobal }) agrees]
  exact .emitted nextLocal nextGlobal rfl rfl

/-- An operation that emits a value has the same outcome as one that emits the renamed value, for a
builder that has alike records of the variables that are read, and the same of one that is to be
defined. -/
theorem sameOutcome_perform {a : Action} (carried : a.value? = some e)
    (agrees : Expr.Agrees b.vars c.vars ρ.apply e.reads) (same : b.SameState c)
    (recorded : ∀ v ∈ a.defined?, c.vars[v.index]? = b.vars[v.index]?) :
    SameOutcome b ρ e c (b.perform a) (c.perform (a.substitute ρ)) := by
  have fresh := sameOutcome_bindFresh agrees
  have pushed := fun x value => sameOutcome_push (x := x) value agrees same
  -- With the shared parts named alike, what the operations do to them is a computation.
  obtain ⟨_, _, _, _, _, _, _, _, _, _, _⟩ := b
  obtain ⟨_, _, _, _, _, _, _, inside, _, locals, globals⟩ := c
  obtain ⟨rfl, rfl, rfl, rfl⟩ := same
  cases a with
  | emit value =>
      cases carried
      cases inside with
      | true => exact fresh (locals + 1) globals _ _
      | false => exact fresh locals (globals + 1) _ _
  | emitNamed name value =>
      cases carried
      exact fresh locals globals name _
  | emitOutput value =>
      cases carried
      cases inside with
      | true => exact fresh locals (globals + 1) _ _
      | false => exact .refused _
  | bind v value =>
      cases carried
      exact pushed (.define v e) rfl recorded
  | push x => exact pushed x (Option.some.inj carried) recorded
  | param _ _ _ | dimVar _ | fresh _ | setRetTy _ | openRegion | closeRegion | dropRegion
  | sealBlock | pushBlock _ => cases carried

end Builder

/-- The substitution lemma: on reads, for two renamings in a row, for inference, and for a builder
that is given the value. -/
theorem Expr.substitution (e : Expr) :
    (∀ ρ : Renaming, (e.substitute ρ).reads = e.reads.map ρ.apply) ∧
      (∀ ρ σ : Renaming, (e.substitute ρ).substitute σ = e.substitute (ρ.andThen σ) ∧
        ∀ v, (ρ.andThen σ).apply v = σ.apply (ρ.apply v)) ∧
      ∀ (ρ : Renaming) (vars vars' : List VarInfo), Agrees vars vars' ρ.apply e.reads →
        (e.substitute ρ).inferShape? vars' = e.inferShape? vars ∧
          (e.substitute ρ).inferTy? vars' = e.inferTy? vars ∧
          (e.substitute ρ).annotate vars' = (e.annotate vars).substitute ρ ∧
          ∀ (b c : Builder) (a : Builder.Action), b.vars = vars → c.vars = vars' →
            b.SameState c → a.value? = some e →
            (∀ v ∈ a.defined?, c.vars[v.index]? = b.vars[v.index]?) →
            b.SameOutcome ρ e c (b.perform a) (c.perform (a.substitute ρ)) := by
  refine ⟨fun ρ => reads_rename ρ.apply e,
    fun ρ σ => ⟨substitute_substitute ρ σ e, ρ.apply_andThen σ⟩, ?_⟩
  rintro ρ vars vars' agrees
  refine ⟨inferShape?_substitute agrees, inferTy?_substitute agrees, annotate_substitute agrees, ?_⟩
  rintro b c a rfl rfl same carried recorded
  exact Builder.sameOutcome_perform carried agrees same recorded

/-- One of two operands is renamed, to a variable that the first builder does not have. -/
theorem Expr.substitution_oneOperand :
    let e : Expr := .ofOp .add [.var ⟨0⟩, .var ⟨1⟩]
    let ρ : Renaming := [(⟨0⟩, ⟨3⟩)]
    let x : VarInfo := ⟨"x", .plain, some [.var ⟨0⟩], some (.tensor (some 1) .float32)⟩
    let y : VarInfo := ⟨"y", .plain, some [.int 1], some (.tensor none .float32)⟩
    let sum : VarInfo := ⟨"sum", .plain, some [.var ⟨0⟩], none⟩
    let b : Builder := { name := "f", vars := [x, y, sum], dimNames := ["n"] }
    let c : Builder := { name := "f", vars := [y, y, sum, x], dimNames := ["n"] }
    let a : Builder.Action := .bind ⟨2⟩ e
    Agrees b.vars c.vars ρ.apply e.reads ∧ b.SameState c ∧ a.value? = some e ∧
      (∀ v ∈ a.defined?, c.vars[v.index]? = b.vars[v.index]?) ∧
      (b.perform a).2 = .done ∧ (e.substitute ρ).inferShape? c.vars = some [.var ⟨0⟩] ∧
      b.SameOutcome ρ e c (b.perform a) (c.perform (a.substitute ρ)) := by
  intro e ρ x y sum b c a
  have agrees : Agrees b.vars c.vars ρ.apply e.reads := by
    rw [Agrees]
    decide
  have same : b.SameState c := ⟨rfl, rfl, rfl, rfl⟩
  have recorded : ∀ v ∈ a.defined?, c.vars[v.index]? = b.vars[v.index]? := by
    rintro v ⟨⟩
    rfl
  obtain ⟨-, -, inference⟩ := substitution e
  obtain ⟨shape, -, -, outcome⟩ := inference ρ b.vars c.vars agrees
  refine ⟨agrees, same, rfl, recorded, by decide, ?_, ?_⟩
  · rw [shape]
    decide
  · exact outcome b c a rfl rfl same rfl recorded

end TensorIR
