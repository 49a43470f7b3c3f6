import TensorIR.Builder
import TensorIR.Proofs.Alpha.Graph
import TensorIR.Proofs.Alpha.Inference

/-!
# Inference is stable

What is inferred of an expression depends on what is recorded of the variables that it reads and on
nothing else. A list of variables only ever grows, so what was inferred once is what will be
inferred later.

That needs no induction of its own. Inference gives alike results on expressions alike, and an
expression is alike itself under the correspondence that pairs every variable that it reads with
itself; there, being alike is being equal.

To annotate what is annotated already changes nothing: the shape and the type that are filled in are
the inferred ones, and they are what is then inferred first.
-/

namespace TensorIR

open Relator

/-- Every variable of a list stands for itself. -/
def Correspondence.same (vs : List Var) : Correspondence where
  vars v w := v = w ∧ v ∈ vs
  dims := Eq
  vars_unique := by
    constructor
    · rintro v v' w ⟨rfl, -⟩ ⟨rfl, -⟩
      rfl
    · rintro v w w' ⟨rfl, -⟩ ⟨rfl, -⟩
      rfl
  dims_unique := ⟨fun _ _ _ h h' => h.trans h'.symm, fun _ _ _ h h' => h.symm.trans h'⟩

variable {vs : List Var} {vars vars' : List VarInfo} {e : Expr}

theorem Shape.alike_same {s t : Option Shape} :
    Option.Rel (Shape.Alike (.same vs)) s t ↔ s = t := by
  have fixed (s : Option Shape) : s.map (Shape.mapVars id) = s :=
    Shape.annotation_eq_self fun _ _ => rfl
  constructor
  · intro h
    rw [← fixed s]
    exact Shape.mapVars_of_alike (fun _ _ same => same) h
  · rintro rfl
    have related : Option.Rel (Shape.Alike (.same vs)) s (s.map (Shape.mapVars id)) :=
      Shape.alike_annotation fun _ _ => rfl
    rwa [fixed] at related

/-- Equal records of the listed variables are alike. -/
theorem VarInfo.alike_same (agree : ∀ v ∈ vs, vars[v.index]? = vars'[v.index]?) (v w : Var)
    (paired : (Correspondence.same vs).vars v w) :
    Option.Rel (VarInfo.Alike (.same vs)) vars[v.index]? vars'[w.index]? := by
  obtain ⟨rfl, mem⟩ := paired
  rw [agree v mem]
  cases vars'[v.index]? with
  | none => exact .none
  | some info => exact .some ⟨rfl, rfl, Shape.alike_same.2 rfl⟩

namespace Expr

theorem alike_same (reads : ∀ v ∈ e.reads, v ∈ vs) : Expr.Alike (.same vs) e e := by
  have related : Expr.Alike (.same vs) e (e.relabel id id) :=
    alike_relabel (fun v read => ⟨rfl, reads v read⟩) fun _ _ => rfl
  have fixed : e.relabel id id = e := relabel_eq_self (fun _ _ => rfl) fun _ _ => rfl
  rwa [fixed] at related

section Agree

variable (agree : ∀ v ∈ e.reads, vars[v.index]? = vars'[v.index]?)
include agree

theorem inferShape?_congr : e.inferShape? vars = e.inferShape? vars' :=
  Shape.alike_same.1 ((alike_same fun _ read => read).inferShape? (VarInfo.alike_same agree))

theorem inferTy?_congr : e.inferTy? vars = e.inferTy? vars' :=
  (alike_same fun _ read => read).inferTy? (VarInfo.alike_same agree)

theorem annotate_congr : e.annotate vars = e.annotate vars' := by
  have ty := inferTy?_congr agree
  have shape := inferShape?_congr agree
  cases e with
  | call head args => rw [annotate, annotate, ty, shape]
  | var _ | shape _ | tuple _ | item _ _ | const _ | external _ | global _ => rfl

end Agree

@[simp]
theorem reads_annotate (vars : List VarInfo) (e : Expr) : (e.annotate vars).reads = e.reads := by
  cases e <;> rfl

theorem inferShape?_annotate (vars : List VarInfo) (e : Expr) :
    (e.annotate vars).inferShape? vars = e.inferShape? vars := by
  cases e with
  | call head args =>
      rw [annotate, inferShape?, inferShape?]
      cases head.shape with
      | some s => rfl
      | none =>
          cases head.callee.resultShape? args (inferShapes vars args) with
          | some s => rfl
          | none => rfl
  | var _ | shape _ | tuple _ | item _ _ | const _ | external _ | global _ => rfl

theorem inferTy?_annotate (vars : List VarInfo) (e : Expr) :
    (e.annotate vars).inferTy? vars = e.inferTy? vars := by
  cases e with
  | call head args =>
      rw [annotate, inferTy?, inferTy?]
      cases head.ty with
      | some t => rfl
      | none =>
          show (CallHead.resultTy? head args _ <|> CallHead.resultTy? head args _) = _
          cases head.resultTy? args _ with
          | some t => rfl
          | none => rfl
  | var _ | shape _ | tuple _ | item _ _ | const _ | external _ | global _ => rfl

theorem annotate_annotate (vars : List VarInfo) (e : Expr) :
    (e.annotate vars).annotate vars = e.annotate vars := by
  cases e with
  | call head args =>
      have ty := inferTy?_annotate vars (call head args)
      have shape := inferShape?_annotate vars (call head args)
      rw [annotate] at ty shape ⊢
      rw [annotate, ty, shape]
  | var _ | shape _ | tuple _ | item _ _ | const _ | external _ | global _ => rfl

end Expr

namespace Ty

theorem agree_self (n : Option Nat) : agree n n = true := by
  cases n with
  | none => rfl
  | some n => exact beq_self_eq_true n

mutual

/-- Every type is compatible with itself. -/
theorem compatible_self : ∀ t : Ty, t.compatible t = true
  | tensor r e => by rw [compatible, beq_self_eq_true, agree_self, Bool.and_self]
  | shape n => by rw [compatible, agree_self]
  | object => rfl
  | tuple fs => by rw [compatible, compatibleAll_self fs]

theorem compatibleAll_self : ∀ fs : List Ty, compatibleAll fs fs = true
  | [] => rfl
  | f :: fs => by rw [compatibleAll, compatible_self f, compatibleAll_self fs, Bool.and_self]

end

end Ty

end TensorIR
