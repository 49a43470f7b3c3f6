import TensorIR.Lowering.Demotion
import TensorIR.Lowering.Fusion
import TensorIR.Proofs.Alpha.Building
import TensorIR.Proofs.Dominance
import TensorIR.Proofs.Placement

/-!
# Passes on functions alike

The passes that lower a function binding by binding keep two functions alike in step. A pass decides
by the callee of a call, by the kind, the shape or the type that is recorded of a variable, and, in
the case of fusion, by how often a variable is read; of partners all these agree. What a pass
remembers are renamings and products, which are lists of partners.
-/

namespace TensorIR

open Relator

variable {κ : Correspondence} {f g : Function} {b c : Builder}

/-! ### Destinations -/

namespace DpsCall

/-- The calls run the same kernel on inputs and for a shape that are alike. -/
structure Alike (κ : Correspondence) (x y : DpsCall) : Prop where
  shape : Shape.Alike κ x.shape y.shape
  kernel : x.kernel = y.kernel
  inputs : Expr.AllAlike κ x.inputs y.inputs

theorem agree_ofArgs {es fs : List Expr} (args : Expr.AllAlike κ es fs) :
    Agree (DpsCall.Alike κ) (ofArgs es) (ofArgs fs) := by
  refine Agree.intro (fun x left => ?_) fun y right => ?_
  · rw [ofArgs_eq_ok left] at args
    cases args with | cons first rest =>
    cases first with | shape shapes =>
    cases rest with | cons second rest =>
    cases second with | external _ =>
    cases rest with | cons third rest =>
    cases third with | tuple tuples =>
    cases rest with | nil =>
    exact ⟨_, rfl, shapes, rfl, tuples⟩
  · rw [ofArgs_eq_ok right] at args
    cases args with | cons first rest =>
    cases first with | shape _ =>
    cases rest with | cons second rest =>
    cases second with | external _ =>
    cases rest with | cons third rest =>
    cases third with | tuple _ =>
    cases rest with | nil =>
    exact ⟨_, rfl⟩

theorem Alike.outputElem {x y : DpsCall} (h : DpsCall.Alike κ x y) {i j : VarInfo}
    (info : VarInfo.Alike κ i j) {vars vars' : List VarInfo}
    (infos : ∀ v w, κ.vars v w → Option.Rel (VarInfo.Alike κ) vars[v.index]? vars'[w.index]?) :
    x.outputElem i vars = y.outputElem j vars' := by
  have inputs : (x.inputs.findSome? fun e => (e.inferTy? vars).bind Ty.elem?) =
      y.inputs.findSome? fun e => (e.inferTy? vars').bind Ty.elem? :=
    rel_eq_iff.1 (rel_findSome? h.inputs fun _ _ alike =>
      rel_eq_iff.2 (congrArg (Option.bind · Ty.elem?) (alike.inferTy? infos)))
  rw [DpsCall.outputElem, DpsCall.outputElem, inputs, info.ty]

theorem agree_emit {v w : Var} (paired : κ.vars v w) {es fs : List Expr}
    (args : Expr.AllAlike κ es fs) (builders : Builder.Alike κ b c) (n n' : Nat) :
    Agree (Builder.Alike κ) (emit f n v es b) (emit g n' w fs c) := by
  refine (agree_ofArgs args).mapError.bind fun x y call => ?_
  refine (builders.info paired).mapError.bind fun i j info => ?_
  rw [call.outputElem info builders.records.infos]
  have output := Expr.alike_ofOp .allocTensor (.allocTensor (y.outputElem j c.vars))
    (.cons (.shape call.shape) .nil)
  refine (builders.bind paired output).mapError.bind fun _ _ builders => ?_
  rw [call.kernel]
  have kernelCall := Expr.alike_ofCallee (.external y.kernel)
    (List.rel_append call.inputs (.cons (.var paired) .nil))
  exact .ok (builders.emitNamed "_" kernelCall).1

end DpsCall

theorem Function.Alike.allocateOutputs (h : Function.Alike κ f g) :
    Agree (Function.Alike κ) f.allocateOutputs g.allocateOutputs := by
  refine h.replaceBindings fun n n' x y b c alike builders => ?_
  -- The callee decides, and it is the same on both sides; all else is emitted as it is.
  have kept : Agree (Builder.Alike κ) (building f.name (b.push x)) (building g.name (c.push y)) :=
    (builders.push alike).mapError
  cases alike with
  | matchShape _ _ _ => exact kept
  | define paired value =>
      cases value with
      | @call h k es fs head args =>
          obtain ⟨callee, attrs, shape, ty⟩ := h
          obtain ⟨callee', attrs', shape', ty'⟩ := k
          obtain rfl : callee = callee' := head.callee
          cases callee with
          | op op =>
              cases op with
              | callDps => exact DpsCall.agree_emit paired args builders n n'
              | _ => exact kept
          | external _ | global _ => exact kept
      | _ => exact kept

/-! ### Storage -/

namespace StorageTarget

theorem agree_allocation {es fs : List Expr} (args : Expr.AllAlike κ es fs) (attrs : Attrs) :
    Agree (fun x y => Shape.Alike κ x.1 y.1 ∧ x.2 = y.2) (allocation es attrs)
      (allocation fs attrs) := by
  refine Agree.intro (fun x left => ?_) fun y right => ?_
  · obtain ⟨is, rfl⟩ := allocation_eq_ok left
    rw [is] at args
    cases args with | cons first rest =>
    cases first with | shape shapes =>
    cases rest with | nil =>
    exact ⟨_, rfl, shapes, rfl⟩
  · obtain ⟨is, rfl⟩ := allocation_eq_ok right
    rw [is] at args
    cases args with | cons first rest =>
    cases first with | shape _ =>
    cases rest with | nil =>
    exact ⟨_, rfl⟩

theorem agree_emitAllocation (target : StorageTarget) {v w : Var} (paired : κ.vars v w)
    {es fs : List Expr} (args : Expr.AllAlike κ es fs) (attrs : Attrs)
    (builders : Builder.Alike κ b c) (n n' : Nat) :
    Agree (Builder.Alike κ) (target.emitAllocation f n v es attrs b)
      (target.emitAllocation g n' w fs attrs c) := by
  refine (agree_allocation args attrs).mapError.bind ?_
  rintro ⟨s, elem⟩ ⟨t, _⟩ ⟨shape, rfl⟩
  have bytes : Dim.Alike κ (s.storageBytes elem) (t.storageBytes elem) :=
    shape.numElements.fold .mul (.int elem.bytes)
  have storage := Expr.alike_ofOp .vmAllocStorage
    (.allocStorage target.alignment target.device elem) (.cons (.shape (.cons bytes .nil)) .nil)
  obtain ⟨builders, block⟩ := builders.emitNamed "storage" storage
  have view := Expr.alike_ofOp .vmAllocTensor (.allocTensor elem)
    (.cons (.var block) (.cons (.shape (Shape.alike_ofInts [0])) (.cons (.shape shape) .nil)))
  exact (builders.bind paired view).mapError

end StorageTarget

theorem agree_directCall {es fs : List Expr} (args : Expr.AllAlike κ es fs) :
    Agree (Expr.Alike κ) (directCall es) (directCall fs) := by
  refine Agree.intro (fun x left => ?_) fun y right => ?_
  · obtain ⟨kernel, inputs, out, rfl, rfl⟩ := directCall_eq_ok left
    cases args with | cons first rest =>
    cases first with | external _ =>
    cases rest with | cons second rest =>
    cases second with | tuple tuples =>
    cases rest with | cons third rest =>
    cases rest with | nil =>
    exact ⟨_, rfl, Expr.alike_ofCallee _ (List.rel_append tuples (.cons third .nil))⟩
  · obtain ⟨kernel, inputs, out, rfl, rfl⟩ := directCall_eq_ok right
    cases args with | cons first rest =>
    cases first with | external _ =>
    cases rest with | cons second rest =>
    cases second with | tuple _ =>
    cases rest with | cons third rest =>
    cases rest with | nil =>
    exact ⟨_, rfl⟩

theorem Function.Alike.placeTensors (target : StorageTarget) (h : Function.Alike κ f g) :
    Agree (Function.Alike κ) (f.placeTensors target) (g.placeTensors target) := by
  refine h.replaceBindings fun n n' x y b c alike builders => ?_
  have kept : Agree (Builder.Alike κ) (building f.name (b.push x)) (building g.name (c.push y)) :=
    (builders.push alike).mapError
  cases alike with
  | matchShape _ _ _ => exact kept
  | define paired value =>
      cases value with
      | @call h k es fs head args =>
          obtain ⟨callee, attrs, shape, ty⟩ := h
          obtain ⟨callee', attrs', shape', ty'⟩ := k
          obtain rfl : callee = callee' := head.callee
          obtain rfl : attrs = attrs' := head.attrs
          cases callee with
          | op op =>
              cases op with
              | allocTensor =>
                  exact StorageTarget.agree_emitAllocation target paired args attrs builders n n'
              | callPacked =>
                  exact (agree_directCall args).mapError.bind fun _ _ call =>
                    (builders.bind paired call).mapError
              | _ => exact kept
          | external _ | global _ => exact kept
      | _ => exact kept

/-! ### Fusion -/

theorem Function.Alike.reads (h : Function.Alike κ f g) : List.Forall₂ κ.vars f.reads g.reads := by
  rw [reads_eq, reads_eq]
  exact List.rel_append (List.rel_flatMap h.bindings fun _ _ alike => alike.value.reads)
    h.body.reads

theorem Function.Alike.useCount (h : Function.Alike κ f g) {v w : Var} (paired : κ.vars v w) :
    f.useCount v = g.useCount w :=
  rel_count κ.vars_unique h.reads paired

namespace Fusion

/-- The two operands of products. -/
def OperandsAlike (κ : Correspondence) (x y : Expr × Expr) : Prop :=
  Expr.Alike κ x.1 y.1 ∧ Expr.Alike κ x.2 y.2

/-- Fusion remembers what is alike: renamings of corresponding variables and products with operands
that are alike. -/
structure Alike (κ : Correspondence) (s t : Fusion) : Prop where
  renames : Renaming.Alike κ s.renames t.renames
  products : List.Forall₂ (fun x y => κ.vars x.1 y.1 ∧ OperandsAlike κ x.2 y.2)
    s.products t.products

variable {s t : Fusion}

theorem rel_product? {e e' : Expr} (alike : Expr.Alike κ e e') :
    Option.Rel (OperandsAlike κ) (product? e) (product? e') := by
  cases alike with
  | call head args =>
      cases args with
      | nil => exact .none
      | cons first rest =>
          cases rest with
          | nil => exact .none
          | cons second rest =>
              cases rest with
              | cons _ _ => exact .none
              | nil =>
                  rw [product?, product?, head.callee]
                  exact rel_ite Iff.rfl (.some ⟨first, second⟩) .none
  | _ => exact .none

theorem Alike.fused? (functions : Function.Alike κ f g) (h : Fusion.Alike κ s t) {e e' : Expr}
    (alike : Expr.Alike κ e e') :
    Option.Rel (Expr.AllAlike κ) (s.fused? f e) (t.fused? g e') := by
  cases alike with
  | call head args =>
      cases args with
      | nil => exact .none
      | cons first rest =>
          cases rest with
          | nil => cases first <;> exact .none
          | cons second rest =>
              cases rest with
              | cons _ _ => cases first <;> exact .none
              | nil =>
                  cases first with
                  | var paired =>
                      rw [Fusion.fused?, Fusion.fused?, head.callee, functions.useCount paired]
                      refine rel_ite Iff.rfl ?_ .none
                      refine rel_map (rel_lookup κ.vars_unique h.products paired) ?_
                      exact fun _ _ operands =>
                        .cons operands.1 (.cons operands.2 (.cons second .nil))
                  | _ => exact .none
  | _ => exact .none

theorem agree_emitFused {v w : Var} (paired : κ.vars v w) {e e' : Expr}
    (value : Expr.Alike κ e e') (remembered : Fusion.Alike κ s t)
    (builders : Builder.Alike κ b c) :
    Agree (Emitter.InStep κ (Fusion.Alike κ)) (emitFused f v e s b) (emitFused g w e' t c) := by
  have shape := value.inferShape? builders.records.infos
  have ty := value.inferTy? builders.records.infos
  refine (builders.info paired).mapError.bind fun i j info => ?_
  -- Both sides keep the variable or both replace it: shapes are equal exactly if their partners
  -- are.
  have same : i.shape = e.inferShape? b.vars ∧ i.ty = e.inferTy? b.vars ↔
      j.shape = e'.inferShape? c.vars ∧ j.ty = e'.inferTy? c.vars := by
    rw [ty, info.ty]
    exact and_congr_left' (rel_eq (biUnique_option (Shape.alike_unique κ)) info.shape shape)
  refine Agree.ite same (fun _ => ?_) fun _ => ?_
  · exact (builders.bind paired value).mapError.bind fun _ _ builders => .ok ⟨remembered, builders⟩
  · obtain ⟨builders, new⟩ := builders.fresh
      (i := { i with shape := e.inferShape? b.vars, ty := e.inferTy? b.vars })
      (j := { j with shape := e'.inferShape? c.vars, ty := e'.inferTy? c.vars })
      ⟨info.kind, ty, shape⟩
    refine (builders.bind new value).mapError.bind fun _ _ builders => .ok ⟨?_, builders⟩
    exact { remembered with renames := .cons ⟨paired, new⟩ remembered.renames }

theorem agree_emitter (functions : Function.Alike κ f g) :
    Emitter.Agrees κ (emitter f) (emitter g) (Fusion.Alike κ) := by
  intro n n' x y s t b c alike remembered builders
  have alike := alike.substitute remembered.renames
  have keep {s t : Fusion} (remembered : Fusion.Alike κ s t) {x y : Binding}
      (alike : Binding.Alike κ x y) : Agree (Emitter.InStep κ (Fusion.Alike κ))
        (do return (s, ← building f.name (b.push x)))
        (do return (t, ← building g.name (c.push y))) :=
    (builders.push alike).mapError.bind fun _ _ builders => .ok ⟨remembered, builders⟩
  rw [emitter, emitter]
  generalize x.substitute s.renames = x at alike
  generalize y.substitute t.renames = y at alike
  cases alike with
  | matchShape defined value pattern => exact keep remembered (.matchShape defined value pattern)
  | @define v w e e' paired value =>
      have kept := keep remembered (.define paired value)
      simp only [builders.inDataflow]
      refine Agree.ite Iff.rfl (fun _ => ?_) fun _ => kept
      have product := rel_product? value
      have fused := remembered.fused? functions value
      revert product fused
      generalize product? e = p
      generalize product? e' = p'
      generalize s.fused? f e = o
      generalize t.fused? g e' = o'
      rintro (product | _) fused
      · refine keep ?_ (.define paired value)
        exact { remembered with products := .cons ⟨paired, product⟩ remembered.products }
      · cases fused with
        | none => exact kept
        | some operands =>
            exact agree_emitFused paired (Expr.alike_ofOp .fma .none operands) remembered builders

end Fusion

theorem Function.Alike.fuse (h : Function.Alike κ f g) :
    Agree (Function.Alike κ) f.fuse g.fuse := by
  have start : Fusion.Alike κ {} {} := ⟨.nil, .nil⟩
  refine (Emitter.agree_emitBlocks (Fusion.agree_emitter h) ?_ h.blocks start
    (Builder.alike_reopen h) f.name g.name 0 0).bind ?_
  · exact fun _ _ remembered => { remembered with products := .nil }
  · exact fun _ _ next => (next.2.finish (h.body.substitute next.1.renames)).mapError

/-! ### Demotion -/

namespace Demotion

theorem agree_checkPlain (builders : Builder.Alike κ b c) {vs ws : List Var}
    (alike : List.Forall₂ κ.vars vs ws) :
    Agree Eq (checkPlain f b vs) (checkPlain g c ws) := by
  induction alike with
  | nil => exact .ok rfl
  | cons paired _ ih =>
      refine (builders.info paired).mapError.bind fun i j info => ?_
      rw [info.isDataflow]
      exact Agree.ite Iff.rfl (fun _ => .error) fun _ => ih

/-- The renamings are of partners, and what has been emitted is alike. -/
def InStep (κ : Correspondence) (r r' : Renaming × Builder) : Prop :=
  Renaming.Alike κ r.1 r'.1 ∧ Builder.Alike κ r.2 r'.2

variable {ρ σ : Renaming}

theorem agree_emitBinding (kind : BlockKind) {x y : Binding} (alike : Binding.Alike κ x y)
    (renames : Renaming.Alike κ ρ σ) (builders : Builder.Alike κ b c) :
    Agree (InStep κ) (emitBinding f kind x ρ b) (emitBinding g kind y σ c) := by
  have alike := alike.substitute renames
  rw [emitBinding, emitBinding]
  generalize x.substitute ρ = x at alike
  generalize y.substitute σ = y at alike
  refine (agree_checkPlain builders alike.value.reads).check ?_
  have kept : Agree (InStep κ) (do return (ρ, ← building f.name (b.push x)))
      (do return (σ, ← building g.name (c.push y))) :=
    (builders.push alike).mapError.bind fun _ _ builders => .ok ⟨renames, builders⟩
  have defined := alike.defined?
  revert defined
  generalize x.defined? = v
  generalize y.defined? = w
  rintro (paired | _)
  · refine (builders.info paired).mapError.bind fun i j info => ?_
    cases kind with
    | plain =>
        rw [info.isDataflow]
        exact Agree.ite Iff.rfl (fun _ => .error) fun _ => kept
    | dataflow =>
        obtain ⟨builders, new⟩ := builders.fresh (i := { i with kind := .plain })
          (j := { j with kind := .plain }) ⟨rfl, info.ty, info.shape⟩
        exact (builders.push (alike.withDefined new)).mapError.bind fun _ _ builders =>
          .ok ⟨.cons ⟨paired, new⟩ renames, builders⟩
  · exact kept

theorem agree_emitBindings (kind : BlockKind) {xs ys : List Binding}
    (alike : List.Forall₂ (Binding.Alike κ) xs ys) (renames : Renaming.Alike κ ρ σ)
    (builders : Builder.Alike κ b c) :
    Agree (InStep κ) (emitBindings f kind xs ρ b) (emitBindings g kind ys σ c) := by
  induction alike generalizing ρ σ b c with
  | nil => exact .ok ⟨renames, builders⟩
  | cons head _ ih =>
      exact (agree_emitBinding kind head renames builders).bind fun _ _ next => ih next.1 next.2

theorem agree_emitBlocks {xs ys : List Block} (alike : List.Forall₂ (Block.Alike κ) xs ys)
    (renames : Renaming.Alike κ ρ σ) (builders : Builder.Alike κ b c) :
    Agree (InStep κ) (emitBlocks f xs ρ b) (emitBlocks g ys σ c) := by
  induction alike generalizing ρ σ b c with
  | nil => exact .ok ⟨renames, builders⟩
  | @cons x y _ _ head _ ih =>
      rw [emitBlocks, emitBlocks, head.kind]
      exact (agree_emitBindings y.kind head.bindings renames builders).bind fun _ _ next =>
        ih next.1 next.2.sealBlock

end Demotion

theorem Function.Alike.demote (h : Function.Alike κ f g) :
    Agree (Function.Alike κ) f.demote g.demote := by
  refine (Demotion.agree_emitBlocks h.blocks .nil (Builder.alike_reopen h)).bind fun _ _ next => ?_
  have body := h.body.substitute next.1
  exact (Demotion.agree_checkPlain next.2 body.reads).check (next.2.finish body).mapError

end TensorIR
