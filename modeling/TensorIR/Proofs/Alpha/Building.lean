import TensorIR.Lowering.Emitter
import TensorIR.Proofs.Alpha.Checking
import TensorIR.Proofs.Alpha.Inference

/-!
# Building functions alike

Two builders that are alike stay alike when the same is done to both. What is emitted is annotated
alike, new variables are allocated in pairs, and an operation is refused by both builders or by
neither. So emitting binding by binding keeps two functions in step if each single emission does
(`Emitter.agree_emitBlocks`).
-/

namespace TensorIR

variable {κ : Correspondence}

/-- The builders hold what is alike so far, and both have a deferred report or neither has. -/
structure Builder.Alike (κ : Correspondence) (b c : Builder) : Prop where
  params : List.Forall₂ κ.vars b.params c.params
  blocks : List.Forall₂ (Block.Alike κ) b.blocks c.blocks
  pending : List.Forall₂ (Binding.Alike κ) b.pending c.pending
  retTy : b.retTy = c.retTy
  inDataflow : b.inDataflow = c.inDataflow
  deferred : b.deferred.isSome = c.deferred.isSome
  records : Records κ b.vars c.vars b.dimNames c.dimNames

namespace Builder

variable {b c : Builder}

theorem alike_reopen {f g : Function} (h : Function.Alike κ f g) :
    Builder.Alike κ (reopen f) (reopen g) :=
  ⟨h.params, .nil, .nil, h.retTy, rfl, rfl, h.records⟩

namespace Alike

/-! ### Blocks -/

theorem endBlock (h : Builder.Alike κ b c) (kind : BlockKind) :
    Builder.Alike κ (b.endBlock kind) (c.endBlock kind) := by
  rw [Builder.endBlock, Builder.endBlock, rel_isEmpty h.pending]
  refine rel_ite Iff.rfl h { h with blocks := ?_, pending := .nil }
  exact List.rel_append h.blocks (.cons ⟨rfl, h.pending⟩ .nil)

theorem sealBlock (h : Builder.Alike κ b c) : Builder.Alike κ b.sealBlock c.sealBlock := by
  rw [Builder.sealBlock, Builder.sealBlock, h.inDataflow]
  exact rel_ite Iff.rfl h (h.endBlock .plain)

theorem openRegion (h : Builder.Alike κ b c) :
    Agree (Builder.Alike κ) b.openRegion c.openRegion := by
  rw [Builder.openRegion, Builder.openRegion, h.inDataflow]
  exact Agree.ite Iff.rfl (fun _ => .error) fun _ =>
    .ok { h.endBlock .plain with inDataflow := rfl }

theorem isOutput (h : Builder.Alike κ b c) {x y : Binding} (alike : Binding.Alike κ x y) :
    b.isOutput x = c.isOutput y := by
  cases alike with
  | matchShape _ _ _ => rfl
  | define paired _ =>
      have outputs := rel_map (S := Eq) (h.records.infos _ _ paired)
        fun _ _ info => congrArg (! ·) info.isDataflow
      exact congrArg (Option.getD · false) (rel_eq_iff.1 outputs)

theorem closeRegion (h : Builder.Alike κ b c) :
    Builder.Alike κ b.closeRegion.1 c.closeRegion.1 ∧
      Agree Eq b.closeRegion.2 c.closeRegion.2 := by
  have outputs : b.pending.any b.isOutput = c.pending.any c.isOutput :=
    rel_any h.pending fun _ _ => h.isOutput
  rw [Builder.closeRegion, Builder.closeRegion, h.inDataflow]
  cases c.inDataflow with
  | false => exact ⟨h, .ok rfl⟩
  | true =>
      refine ⟨{ h.endBlock .dataflow with inDataflow := rfl }, ?_⟩
      rw [if_pos rfl, if_pos rfl, rel_isEmpty h.pending, outputs]
      exact Agree.ite Iff.rfl (fun _ => .ok rfl) fun _ => .error

/-! ### Emission -/

theorem append (h : Builder.Alike κ b c) {x y : Binding} (alike : Binding.Alike κ x y) :
    Builder.Alike κ (b.append x) (c.append y) :=
  { h with pending := List.rel_append h.pending (.cons alike .nil) }

theorem info (h : Builder.Alike κ b c) {v w : Var} (paired : κ.vars v w) :
    Agree (VarInfo.Alike κ) (b.info v) (c.info w) := by
  have recorded := h.records.infos v w paired
  rw [Builder.info, Builder.info]
  revert recorded
  generalize b.vars[v.index]? = i
  generalize c.vars[w.index]? = j
  rintro (alike | _)
  · exact .ok alike
  · exact .error

theorem fresh (h : Builder.Alike κ b c) {i j : VarInfo} (alike : VarInfo.Alike κ i j) :
    Builder.Alike κ (b.fresh i).1 (c.fresh j).1 ∧ κ.vars (b.fresh i).2 (c.fresh j).2 :=
  ⟨{ h with records := h.records.append alike }, h.records.fresh 0⟩

theorem bindFresh (h : Builder.Alike κ b c) (name : String) (kind : VarKind) {e f : Expr}
    (alike : Expr.Alike κ e f) :
    Builder.Alike κ (b.bindFresh name kind e).1 (c.bindFresh name kind f).1 ∧
      κ.vars (b.bindFresh name kind e).2 (c.bindFresh name kind f).2 := by
  have infos := h.records.infos
  have value := alike.annotate infos
  have info : VarInfo.Alike κ
      ⟨name, kind, (e.annotate b.vars).inferShape? b.vars, (e.annotate b.vars).inferTy? b.vars⟩
      ⟨name, kind, (f.annotate c.vars).inferShape? c.vars, (f.annotate c.vars).inferTy? c.vars⟩ :=
    ⟨rfl, value.inferTy? infos, value.inferShape? infos⟩
  obtain ⟨grown, paired⟩ := h.fresh info
  exact ⟨grown.append (.define paired value), paired⟩

theorem emitNamed (h : Builder.Alike κ b c) (name : String) {e f : Expr}
    (alike : Expr.Alike κ e f) :
    Builder.Alike κ (b.emitNamed name e).1 (c.emitNamed name f).1 ∧
      κ.vars (b.emitNamed name e).2 (c.emitNamed name f).2 := by
  rw [Builder.emitNamed, Builder.emitNamed, currentKind, currentKind, h.inDataflow]
  exact h.bindFresh name _ alike

theorem bindable (h : Builder.Alike κ b c) {v w : Var} (paired : κ.vars v w) :
    Agree (VarInfo.Alike κ) (b.bindable v) (c.bindable w) := by
  have recorded := h.records.infos v w paired
  rw [Builder.bindable, Builder.bindable]
  revert recorded
  generalize b.vars[v.index]? = i
  generalize c.vars[w.index]? = j
  rintro (alike | _)
  · simp only [alike.isDataflow, h.inDataflow]
    exact Agree.ite Iff.rfl (fun _ => .error) fun _ => .ok alike
  · exact .error

theorem checkShape (h : Builder.Alike κ b c) {i j : VarInfo} (info : VarInfo.Alike κ i j)
    {e f : Expr} (alike : Expr.Alike κ e f) :
    Agree Eq (b.checkShape i e) (c.checkShape j f) := by
  have expected := info.shape
  have found := alike.inferShape? h.records.infos
  rw [Builder.checkShape, Builder.checkShape]
  revert expected found
  generalize i.shape = s
  generalize j.shape = s'
  generalize e.inferShape? b.vars = t
  generalize f.inferShape? c.vars = t'
  rintro (expected | _) (found | _)
  · exact Agree.ite (Relator.rel_eq (Shape.alike_unique κ) expected found) (fun _ => .ok rfl)
      fun _ => .error
  · exact .ok rfl
  · exact .ok rfl
  · exact .ok rfl

theorem checkTy (h : Builder.Alike κ b c) {i j : VarInfo} (info : VarInfo.Alike κ i j)
    {e f : Expr} (alike : Expr.Alike κ e f) : Agree Eq (b.checkTy i e) (c.checkTy j f) := by
  rw [Builder.checkTy, Builder.checkTy, info.ty, alike.inferTy? h.records.infos]
  split
  · exact Agree.ite Iff.rfl (fun _ => .ok rfl) fun _ => .error
  · exact .ok rfl

theorem bind (h : Builder.Alike κ b c) {v w : Var} (paired : κ.vars v w) {e f : Expr}
    (alike : Expr.Alike κ e f) : Agree (Builder.Alike κ) (b.bind v e) (c.bind w f) := by
  have value := alike.annotate h.records.infos
  exact (h.bindable paired).bind fun i j info =>
    (h.checkShape info value).check ((h.checkTy info value).check
      (.ok (h.append (.define paired value))))

theorem push (h : Builder.Alike κ b c) {x y : Binding} (alike : Binding.Alike κ x y) :
    Agree (Builder.Alike κ) (b.push x) (c.push y) := by
  cases alike with
  | define paired value => exact h.bind paired value
  | matchShape defined value pattern =>
      have value := value.annotate h.records.infos
      cases defined with
      | none => exact .ok (h.append (.matchShape .none value pattern))
      | some paired =>
          exact (h.bindable paired).bind fun _ _ _ =>
            .ok (h.append (.matchShape (.some paired) value pattern))

/-! ### The finished function -/

theorem toFunction (h : Builder.Alike κ b c) {e f : Expr} (alike : Expr.Alike κ e f) :
    Function.Alike κ (b.toFunction e) (c.toFunction f) :=
  have ended := h.endBlock .plain
  ⟨ended.params, ended.blocks, alike, ended.retTy, ended.records⟩

theorem finish (h : Builder.Alike κ b c) {e f : Expr} (alike : Expr.Alike κ e f) :
    Agree (Function.Alike κ) (b.finish e) (c.finish f) := by
  have both := h.closeRegion
  rw [Builder.finish, Builder.finish]
  revert both
  generalize b.closeRegion = r
  generalize c.closeRegion = r'
  obtain ⟨b', closed⟩ := r
  obtain ⟨c', closed'⟩ := r'
  rintro ⟨builders, outputs⟩
  refine outputs.check ?_
  -- The reports that were kept may differ in the number of the block, but not in being there.
  have deferred : b'.deferred.isSome = c'.deferred.isSome := builders.deferred
  cases left : b'.deferred with
  | none =>
      cases right : c'.deferred with
      | none =>
          have finished := builders.toFunction alike
          exact finished.check.mapError.check (.ok finished)
      | some _ =>
          rw [left, right] at deferred
          cases deferred
  | some _ =>
      cases right : c'.deferred with
      | none =>
          rw [left, right] at deferred
          cases deferred
      | some _ => exact .error

end Alike

end Builder

/-! ### Lowering binding by binding -/

theorem Binding.Alike.substitute {ρ σ : Renaming} (renames : Renaming.Alike κ ρ σ) {x y : Binding}
    (h : Binding.Alike κ x y) : Binding.Alike κ (x.substitute ρ) (y.substitute σ) :=
  h.withValue (h.value.substitute renames)

namespace Emitter

variable {σ : Type} {emit emit' : Emitter σ} {holds : σ → σ → Prop} {s s' : σ} {b c : Builder}

/-- What has been remembered is related, and what has been emitted is alike. -/
def InStep (κ : Correspondence) (holds : σ → σ → Prop) (r r' : σ × Builder) : Prop :=
  holds r.1 r'.1 ∧ Builder.Alike κ r.2 r'.2

/-- Two emitters, each for one of two functions, make of bindings alike what is in step. -/
def Agrees (κ : Correspondence) (emit emit' : Emitter σ) (holds : σ → σ → Prop) : Prop :=
  ∀ n n' x y s s' b c, Binding.Alike κ x y → holds s s' → Builder.Alike κ b c →
    Agree (InStep κ holds) (emit n x s b) (emit' n' y s' c)

variable (agrees : Agrees κ emit emit' holds)
include agrees

theorem agree_emitBindings {xs ys : List Binding} (alike : List.Forall₂ (Binding.Alike κ) xs ys)
    (remembered : holds s s') (builders : Builder.Alike κ b c) (n n' : Nat) :
    Agree (InStep κ holds) (emit.emitBindings n xs s b) (emit'.emitBindings n' ys s' c) := by
  induction alike generalizing s s' b c n n' with
  | nil => exact .ok ⟨remembered, builders⟩
  | cons head _ ih =>
      exact (agrees _ _ _ _ _ _ _ _ head remembered builders).bind fun _ _ next =>
        ih next.1 next.2 _ _

theorem agree_emitBlock {x y : Block} (alike : Block.Alike κ x y) (remembered : holds s s')
    (builders : Builder.Alike κ b c) (name name' : String) (n n' : Nat) :
    Agree (InStep κ holds) (emit.emitBlock name n x s b) (emit'.emitBlock name' n' y s' c) := by
  rw [emitBlock, emitBlock, alike.kind]
  cases y.kind with
  | plain =>
      exact (agree_emitBindings agrees alike.bindings remembered builders n n').bind
        fun _ _ next => .ok ⟨next.1, next.2.sealBlock⟩
  | dataflow =>
      refine builders.openRegion.mapError.bind fun _ _ builders => ?_
      refine (agree_emitBindings agrees alike.bindings remembered builders n n').bind
        fun _ _ next => ?_
      obtain ⟨closed, outputs⟩ := next.2.closeRegion
      exact outputs.mapError.check (.ok ⟨next.1, closed⟩)

theorem agree_emitBlocks {enter enter' : σ → σ}
    (entering : ∀ s s', holds s s' → holds (enter s) (enter' s')) {xs ys : List Block}
    (alike : List.Forall₂ (Block.Alike κ) xs ys) (remembered : holds s s')
    (builders : Builder.Alike κ b c) (name name' : String) (n n' : Nat) :
    Agree (InStep κ holds) (emit.emitBlocks enter name n xs s b)
      (emit'.emitBlocks enter' name' n' ys s' c) := by
  induction alike generalizing s s' b c n n' with
  | nil => exact .ok ⟨remembered, builders⟩
  | cons head _ ih =>
      exact (agree_emitBlock agrees head (entering _ _ remembered) builders name name' n n').bind
        fun _ _ next => ih next.1 next.2 _ _

end Emitter

/-- Replacing the bindings of two functions alike one by one, each by what is alike. -/
theorem Function.Alike.replaceBindings {f g : Function} (h : Function.Alike κ f g)
    {emit emit' : Nat → Binding → Builder → Lowered Builder}
    (agrees : ∀ n n' x y b c, Binding.Alike κ x y → Builder.Alike κ b c →
      Agree (Builder.Alike κ) (emit n x b) (emit' n' y c)) :
    Agree (Function.Alike κ) (f.replaceBindings emit) (g.replaceBindings emit') := by
  let emitter (emit : Nat → Binding → Builder → Lowered Builder) : Emitter Unit :=
    fun position binding _ b => (fun b => ((), b)) <$> emit position binding b
  have each : Emitter.Agrees κ (emitter emit) (emitter emit') (fun _ _ => True) := by
    intro n n' x y s s' b c alike _ builders
    exact (agrees n n' x y b c alike builders).map fun _ _ builders => ⟨trivial, builders⟩
  have start := Builder.alike_reopen h
  refine (Emitter.agree_emitBlocks each (fun _ _ => id) h.blocks trivial start _ _ _ _).bind ?_
  exact fun _ _ next => (next.2.finish h.body).mapError

end TensorIR
