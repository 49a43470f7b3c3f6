import TensorIR.Proofs.Emission
import TensorIR.Proofs.Inference

/-!
# Bindings that a builder takes as they are

A builder annotates what is emitted and checks it against what is recorded of the variable that is
bound. A binding is settled if both have been done: it is annotated in full, it passes the checks,
and it reads allocated variables only. Emitting a settled binding appends it unchanged
(`Builder.push_settled`).

Whatever a builder has emitted is settled, as long as the values that it was given read allocated
variables only: annotating twice is annotating once, and what the checks infer of an annotated value
is what they inferred before. It stays settled when variables are allocated later, since inference
is stable. So `Builder.Settled` is an invariant, with one lemma for each operation. Only a region
that is closed without an output breaks it.
-/

namespace TensorIR

variable {vars more : List VarInfo} {inside : Bool}

/-- The value agrees with what is recorded of its variable, wherever both are known. -/
structure VarInfo.Fits (vars : List VarInfo) (info : VarInfo) (value : Expr) : Prop where
  shape : ∀ s ∈ info.shape, ∀ t ∈ value.inferShape? vars, s = t
  ty : ∀ t ∈ info.ty, ∀ u ∈ value.inferTy? vars, t.compatible u = true

/-- The variable has the record, with which it can be bound inside of a region or outside. -/
def Var.Bindable (vars : List VarInfo) (inside : Bool) (v : Var) (info : VarInfo) : Prop :=
  vars[v.index]? = some info ∧ (info.isDataflow = true → inside = true)

theorem getElem?_grown {i : Nat} (allocated : i < vars.length) :
    (vars ++ more)[i]? = vars[i]? :=
  List.getElem?_append_left allocated

theorem Var.Bindable.grow {v : Var} {info : VarInfo} (h : v.Bindable vars inside info) :
    v.Bindable (vars ++ more) inside info :=
  ⟨(getElem?_grown (List.getElem?_eq_some_iff.1 h.1).1).trans h.1, h.2⟩

/-- Of the second expression the same is inferred as of the first, each among variables of its
own. -/
structure Expr.Stands (vars vars' : List VarInfo) (e e' : Expr) : Prop where
  shape : e'.inferShape? vars' = e.inferShape? vars
  ty : e'.inferTy? vars' = e.inferTy? vars

namespace Binding

/-- The builder takes the binding, inside of a region or outside. -/
def Accepted (vars : List VarInfo) (inside : Bool) : Binding → Prop
  | define v value => ∃ info, v.Bindable vars inside info ∧ info.Fits vars value
  | matchShape v _ _ => ∀ u ∈ v, ∃ info, u.Bindable vars inside info

/-- The builder takes the binding and leaves it as it is. -/
structure Settled (vars : List VarInfo) (inside : Bool) (x : Binding) : Prop where
  accepted : x.Accepted vars inside
  annotated : x.annotated vars = x
  reads : ∀ v ∈ x.value.reads, v.index < vars.length

/-- The binding makes something visible after its region. -/
def IsOutput (vars : List VarInfo) : Binding → Prop
  | define v _ => ∃ info, vars[v.index]? = some info ∧ info.isDataflow = false
  | matchShape .. => True

variable {x : Binding}

@[simp]
theorem value_annotated (x : Binding) (vars : List VarInfo) :
    (x.annotated vars).value = x.value.annotate vars := by
  cases x <;> rfl

theorem Accepted.annotated (h : x.Accepted vars inside) :
    (x.annotated vars).Accepted vars inside := by
  cases x with
  | define v value =>
      obtain ⟨info, bindable, fits⟩ := h
      refine ⟨info, bindable, ?_, ?_⟩
      · rw [Expr.inferShape?_annotate]
        exact fits.shape
      · rw [Expr.inferTy?_annotate]
        exact fits.ty
  | matchShape v value pattern => exact h

/-- What a builder takes is settled once it is annotated. -/
theorem settled_of_accepted (h : x.Accepted vars inside)
    (reads : ∀ v ∈ x.value.reads, v.index < vars.length) :
    (x.annotated vars).Settled vars inside where
  accepted := h.annotated
  annotated := by
    cases x with
    | define v value => exact congrArg (define v) (Expr.annotate_annotate vars value)
    | matchShape v value pattern =>
        exact congrArg (matchShape v · pattern) (Expr.annotate_annotate vars value)
  reads := by
    rw [value_annotated, Expr.reads_annotate]
    exact reads

theorem Accepted.grow (h : x.Accepted vars inside)
    (reads : ∀ v ∈ x.value.reads, v.index < vars.length) : x.Accepted (vars ++ more) inside := by
  have agree : ∀ v ∈ x.value.reads, (vars ++ more)[v.index]? = vars[v.index]? :=
    fun v read => getElem?_grown (reads v read)
  cases x with
  | define v value =>
      obtain ⟨info, bindable, fits⟩ := h
      have shape : value.inferShape? (vars ++ more) = value.inferShape? vars :=
        Expr.inferShape?_congr agree
      have ty : value.inferTy? (vars ++ more) = value.inferTy? vars := Expr.inferTy?_congr agree
      refine ⟨info, bindable.grow, ?_, ?_⟩
      · rw [shape]
        exact fits.shape
      · rw [ty]
        exact fits.ty
  | matchShape v value pattern =>
      intro u mem
      obtain ⟨info, bindable⟩ := h u mem
      exact ⟨info, bindable.grow⟩

/-- Allocating more variables does not unsettle a binding. -/
theorem Settled.grow (h : x.Settled vars inside) : x.Settled (vars ++ more) inside where
  accepted := h.accepted.grow h.reads
  annotated := by
    have annotated := h.annotated
    rw [Binding.annotated] at annotated ⊢
    rwa [Expr.annotate_congr fun v read => getElem?_grown (h.reads v read)]
  reads v read := by
    have allocated := h.reads v read
    rw [List.length_append]
    omega

theorem IsOutput.grow (h : x.IsOutput vars) : x.IsOutput (vars ++ more) := by
  cases x with
  | define v value =>
      obtain ⟨info, found, plain⟩ := h
      exact ⟨info, (getElem?_grown (List.getElem?_eq_some_iff.1 found).1).trans found, plain⟩
  | matchShape _ _ _ => trivial

end Binding

/-- The builder takes the bindings of the block and leaves them in a block of the same kind. -/
structure Block.Settled (vars : List VarInfo) (block : Block) : Prop where
  bindings : ∀ x ∈ block.bindings, x.Settled vars block.isDataflow
  nonempty : block.bindings ≠ []
  output : block.kind = .dataflow → ∃ x ∈ block.bindings, x.IsOutput vars

theorem Block.Settled.grow {block : Block} (h : block.Settled vars) :
    block.Settled (vars ++ more) where
  bindings x mem := (h.bindings x mem).grow
  nonempty := h.nonempty
  output dataflow := by
    obtain ⟨x, mem, output⟩ := h.output dataflow
    exact ⟨x, mem, output.grow⟩

/-- Emitting the blocks of the function once more changes none of them. -/
def Function.Settled (f : Function) : Prop := ∀ block ∈ f.blocks, block.Settled f.vars

namespace Builder

variable {b b' : Builder} {v : Var} {info : VarInfo} {value : Expr} {x : Binding} {kind : BlockKind}

/-! ### What a builder takes -/

theorem bindable_eq_ok : b.bindable v = .ok info ↔ v.Bindable b.vars b.inDataflow info := by
  rw [bindable, Var.Bindable]
  cases b.vars[v.index]? with
  | none => exact ⟨nofun, nofun⟩
  | some found =>
      rw [Option.some_inj]
      show (if _ then _ else _) = _ ↔ _
      by_cases place : found.isDataflow = true → b.inDataflow = true
      · rw [if_neg (by simpa using place)]
        refine pure_eq_ok.trans ⟨?_, And.left⟩
        rintro rfl
        exact ⟨rfl, place⟩
      · rw [if_pos (by simpa using place)]
        refine ⟨nofun, ?_⟩
        rintro ⟨rfl, fits⟩
        exact absurd fits place

theorem checkShape_eq_ok : b.checkShape info value = .ok () ↔
    ∀ s ∈ info.shape, ∀ t ∈ value.inferShape? b.vars, s = t := by
  rw [checkShape]
  cases info.shape with
  | none => exact ⟨fun _ => nofun, fun _ => rfl⟩
  | some expected =>
      cases value.inferShape? b.vars with
      | none => exact ⟨fun _ _ _ => nofun, fun _ => rfl⟩
      | some found =>
          simp only [Option.mem_some_iff, forall_eq']
          split
          · next same => exact ⟨fun _ => same, fun _ => rfl⟩
          · next differ => exact ⟨nofun, fun same => absurd same differ⟩

theorem checkShape_eq_error {e : BuildError} : b.checkShape info value = .error e ↔
    ∃ s ∈ info.shape, ∃ t ∈ value.inferShape? b.vars, s ≠ t ∧
      e = .shapeMismatch info.name (s.render b.dimNames) (t.render b.dimNames) := by
  rw [checkShape]
  cases info.shape with
  | none => exact ⟨nofun, nofun⟩
  | some expected =>
      cases value.inferShape? b.vars with
      | none => exact ⟨nofun, nofun⟩
      | some found =>
          simp only [Option.mem_some_iff, exists_eq_left']
          split
          · next same => exact ⟨nofun, fun h => absurd same h.1⟩
          · next differ => exact ⟨fun h => ⟨differ, (Except.error.inj h).symm⟩, fun h => h.2 ▸ rfl⟩

theorem checkTy_eq_ok : b.checkTy info value = .ok () ↔
    ∀ t ∈ info.ty, ∀ u ∈ value.inferTy? b.vars, t.compatible u = true := by
  rw [checkTy]
  cases info.ty with
  | none => exact ⟨fun _ => nofun, fun _ => rfl⟩
  | some expected =>
      cases value.inferTy? b.vars with
      | none => exact ⟨fun _ _ _ => nofun, fun _ => rfl⟩
      | some found =>
          simp only [Option.mem_some_iff, forall_eq']
          split
          · next agree => exact ⟨fun _ => agree, fun _ => rfl⟩
          · next differ => exact ⟨nofun, fun agree => absurd agree differ⟩

theorem checkTy_eq_error {e : BuildError} : b.checkTy info value = .error e ↔
    ∃ t ∈ info.ty, ∃ u ∈ value.inferTy? b.vars, t.compatible u = false ∧
      e = .tyMismatch info.name t.render u.render := by
  rw [checkTy]
  cases info.ty with
  | none => exact ⟨nofun, nofun⟩
  | some expected =>
      cases value.inferTy? b.vars with
      | none => exact ⟨nofun, nofun⟩
      | some found =>
          simp only [Option.mem_some_iff, exists_eq_left']
          split
          · next agree => exact ⟨nofun, fun h => by rw [h.1] at agree; cases agree⟩
          · next differ =>
              refine ⟨fun h => ⟨Bool.not_eq_true _ ▸ differ, (Except.error.inj h).symm⟩,
                fun h => ?_⟩
              exact h.2 ▸ rfl

/-- A builder objects to a shape first and then to a type. -/
theorem bind_eq_error {e : BuildError} (place : b.bindable v = .ok info) :
    b.bind v value = .error e ↔ b.checkShape info value = .error e ∨
      (b.checkShape info value = .ok () ∧ b.checkTy info value = .error e) := by
  have shape : b.checkShape info (value.annotate b.vars) = b.checkShape info value := by
    rw [checkShape, checkShape, Expr.inferShape?_annotate]
  have ty : b.checkTy info (value.annotate b.vars) = b.checkTy info value := by
    rw [checkTy, checkTy, Expr.inferTy?_annotate]
  simp only [Builder.bind, place, ok_bind, shape, ty]
  cases b.checkShape info value with
  | error e' => simp
  | ok _ =>
      cases b.checkTy info value with
      | error e' => simp
      | ok _ => simp [pure_eq]

/-- A builder takes a binding by appending it with its value annotated. -/
theorem push_eq_ok_iff : b.push x = .ok b' ↔
    x.Accepted b.vars b.inDataflow ∧ b' = b.append (x.annotated b.vars) := by
  constructor
  · intro pushed
    refine ⟨?_, push_eq_ok_append pushed⟩
    cases x with
    | define v value =>
        simp only [push, bind] at pushed
        obtain ⟨info, bindable, pushed⟩ := bind_eq_ok.1 pushed
        obtain ⟨shape, pushed⟩ := check_bind_eq_ok.1 pushed
        obtain ⟨ty, -⟩ := check_bind_eq_ok.1 pushed
        rw [checkShape_eq_ok, Expr.inferShape?_annotate] at shape
        rw [checkTy_eq_ok, Expr.inferTy?_annotate] at ty
        exact ⟨info, bindable_eq_ok.1 bindable, shape, ty⟩
    | matchShape v? value pattern =>
        rintro v ⟨⟩
        simp only [push] at pushed
        obtain ⟨info, bindable, -⟩ := bind_eq_ok.1 pushed
        exact ⟨info, bindable_eq_ok.1 bindable⟩
  · rintro ⟨accepted, rfl⟩
    cases x with
    | define v value =>
        obtain ⟨info, bindable, fits⟩ := accepted
        have shape : b.checkShape info (value.annotate b.vars) = .ok () := by
          rw [checkShape_eq_ok, Expr.inferShape?_annotate]
          exact fits.shape
        have ty : b.checkTy info (value.annotate b.vars) = .ok () := by
          rw [checkTy_eq_ok, Expr.inferTy?_annotate]
          exact fits.ty
        simp only [push, bind, bindable_eq_ok.2 bindable, shape, ty, ok_bind]
        rfl
    | matchShape v? value pattern =>
        cases v? with
        | none => rfl
        | some v =>
            obtain ⟨info, bindable⟩ := accepted v rfl
            simp only [push, bindable_eq_ok.2 bindable, ok_bind]
            rfl

/-- A builder takes a settled binding as it is. -/
theorem push_settled (h : x.Settled b.vars b.inDataflow) : b.push x = .ok (b.append x) :=
  push_eq_ok_iff.2 ⟨h.accepted, by rw [h.annotated]⟩

theorem bind_eq_ok_iff : b.bind v value = .ok b' ↔
    (∃ info, v.Bindable b.vars b.inDataflow info ∧ info.Fits b.vars value) ∧
      b' = b.append (.define v (value.annotate b.vars)) :=
  push_eq_ok_iff (x := .define v value)

/-- A builder takes a value that fits also when variables have been allocated since, and annotates
it as it would have done before. -/
theorem bind_grown (place : v.Bindable vars b.inDataflow info) (fits : info.Fits vars value)
    (reads : ∀ u ∈ value.reads, u.index < vars.length) (grown : b.vars = vars ++ more) :
    b.bind v value = .ok (b.append (.define v (value.annotate vars))) := by
  have accepted : (Binding.define v value).Accepted vars b.inDataflow := ⟨info, place, fits⟩
  refine bind_eq_ok_iff.2 ⟨?_, ?_⟩
  · rw [grown]
    exact accepted.grow reads
  · rw [grown, Expr.annotate_congr fun u read => getElem?_grown (reads u read)]

/-- Whether a builder takes a value, and what it says if it does not, depends on what is recorded of
the variable and inferred of the value only. -/
theorem bind_eq_map {value' : Expr} (known : b'.bindable v = b.bindable v)
    (names : b'.dimNames = b.dimNames) (stands : Expr.Stands b.vars b'.vars value value') :
    b'.bind v value' =
      (b.bind v value).map fun _ => b'.append (.define v (value'.annotate b'.vars)) := by
  have shape (info : VarInfo) : b'.checkShape info (value'.annotate b'.vars) =
      b.checkShape info (value.annotate b.vars) := by
    rw [checkShape, checkShape, Expr.inferShape?_annotate, Expr.inferShape?_annotate, names,
      stands.shape]
  have ty (info : VarInfo) : b'.checkTy info (value'.annotate b'.vars) =
      b.checkTy info (value.annotate b.vars) := by
    rw [checkTy, checkTy, Expr.inferTy?_annotate, Expr.inferTy?_annotate, stands.ty]
  simp only [Builder.bind, known, shape, ty]
  cases b.bindable v with
  | error e => rfl
  | ok info =>
      simp only [ok_bind]
      cases b.checkShape info (value.annotate b.vars) with
      | error e => rfl
      | ok _ =>
          simp only [ok_bind]
          cases b.checkTy info (value.annotate b.vars) <;> rfl

theorem isOutput_iff : b.isOutput x = true ↔ x.IsOutput b.vars := by
  cases x with
  | matchShape _ _ _ => exact iff_of_true rfl trivial
  | define v value =>
      rw [isOutput, Binding.IsOutput]
      cases b.vars[v.index]? with
      | none => simp
      | some info => simp

/-- A new variable has the record that its value gives it. -/
theorem settled_bindFresh (name : String) {kind : VarKind}
    (reads : ∀ u ∈ value.reads, u.index < b.vars.length)
    (place : kind = .dataflow → b.inDataflow = true) :
    (Binding.define ⟨b.vars.length⟩ (value.annotate b.vars)).Settled
      (b.bindFresh name kind value).1.vars b.inDataflow := by
  let info : VarInfo := ⟨name, kind, (value.annotate b.vars).inferShape? b.vars,
    (value.annotate b.vars).inferTy? b.vars⟩
  have agree : ∀ v ∈ value.reads, (b.vars ++ [info])[v.index]? = b.vars[v.index]? :=
    fun v read => getElem?_grown (reads v read)
  have accepted :
      (Binding.define ⟨b.vars.length⟩ value).Accepted (b.vars ++ [info]) b.inDataflow := by
    refine ⟨info, ⟨List.getElem?_concat_length, fun dataflow => place (beq_iff_eq.1 dataflow)⟩,
      fun s ofInfo t ofValue => ?_, fun t ofInfo u ofValue => ?_⟩
    · rw [Expr.inferShape?_congr agree] at ofValue
      simp only [info, Expr.inferShape?_annotate] at ofInfo
      exact Option.mem_unique ofInfo ofValue
    · rw [Expr.inferTy?_congr agree] at ofValue
      simp only [info, Expr.inferTy?_annotate] at ofInfo
      rw [Option.mem_unique ofInfo ofValue]
      exact Ty.compatible_self u
  have annotated : value.annotate (b.vars ++ [info]) = value.annotate b.vars :=
    Expr.annotate_congr agree
  have settled := Binding.settled_of_accepted accepted fun v read => by
    have allocated := reads v read
    rw [List.length_append]
    omega
  rwa [Binding.annotated, Binding.value, annotated] at settled

/-! ### What a builder has emitted -/

/-- Everything that the builder has emitted is settled. -/
structure Settled (b : Builder) : Prop where
  blocks : ∀ block ∈ b.blocks, block.Settled b.vars
  pending : ∀ x ∈ b.pending, x.Settled b.vars b.inDataflow

namespace Settled

theorem fresh (h : b.Settled) (info : VarInfo) : (b.fresh info).1.Settled :=
  ⟨fun block mem => (h.blocks block mem).grow, fun x mem => (h.pending x mem).grow⟩

theorem append (h : b.Settled) (settled : x.Settled b.vars b.inDataflow) : (b.append x).Settled :=
  ⟨h.blocks, List.forall_mem_append.2 ⟨h.pending, List.forall_mem_singleton.2 settled⟩⟩

theorem push (h : b.Settled) (reads : ∀ v ∈ x.value.reads, v.index < b.vars.length)
    (pushed : b.push x = .ok b') : b'.Settled := by
  obtain ⟨accepted, rfl⟩ := push_eq_ok_iff.1 pushed
  exact h.append (Binding.settled_of_accepted accepted reads)

theorem bind (h : b.Settled) (reads : ∀ u ∈ value.reads, u.index < b.vars.length)
    (bound : b.bind v value = .ok b') : b'.Settled :=
  h.push (x := .define v value) reads bound

theorem bindFresh (h : b.Settled) (name : String) {kind : VarKind} (value : Expr)
    (reads : ∀ u ∈ value.reads, u.index < b.vars.length)
    (place : kind = .dataflow → b.inDataflow = true) : (b.bindFresh name kind value).1.Settled :=
  (h.fresh _).append (settled_bindFresh name reads place)

theorem emitNamed (h : b.Settled) (name : String) (value : Expr)
    (reads : ∀ u ∈ value.reads, u.index < b.vars.length) : (b.emitNamed name value).1.Settled := by
  refine h.bindFresh name value reads fun dataflow => ?_
  rw [currentKind] at dataflow
  split at dataflow
  · assumption
  · cases dataflow

/-- The block in progress is settled when it ends, if it has an output where it needs one. -/
theorem endBlock (h : b.Settled) (here : b.inDataflow = (kind == .dataflow))
    (output : kind = .dataflow → b.pending ≠ [] → ∃ x ∈ b.pending, x.IsOutput b.vars) :
    ∀ block ∈ (b.endBlock kind).blocks, block.Settled b.vars := by
  refine forall_endBlock h.blocks fun nonempty => ⟨?_, nonempty, fun dataflow => ?_⟩
  · have pending := h.pending
    rwa [here] at pending
  · exact output dataflow nonempty

theorem endPlain (h : b.Settled) (outside : b.inDataflow = false) :
    ∀ block ∈ (b.endBlock .plain).blocks, block.Settled b.vars :=
  h.endBlock outside nofun

theorem sealBlock (h : b.Settled) : b.sealBlock.Settled := by
  rw [Builder.sealBlock]
  split
  · exact h
  · next outside =>
      refine ⟨?_, ?_⟩
      · rw [vars_endBlock]
        exact h.endPlain (Bool.not_eq_true _ ▸ outside)
      · rw [pending_endBlock]
        exact List.forall_mem_nil _

theorem openRegion (h : b.Settled) (opened : b.openRegion = .ok b') : b'.Settled := by
  rw [Builder.openRegion] at opened
  split at opened
  · cases opened
  · next outside =>
      cases opened
      refine ⟨?_, ?_⟩
      · show ∀ block ∈ (b.endBlock .plain).blocks, block.Settled (b.endBlock .plain).vars
        rw [vars_endBlock]
        exact h.endPlain (Bool.not_eq_true _ ▸ outside)
      · show ∀ x ∈ (b.endBlock .plain).pending, _
        rw [pending_endBlock]
        exact List.forall_mem_nil _

/-- A region that is closed without complaint has an output. -/
theorem closeRegion (h : b.Settled) (closed : b.closeRegion.2 = .ok ()) :
    b.closeRegion.1.Settled := by
  rw [Builder.closeRegion] at closed ⊢
  split
  · next region =>
      rw [if_pos region] at closed
      have output : b.pending ≠ [] → ∃ x ∈ b.pending, x.IsOutput b.vars := by
        intro nonempty
        split at closed
        · next outputs =>
            rw [Bool.or_eq_true, List.isEmpty_iff, List.any_eq_true] at outputs
            obtain ⟨x, mem, output⟩ := outputs.resolve_left nonempty
            exact ⟨x, mem, isOutput_iff.1 output⟩
        · cases closed
      refine ⟨?_, ?_⟩
      · show ∀ block ∈ (b.endBlock .dataflow).blocks, block.Settled (b.endBlock .dataflow).vars
        rw [vars_endBlock]
        exact h.endBlock region fun _ => output
      · show ∀ x ∈ (b.endBlock .dataflow).pending, _
        rw [pending_endBlock]
        exact List.forall_mem_nil _
  · exact h

theorem finish (h : b.Settled) {body : Expr} {f : Function} (finished : b.finish body = .ok f) :
    f.Settled := by
  obtain ⟨closed, -, rfl, -⟩ := finish_eq_ok_iff.1 finished
  have outside : b.closeRegion.1.inDataflow = false := by
    rw [Builder.closeRegion]
    split
    · rfl
    · next outside => exact Bool.not_eq_true _ ▸ outside
  show ∀ block ∈ (b.closeRegion.1.endBlock .plain).blocks,
    block.Settled (b.closeRegion.1.endBlock .plain).vars
  rw [vars_endBlock]
  exact (h.closeRegion closed).endPlain outside

end Settled

theorem settled_reopen (f : Function) : (reopen f).Settled := ⟨nofun, nofun⟩

end Builder

end TensorIR
