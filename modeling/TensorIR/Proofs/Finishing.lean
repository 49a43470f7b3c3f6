import TensorIR.Proofs.History
import TensorIR.Proofs.Plain
import TensorIR.Proofs.Scoping

/-!
# When a plain builder hands out a function

A pass can fail at its very end, when the builder checks the function that it is to hand out. For a
builder outside of regions there is an invariant under which this never happens, `Builder.Orderly`:
what has been emitted so far would pass the check. What is emitted next keeps it if it reads what is
defined and names dimension variables that there are (`Builder.Admits`), and likewise the body.

Blocks hardly matter to it. All that is defined is plain, so every definition stays in scope.
-/

namespace TensorIR

namespace Builder

/-- The variables that are defined so far. -/
def defined (b : Builder) : List Var := b.params ++ b.bindings.filterMap Binding.defined?

/-- The variable is allocated, and it is a plain one. -/
def HasPlain (b : Builder) (v : Var) : Prop :=
  ∃ info, b.vars[v.index]? = some info ∧ info.kind = .plain

/-- All dimension variables of the list are allocated. -/
def Names (b : Builder) (ds : List DimVar) : Prop := ∀ d ∈ ds, d.index < b.dimNames.length

/-- The expression can be emitted here. -/
structure Admits (b : Builder) (e : Expr) : Prop where
  reads : ∀ v ∈ e.reads, v ∈ b.defined
  dims : b.Names e.dimVars

/-- A builder outside of regions that has emitted nothing that a check would object to. -/
structure Orderly (b : Builder) : Prop extends b.Plain where
  unreported : b.deferred = none
  nonempty : ∀ block ∈ b.blocks, block.bindings ≠ []
  distinct : b.defined.Nodup
  kinds : ∀ v ∈ b.defined, b.HasPlain v
  reads : ReadsAfter b.params b.bindings
  annotations : ∀ info ∈ b.vars, b.Names (info.shape.getD []).vars
  shapes : ∀ x ∈ b.bindings, b.Names x.value.dimVars
  patterns : ∀ x ∈ b.bindings, b.Names (x.pattern?.getD []).vars

variable {b : Builder} {x : Binding} {v : Var} {e : Expr}

@[simp]
theorem defined_of_append (b : Builder) (x : Binding) :
    (b.append x).defined = b.defined ++ x.defined?.toList := by
  rw [defined, defined, bindings_append, defined_append, List.append_assoc]
  rfl

@[simp]
theorem defined_sealBlock (b : Builder) : b.sealBlock.defined = b.defined := by
  rw [defined, defined, params_sealBlock, bindings_sealBlock]

@[simp]
theorem dimNames_endBlock (b : Builder) (kind : BlockKind) :
    (b.endBlock kind).dimNames = b.dimNames := by
  rw [endBlock]
  split <;> rfl

@[simp]
theorem dimNames_sealBlock (b : Builder) : b.sealBlock.dimNames = b.dimNames := by
  rw [sealBlock]
  split
  · rfl
  · exact dimNames_endBlock b .plain

theorem HasPlain.grow (h : b.HasPlain v) (info : VarInfo) : (b.fresh info).1.HasPlain v := by
  obtain ⟨found, at_, plain⟩ := h
  exact ⟨found, (getElem?_grown (List.getElem?_eq_some_iff.1 at_).1).trans at_, plain⟩

/-! ### Growth -/

/-- The builder `b'` has emitted all that `b` has and maybe more. -/
structure Grows (b b' : Builder) : Prop where
  vars : b.vars <+: b'.vars
  dimNames : b'.dimNames = b.dimNames
  defined : ∀ v ∈ b.defined, v ∈ b'.defined

namespace Grows

variable {b' b'' : Builder}

theorem refl (b : Builder) : b.Grows b := ⟨List.prefix_rfl, rfl, fun _ => id⟩

theorem trans (first : b.Grows b') (second : b'.Grows b'') : b.Grows b'' where
  vars := first.vars.trans second.vars
  dimNames := second.dimNames.trans first.dimNames
  defined v mem := second.defined v (first.defined v mem)

theorem admits (grows : b.Grows b') (h : b.Admits e) : b'.Admits e where
  reads v read := grows.defined v (h.reads v read)
  dims := by
    rw [Names, grows.dimNames]
    exact h.dims

end Grows

theorem defined_emitNamed (b : Builder) (name : String) (value : Expr) :
    (b.emitNamed name value).1.defined = b.defined ++ [⟨b.vars.length⟩] := by
  rw [emitNamed, bindFresh, defined_of_append]
  rfl

theorem grows_emitNamed (b : Builder) (name : String) (value : Expr) :
    b.Grows (b.emitNamed name value).1 where
  vars := List.prefix_append _ _
  dimNames := rfl
  defined v mem := by
    rw [defined_emitNamed]
    exact List.mem_append_left _ mem

theorem grows_sealBlock (b : Builder) : b.Grows b.sealBlock where
  vars := ⟨[], by rw [List.append_nil, vars_sealBlock]⟩
  dimNames := dimNames_sealBlock b
  defined v mem := by rwa [defined_sealBlock]

namespace Orderly

theorem allocated (h : b.Orderly) (mem : v ∈ b.defined) : v.index < b.vars.length := by
  obtain ⟨info, found, -⟩ := h.kinds v mem
  exact (List.getElem?_eq_some_iff.1 found).1

/-- One more binding, of a plain variable that is allocated but not defined yet. -/
theorem append (h : b.Orderly) (value : b.Admits x.value)
    (pattern : b.Names (x.pattern?.getD []).vars)
    (new : ∀ v ∈ x.defined?, v ∉ b.defined ∧ b.HasPlain v) : (b.append x).Orderly where
  toPlain := h.toPlain.append x
  unreported := h.unreported
  nonempty := h.nonempty
  distinct := by
    rw [defined_of_append]
    refine List.nodup_append.2 ⟨h.distinct, by cases x.defined? <;> simp, ?_⟩
    rintro v before w here rfl
    exact (new v (Option.mem_toList.1 here)).1 before
  kinds := by
    rw [defined_of_append]
    exact List.forall_mem_append.2 ⟨h.kinds, fun v here => (new v (Option.mem_toList.1 here)).2⟩
  reads := by
    rw [bindings_append, readsAfter_append]
    exact ⟨h.reads, value.reads, trivial⟩
  annotations := h.annotations
  shapes := by
    rw [bindings_append]
    exact List.forall_mem_append.2 ⟨h.shapes, List.forall_mem_singleton.2 value.dims⟩
  patterns := by
    rw [bindings_append]
    exact List.forall_mem_append.2 ⟨h.patterns, List.forall_mem_singleton.2 pattern⟩

theorem fresh (h : b.Orderly) {info : VarInfo} (dims : b.Names (info.shape.getD []).vars) :
    (b.fresh info).1.Orderly where
  toPlain := h.toPlain.fresh info
  unreported := h.unreported
  nonempty := h.nonempty
  distinct := h.distinct
  kinds v mem := (h.kinds v mem).grow info
  reads := h.reads
  annotations := List.forall_mem_append.2 ⟨h.annotations, List.forall_mem_singleton.2 dims⟩
  shapes := h.shapes
  patterns := h.patterns

theorem endBlock (h : b.Orderly) : (b.endBlock .plain).Orderly where
  toPlain := h.toPlain.endBlock
  unreported := (deferred_endBlock b .plain).trans h.unreported
  nonempty := forall_endBlock h.nonempty id
  distinct := by
    rw [defined, params_endBlock, bindings_endBlock]
    exact h.distinct
  kinds := by
    rw [defined, params_endBlock, bindings_endBlock]
    intro v mem
    rw [HasPlain, vars_endBlock]
    exact h.kinds v mem
  reads := by
    rw [params_endBlock, bindings_endBlock]
    exact h.reads
  annotations := by
    rw [vars_endBlock]
    simp only [Names, dimNames_endBlock]
    exact h.annotations
  shapes := by
    rw [bindings_endBlock]
    simp only [Names, dimNames_endBlock]
    exact h.shapes
  patterns := by
    rw [bindings_endBlock]
    simp only [Names, dimNames_endBlock]
    exact h.patterns

theorem sealBlock (h : b.Orderly) : b.sealBlock.Orderly := by
  rw [Builder.sealBlock, h.outside]
  exact h.endBlock

/-- A value that is emitted under a new name. Its inferred shape is put on record. -/
theorem emitNamed (h : b.Orderly) (name : String) (value : b.Admits e)
    (shape : b.Names ((e.inferShape? b.vars).getD []).vars) :
    (b.emitNamed name e).1.Orderly := by
  have kind : b.currentKind = .plain := by
    rw [currentKind, h.outside]
    rfl
  have recorded : b.Names (((e.annotate b.vars).inferShape? b.vars).getD []).vars := by
    rwa [Expr.inferShape?_annotate]
  rw [Builder.emitNamed, kind]
  let info : VarInfo := ⟨name, .plain, (e.annotate b.vars).inferShape? b.vars,
    (e.annotate b.vars).inferTy? b.vars⟩
  have fresh : (b.fresh info).1.Orderly := h.fresh recorded
  refine fresh.append ⟨?_, ?_⟩ (List.forall_mem_nil _) ?_
  · rw [Binding.value, Expr.reads_annotate]
    exact value.reads
  · cases e with
    | call head args =>
        intro d mem
        rcases List.mem_append.1 mem with here | inArgs
        · exact shape d here
        · exact value.dims d (List.mem_append_right _ inArgs)
    | var _ | shape _ | tuple _ | item _ _ | const _ | external _ | global _ => exact value.dims
  · rintro v ⟨⟩
    refine ⟨fun mem => ?_, _, List.getElem?_concat_length, rfl⟩
    exact absurd (h.allocated mem) (Nat.lt_irrefl _)

/-- A call whose arguments do not give away the shape of its result. -/
theorem emitCall (h : b.Orderly) (name : String) {callee : Callee} {attrs : Attrs}
    {args : List Expr} (admits : ∀ e ∈ args, b.Admits e)
    (unknown : ∀ shapes, callee.resultShape? args shapes = none) :
    (b.emitNamed name (.call ⟨callee, attrs, none, none⟩ args)).1.Orderly := by
  refine h.emitNamed name ⟨fun v read => ?_, fun d named => ?_⟩ ?_
  · rw [Expr.reads, Expr.readsAll_eq_flatMap, List.mem_flatMap] at read
    obtain ⟨e, mem, read⟩ := read
    exact (admits e mem).reads v read
  · rw [Expr.dimVars, Expr.dimVarsAll_eq_flatMap] at named
    obtain ⟨e, mem, named⟩ := List.mem_flatMap.1 named
    exact (admits e mem).dims d named
  · rw [Expr.inferShape?, unknown]
    exact List.forall_mem_nil _

/-! ### The function that is handed out -/

theorem wellFormed (h : b.Orderly) (body : b.Admits e) : (b.toFunction e).WellFormed := by
  have ended := h.endBlock
  have bindings : (b.toFunction e).bindings = b.bindings := bindings_toFunction b e
  have params : (b.toFunction e).params = b.params := params_endBlock b .plain
  have vars : (b.toFunction e).vars = b.vars := vars_endBlock b .plain
  have dimNames : (b.toFunction e).dimNames = b.dimNames := dimNames_endBlock b .plain
  have defined : (b.toFunction e).defined = b.defined := by
    rw [Function.defined, params, bindings]
    rfl
  have plain : ∀ v ∈ b.defined, (b.toFunction e).kind? v = some .plain := by
    intro v mem
    obtain ⟨info, found, kind⟩ := h.kinds v mem
    rw [Function.kind?, vars, found, Option.map_some, kind]
  have allocates : ∀ v ∈ b.defined, (b.toFunction e).Allocates v := fun v mem =>
    Function.isSome_kind?.1 (by rw [plain v mem]; rfl)
  have readsAfter : ReadsAfter (b.toFunction e).params (b.toFunction e).bindings := by
    rw [params, bindings]
    exact h.reads
  -- What stands before a binding, in its block or in earlier ones, is in scope.
  have before {done rest : List Binding} {x : Binding}
      (split : (b.toFunction e).bindings = done ++ x :: rest) :
      ∀ v ∈ x.value.reads, v ∈ b.params ++ done.filterMap Binding.defined? := by
    rw [split, readsAfter_append, params] at readsAfter
    exact readsAfter.2.1
  have inDefined {done rest : List Binding} (split : (b.toFunction e).bindings = done ++ rest) :
      ∀ v ∈ b.params ++ done.filterMap Binding.defined?, v ∈ b.defined := by
    rw [bindings] at split
    rw [Builder.defined, split, List.filterMap_append, ← List.append_assoc]
    exact fun v => List.mem_append_left _
  refine { nodup := ?_, definitions := ?_, reads := fun x mem v read => ?_, body := ?_
           nonempty := ended.nonempty, params := ?_, plainBlocks := ?_
           inScope := fun front block back done x rest blocks split v read => ?_, result := ?_
           annotations := ?_, shapes := ?_, patterns := ?_, resultShapes := ?_ }
  · rw [defined]
    exact h.distinct
  · rw [defined]
    exact allocates
  · obtain ⟨done, rest, split⟩ := List.append_of_mem mem
    exact allocates v (inDefined split v (before split v read))
  · exact fun v read => allocates v (body.reads v read)
  · rw [params]
    exact fun v mem => plain v (List.mem_append_left _ mem)
  · intro block inFunction _ v mem
    obtain ⟨x, inBlock, defines⟩ := List.mem_filterMap.1 mem
    refine plain v ?_
    rw [← defined]
    exact Function.mem_defined (Function.mem_bindings inFunction inBlock) defines
  · have here := before (Function.bindings_of_split blocks split) v read
    rcases List.mem_append.1 here with param | later
    · exact .inl (params ▸ param)
    · refine .inr (.inl ⟨later, plain v ?_⟩)
      exact inDefined (Function.bindings_of_split blocks split) v (List.mem_append_right _ later)
  · rw [params, bindings]
    intro v read
    have mem := body.reads v read
    exact (List.mem_append.1 mem).imp_right fun later => ⟨later, plain v mem⟩
  · rw [vars, dimNames]
    exact h.annotations
  · rw [bindings, dimNames]
    exact h.shapes
  · rw [bindings, dimNames]
    exact h.patterns
  · rw [dimNames]
    exact body.dims

theorem finish (h : b.Orderly) (body : b.Admits e) : ∃ f, b.finish e = .ok f := by
  have closed : b.closeRegion = (b, .ok ()) := by
    rw [closeRegion, h.outside]
    rfl
  refine ⟨_, finish_eq_ok_iff.2 ⟨?_, ?_, rfl, ?_⟩⟩
  · rw [closed]
  · rw [closed]
    exact h.unreported
  · rw [closed]
    exact Function.check_of_wellFormed (h.wellFormed body)

end Orderly

/-- A well-formed function is opened in an orderly builder. -/
theorem orderly_reopen {f : Function} (wellFormed : f.WellFormed) : (reopen f).Orderly := by
  have defined : (reopen f).defined = f.params := List.append_nil _
  refine { toPlain := plain_reopen f, unreported := rfl, nonempty := nofun, distinct := ?_
           kinds := ?_, reads := trivial, annotations := wellFormed.annotations, shapes := nofun
           patterns := nofun }
  · rw [defined]
    exact (List.nodup_append.1 wellFormed.nodup).1
  · rw [defined]
    intro v mem
    have kind := wellFormed.params v mem
    rw [Function.kind?, Option.map_eq_some_iff] at kind
    exact kind

end Builder

end TensorIR
