import TensorIR.Proofs.Extension
import TensorIR.Proofs.Finishing
import TensorIR.Proofs.ShapeHeap.Arrival
import TensorIR.Proofs.ShapeHeap.Filling

/-!
# Where lowering gets stuck

On its way through a function lowering asks for two things that it may not get. A load needs the
values of its dimension variables on the heap, and the builder has to take each value for the
variable that it is bound to. Everything else that is emitted goes through.

`Reached` is the state of a lowering that has got as far as some binding: what has been emitted is
in order, and the values on the heap are those that the parameters and patterns so far have bound.
Under it every operation either fails for one of the two reasons or leads to such a state again.
What the builder is asked to bind is a filled value, and it takes that just where it would take the
value itself for the variable in the function from before.
-/

namespace TensorIR

/-- The error for a dimension variable whose value is needed before it is there. -/
def Function.notReady (f : Function) (d : DimVar) : LoweringError :=
  .dimVarNotReady f.name (Dim.varName f.dimNames d)

theorem Function.dimName_eq_ok {f : Function} {d : DimVar} (named : d.index < f.dimNames.length) :
    HeapLayout.dimName f d = .ok (Dim.varName f.dimNames d) := by
  have found := List.getElem?_eq_getElem named
  rw [HeapLayout.dimName, looking_eq_ok, Function.dimName, Dim.varName, found, Option.getD_some]

theorem Function.mem_of_split {f : Function} {done rest : List Binding} {x : Binding}
    (split : f.bindings = done ++ x :: rest) : x ∈ f.bindings :=
  split ▸ List.mem_append_right _ List.mem_cons_self

/-- The functions of which lowering can be followed: all bindings are settled, only plain variables
are bound, and a call is the whole value of a binding or is not there. -/
structure Function.Lowerable (f : Function) : Prop where
  settled : ∀ x ∈ f.bindings, x.Settled f.vars true
  checked : f.check = .ok ()
  plain : ∀ x ∈ f.bindings, ∀ v ∈ x.defined?, f.kind? v = some .plain
  inner : ∀ x ∈ f.bindings, x.value.innerCalls = []
  result : f.body.calls = []

namespace ShapeHeap

/-- The lowering has emitted all of the bindings `done`, and on the heap are the values of the
variables `bound`. -/
structure Reached (cx : Context) (bound : List DimVar) (done : List Binding) (st : State) :
    Prop where
  orderly : st.builder.Orderly
  grown : st.builder.Extends cx.function
  heap : cx.heap ∈ st.builder.defined
  defined : ∀ v ∈ cx.function.params ++ done.filterMap Binding.defined?, v ∈ st.builder.defined
  own : ∀ v ∈ st.builder.defined, cx.function.Allocates v →
    v ∈ cx.function.params ++ done.filterMap Binding.defined?
  stored : ∀ d, d ∈ st.stored ↔ d ∈ bound

namespace Reached

variable {cx : Context} {st st' : State} {bound : List DimVar} {done : List Binding} {s : Shape}
  {v : Var} {e : Expr}

theorem admits (h : Reached cx bound done st)
    (reads : ∀ v ∈ e.reads, v ∈ cx.function.params ++ done.filterMap Binding.defined?)
    (dims : ∀ d ∈ e.dimVars, d.index < cx.function.dimNames.length) : st.builder.Admits e where
  reads v read := h.defined v (reads v read)
  dims := by
    rw [Builder.Names, h.grown.dimNames]
    exact dims

theorem admits_var (mem : v ∈ st.builder.defined) : st.builder.Admits (.var v) where
  reads u read := by
    cases List.mem_singleton.1 read
    exact mem
  dims := nofun

/-- What is recorded of the variables of the function is still so. -/
theorem recorded (h : Reached cx bound done st) (allocated : cx.function.Allocates v) :
    st.builder.vars[v.index]? = cx.function.vars[v.index]? := by
  obtain ⟨more, vars⟩ := h.grown.vars
  rw [← vars]
  exact getElem?_grown allocated

/-! ### Emissions that cannot fail -/

theorem emit (h : Reached cx bound done st) (name : String) {callee : Callee} {attrs : Attrs}
    {args : List Expr} (admits : ∀ e ∈ args, st.builder.Admits e)
    (unknown : ∀ shapes, callee.resultShape? args shapes = none) :
    Reached cx bound done (st.emit name (.call ⟨callee, attrs, none, none⟩ args)).1 where
  orderly := h.orderly.emitCall name admits unknown
  grown := (Builder.kept_extends cx.function).emitNamed _ _ h.grown
  heap := (Builder.grows_emitNamed _ _ _).defined _ h.heap
  defined v mem := (Builder.grows_emitNamed _ _ _).defined v (h.defined v mem)
  own v mem allocated := by
    rcases List.mem_append.1 (Builder.defined_emitNamed _ _ _ ▸ mem) with old | new
    · exact h.own v old allocated
    · cases List.mem_singleton.1 new
      exact absurd allocated (Nat.not_lt.2 h.grown.vars.length_le)
  stored := h.stored

theorem sealBlock (h : Reached cx bound done st) :
    Reached cx bound done { st with builder := st.builder.sealBlock } where
  orderly := h.orderly.sealBlock
  grown := h.grown.sealBlock
  heap := by
    rw [Builder.defined_sealBlock]
    exact h.heap
  defined := by
    rw [Builder.defined_sealBlock]
    exact h.defined
  own := by
    rw [Builder.defined_sealBlock]
    exact h.own
  stored := h.stored

theorem emit_var_defined (st : State) (name : String) (call : Expr) :
    (st.emit name call).2 ∈ (st.emit name call).1.builder.defined :=
  Builder.defined_emitNamed st.builder name call ▸ List.mem_append_right _ List.mem_cons_self

theorem queryShape (h : Reached cx bound done st) (tensor : st.builder.Admits e) :
    Reached cx bound done (st.queryShape e).1 := by
  refine h.emit "sh" (List.forall_mem_singleton.2 tensor) fun shapes => ?_
  rw [Callee.resultShape?, if_neg (by decide)]

/-- After a store the values of the new variables are on the heap. -/
theorem store (h : Reached cx bound done st) (shape : st.builder.Admits e) (pattern : Shape) :
    Reached cx (bound ++ HeapLayout.bound pattern) done
      (st.store cx e (newVars st.stored 0 pattern)) := by
  have emitted (entries : List ShapeSlot) : Reached cx bound done
      (st.emit "_" (.ofOp .vmStoreShape [e, .var cx.heap] (.storeShape entries))).1 :=
    h.emit "_" (List.forall_mem_cons.2 ⟨shape, List.forall_mem_singleton.2 (admits_var h.heap)⟩)
      fun _ => rfl
  refine ⟨(emitted _).orderly, (emitted _).grown, (emitted _).heap, (emitted _).defined,
    (emitted _).own, fun d => ?_⟩
  rw [List.mem_append]
  show d ∈ _ ++ st.stored ↔ _
  rw [List.mem_append, mem_newVars_snd, h.stored]
  tauto

/-- What is current makes no difference. -/
theorem congr (h : Reached cx bound done st) (builder : st'.builder = st.builder)
    (stored : st'.stored = st.stored) : Reached cx bound done st' := by
  obtain ⟨orderly, grown, heap, defined, own, same⟩ := h
  constructor
  all_goals first | rwa [builder] | rwa [stored]

theorem refresh (h : Reached cx bound done st) : Reached cx bound done (st.refresh cx) := by
  rw [State.refresh]
  split
  · exact h
  · next name _ =>
      have emitted : Reached cx bound done (State.emit { st with builder := st.builder.sealBlock }
          "_" (.ofCallee (.global name) [.var cx.heap])).1 :=
        h.sealBlock.emit "_" (List.forall_mem_singleton.2 (admits_var h.sealBlock.heap))
          fun _ => rfl
      exact emitted.congr rfl rfl

theorem grows_refresh (cx : Context) (st : State) :
    st.builder.Grows (st.refresh cx).builder := by
  rw [State.refresh]
  split
  · exact .refl _
  · exact (Builder.grows_sealBlock _).trans (Builder.grows_emitNamed _ _ _)

/-! ### Loads -/

theorem unstored_eq (h : Reached cx bound done st) :
    (fun d => !st.stored.contains d) = fun d => decide (d ∉ bound) := by
  funext d
  rw [decide_not, List.contains_eq_mem]
  exact congrArg _ (decide_eq_decide.2 (h.stored d))

theorem load_of_unready (h : Reached cx bound done st) {d : DimVar}
    (first : s.vars.find? (fun d => d ∉ bound) = some d)
    (named : d.index < cx.function.dimNames.length) :
    st.load cx s = .error (cx.function.notReady d) := by
  rw [← h.unstored_eq] at first
  rw [State.load, first]
  simp only [Function.dimName_eq_ok named, ok_bind]
  rfl

theorem load_of_ready (h : Reached cx bound done st) (ready : ∀ d ∈ s.vars, d ∈ bound) :
    ∃ st' v, st.load cx s = .ok (st', v) ∧ Reached cx bound done st' ∧
      st.builder.Grows st'.builder ∧ v ∈ st'.builder.defined ∧ v.Loads st'.builder.vars s := by
  have all : s.vars.find? (fun d => !st.stored.contains d) = none := by
    rw [h.unstored_eq, List.find?_eq_none]
    simpa using ready
  have refreshed : Reached cx bound done (if st.isStale s then st.refresh cx else st) := by
    split
    · exact h.refresh
    · exact h
  have grows : st.builder.Grows (if st.isStale s then st.refresh cx else st).builder := by
    split
    · exact grows_refresh cx st
    · exact .refl _
  rw [State.load, all]
  refine ⟨_, _, rfl, refreshed.emit "shape" (List.forall_mem_singleton.2
    (admits_var refreshed.heap)) (fun _ => rfl), grows.trans (Builder.grows_emitNamed _ _ _),
    emit_var_defined _ _ _, ?_⟩
  refine ⟨_, List.getElem?_concat_length, ?_, ?_⟩
  · rw [Expr.inferShape?_annotate]
    rfl
  · rw [Expr.inferTy?_annotate]
    show some (Ty.shape (some (s.map cx.layout.slot).length)) = _
    rw [List.length_map]

end Reached

/-- The symbolic shapes `ss` have been loaded into the variables `vs`. -/
structure Loaded (cx : Context) (bound : List DimVar) (done : List Binding) (st : State)
    (ss : List Shape) (st' : State) (vs : List Var) : Prop where
  reached : Reached cx bound done st'
  grows : st.builder.Grows st'.builder
  defined : ∀ v ∈ vs, v ∈ st'.builder.defined
  loads : LoadsAll st'.builder.vars vs ss

namespace Reached

variable {cx : Context} {st : State} {bound : List DimVar} {done : List Binding} {ss : List Shape}
  {d : DimVar} {e : Expr}

theorem loadAll_of_ready (h : Reached cx bound done st)
    (ready : ∀ d ∈ ss.flatMap Shape.vars, d ∈ bound) :
    ∃ st' vs, State.loadAll cx ss st = .ok (st', vs) ∧ Loaded cx bound done st ss st' vs := by
  induction ss generalizing st with
  | nil => exact ⟨st, [], rfl, h, .refl _, nofun, .nil⟩
  | cons s ss ih =>
      obtain ⟨here, later⟩ := List.forall_mem_append.1 ready
      obtain ⟨mid, v, head, reached, grows, defined, loads⟩ := h.load_of_ready here
      obtain ⟨last, vs, tail, loaded⟩ := ih reached later
      refine ⟨last, v :: vs, ?_, loaded.reached, grows.trans loaded.grows, ?_, ?_⟩
      · rw [State.loadAll]
        exact bind_eq_ok.2 ⟨_, head, bind_eq_ok.2 ⟨_, tail, rfl⟩⟩
      · exact List.forall_mem_cons.2 ⟨loaded.grows.defined v defined, loaded.defined⟩
      · exact .cons (loads.mono loaded.grows.vars) loaded.loads

theorem loadAll_of_unready (h : Reached cx bound done st)
    (first : (ss.flatMap Shape.vars).find? (fun d => d ∉ bound) = some d)
    (named : d.index < cx.function.dimNames.length) :
    State.loadAll cx ss st = .error (cx.function.notReady d) := by
  induction ss generalizing st with
  | nil => cases first
  | cons s ss ih =>
      rw [State.loadAll]
      rw [List.flatMap_cons, List.find?_append] at first
      cases here : s.vars.find? (fun d => d ∉ bound) with
      | some d' =>
          rw [here] at first
          cases first
          rw [h.load_of_unready here named]
          rfl
      | none =>
          rw [here, Option.none_or] at first
          obtain ⟨mid, v, head, reached, -⟩ :=
            h.load_of_ready (s := s) (by simpa using List.find?_eq_none.1 here)
          rw [head, ok_bind]
          show (State.loadAll cx ss mid >>= _) = _
          rw [ih reached first]
          rfl

theorem lowerExpr_of_ready (h : Reached cx bound done st)
    (ready : ∀ d ∈ e.symbolicShapes.flatMap Shape.vars, d ∈ bound) :
    ∃ st' vs, State.lowerExpr cx e st = .ok (st', e.fill vs) ∧
      Loaded cx bound done st e.symbolicShapes st' vs := by
  obtain ⟨st', vs, loaded, reached⟩ := h.loadAll_of_ready ready
  refine ⟨st', vs, ?_, reached⟩
  rw [State.lowerExpr_eq, loaded]
  rfl

theorem lowerExpr_of_unready (h : Reached cx bound done st)
    (first : (e.symbolicShapes.flatMap Shape.vars).find? (fun d => d ∉ bound) = some d)
    (named : d.index < cx.function.dimNames.length) :
    State.lowerExpr cx e st = .error (cx.function.notReady d) := by
  rw [State.lowerExpr_eq, h.loadAll_of_unready first named]
  rfl

end Reached

/-- A filled value can be emitted where the value could have been. -/
theorem Loaded.admits {cx : Context} {st st' : State} {bound : List DimVar} {done : List Binding}
    {e : Expr} {vs : List Var} (h : Loaded cx bound done st e.symbolicShapes st' vs)
    (value : st.builder.Admits e) : st'.builder.Admits (e.fill vs) where
  reads v read := by
    rcases Expr.mem_reads_fill e read with old | new
    · exact (h.grows.admits value).reads v old
    · exact h.defined v new
  dims d named := (h.grows.admits value).dims d (Expr.mem_dimVars_fill e named)

/-! ### Stores -/

namespace Reached

variable {cx : Context} {st st' : State} {bound : List DimVar} {done rest : List Binding}
  {x : Binding} {v : Var} {vs : List Var} {e : Expr}

theorem store_nothing (h : Reached cx bound done st) {pattern : Shape}
    (nothing : newVars st.stored 0 pattern = []) :
    Reached cx (bound ++ HeapLayout.bound pattern) done st := by
  refine ⟨h.orderly, h.grown, h.heap, h.defined, h.own, fun d => ?_⟩
  have old := newVars_eq_nil_iff.1 nothing d
  rw [List.mem_append, ← h.stored]
  exact ⟨.inl, fun mem => mem.elim id old⟩

theorem storePattern (h : Reached cx bound done st) (value : st.builder.Admits e)
    (pattern : Shape) : Reached cx (bound ++ HeapLayout.bound pattern) done
        (st.storePattern cx e pattern) ∧
      st.builder.Grows (st.storePattern cx e pattern).builder := by
  rw [State.storePattern]
  split
  · next nothing => exact ⟨h.store_nothing nothing, .refl _⟩
  · split
    · exact ⟨h.store value pattern, Builder.grows_emitNamed _ _ _⟩
    · have queried := h.queryShape value
      have named : (st.queryShape e).1.builder.Admits (.var (st.queryShape e).2) :=
        admits_var (emit_var_defined st _ _)
      exact ⟨queried.store named pattern,
        (Builder.grows_emitNamed _ _ _).trans (Builder.grows_emitNamed _ _ _)⟩

theorem storeParam (h : Reached cx bound [] st) (wellFormed : cx.function.WellFormed)
    (param : v ∈ cx.function.params) : ∃ st', st.storeParam cx v = .ok st' ∧
      Reached cx (bound ++ (cx.function.paramArrival? v).toList.flatMap Arrival.vars) [] st' := by
  have allocated := wellFormed.definitions v (List.mem_append_left _ param)
  have found := List.getElem?_eq_getElem allocated
  generalize cx.function.vars[v.index] = info at found
  have looked : looking (cx.function.info v) = .ok info := by
    rw [looking_eq_ok, Function.info, found]
  have arrives : (cx.function.paramArrival? v).toList.flatMap Arrival.vars =
      HeapLayout.bound (info.shape.getD []) := by
    rw [Function.paramArrival?, found, Option.bind_some]
    cases info.shape with
    | none => rfl
    | some s => exact List.append_nil _
  have value : st.builder.Admits (.var v) :=
    admits_var (h.defined v (List.mem_append_left _ param))
  rw [State.storeParam, looked, ok_bind, arrives]
  split
  · next nothing => exact ⟨st, rfl, h.store_nothing nothing⟩
  · have named : (st.queryShape (.var v)).1.builder.Admits (.var (st.queryShape (.var v)).2) :=
      admits_var (emit_var_defined st _ _)
    exact ⟨_, rfl, (h.queryShape value).store named _⟩

/-! ### Bindings -/

theorem next_undefined (h : Reached cx bound done st) (undefined : x.defined? = none) :
    Reached cx bound (done ++ [x]) st := by
  obtain ⟨orderly, grown, heap, defined, own, stored⟩ := h
  constructor
  all_goals first
    | assumption
    | rwa [defined_append, undefined, Option.toList_none, List.append_nil]

/-- One more binding of the function has been emitted, with a value that can stand here. -/
theorem next_defined (h : Reached cx bound done st) (defines : x.defined? = some v)
    (value : st.builder.Admits e) (new : v ∉ st.builder.defined) (plain : st.builder.HasPlain v) :
    Reached cx bound (done ++ [x]) { st with builder := st.builder.append (.define v e) } := by
  have appended : (st.builder.append (.define v e)).defined = st.builder.defined ++ [v] :=
    Builder.defined_of_append _ _
  have after : cx.function.params ++ (done ++ [x]).filterMap Binding.defined? =
      cx.function.params ++ done.filterMap Binding.defined? ++ [v] := by
    rw [defined_append, defines, List.append_assoc]
    rfl
  refine ⟨h.orderly.append value nofun ?_, h.grown.append _, ?_, ?_, ?_, h.stored⟩
  · rintro u ⟨⟩
    exact ⟨new, plain⟩
  · rw [appended]
    exact List.mem_append_left _ h.heap
  · rw [appended, after]
    exact List.forall_mem_append.2 ⟨fun u mem => List.mem_append_left _ (h.defined u mem),
      fun u mem => List.mem_append_right _ mem⟩
  · rw [appended, after]
    exact List.forall_mem_append.2 ⟨fun u mem allocated =>
      List.mem_append_left _ (h.own u mem allocated), fun u mem _ => List.mem_append_right _ mem⟩

section Binding

variable (h : Reached cx bound done st) (lowerable : cx.function.Lowerable)
  (split : cx.function.bindings = done ++ x :: rest)
include h lowerable split

theorem admits_value : st.builder.Admits x.value := by
  have mem := Function.mem_of_split split
  have wellFormed := Function.wellFormed_of_check lowerable.checked
  exact h.admits ((Function.dominated_of_check lowerable.checked).reads split)
    (wellFormed.shapes x mem)

/-- A filled value is one to the builder with the value itself, and nothing is to annotate. -/
theorem stands (loads : LoadsAll st.builder.vars vs x.value.symbolicShapes) :
    Expr.Stands cx.function.vars st.builder.vars x.value (x.value.fill vs) ∧
      (x.value.fill vs).annotate st.builder.vars = x.value.fill vs := by
  have mem := Function.mem_of_split split
  have settled := lowerable.settled x mem
  have annotated : x.value.annotate cx.function.vars = x.value := by
    have same := congrArg Binding.value settled.annotated
    rwa [Binding.value_annotated] at same
  exact Expr.annotate_fill (lowerable.inner x mem) annotated
    (fun v read => h.recorded (settled.reads v read)) loads

theorem hasPlain (defines : x.defined? = some v) : st.builder.HasPlain v := by
  have mem := Function.mem_of_split split
  obtain ⟨info, found, plain⟩ := Option.map_eq_some_iff.1 (lowerable.plain x mem v defines)
  have allocated : cx.function.Allocates v := (List.getElem?_eq_some_iff.1 found).1
  exact ⟨info, (h.recorded allocated).trans found, plain⟩

theorem checkDefined : st.checkDefined cx x.defined? = .ok () := by
  cases defined : x.defined? with
  | none => rfl
  | some v =>
      obtain ⟨info, found, plain⟩ := h.hasPlain lowerable split defined
      have looked : st.builder.info v = .ok info := Builder.info_eq_ok.2 found
      simp only [State.checkDefined, looking_eq_ok.2 looked, ok_bind, VarInfo.isDataflow, plain]
      rfl

/-- The builder takes the filled value just where it would take the value in the function from
before. -/
theorem bind_eq (defines : x.defined? = some v)
    (loads : LoadsAll st.builder.vars vs x.value.symbolicShapes) :
    st.builder.bind v (x.value.fill vs) = ((Builder.reopen cx.function).bind v x.value).map
      fun _ => st.builder.append (.define v (x.value.fill vs)) := by
  have mem := Function.mem_of_split split
  obtain ⟨info, found, -⟩ := Option.map_eq_some_iff.1 (lowerable.plain x mem v defines)
  have allocated : cx.function.Allocates v := (List.getElem?_eq_some_iff.1 found).1
  have known : st.builder.bindable v = (Builder.reopen cx.function).bindable v := by
    rw [Builder.bindable, Builder.bindable, h.recorded allocated, h.orderly.outside]
    rfl
  obtain ⟨stands, annotated⟩ := h.stands lowerable split loads
  rw [Builder.bind_eq_map known h.grown.dimNames stands, annotated]

theorem bind_of_taken (defines : x.defined? = some v)
    (admits : st.builder.Admits (x.value.fill vs))
    (loads : LoadsAll st.builder.vars vs x.value.symbolicShapes) {b : Builder}
    (taken : (Builder.reopen cx.function).bind v x.value = .ok b) :
    ∃ st', st.bind cx v (x.value.fill vs) = .ok st' ∧ Reached cx bound (done ++ [x]) st' := by
  have plain := h.hasPlain lowerable split defines
  have new : v ∉ st.builder.defined := by
    intro before
    obtain ⟨info, found, -⟩ := plain
    have mem := Function.mem_of_split split
    have wellFormed := Function.wellFormed_of_check lowerable.checked
    have fresh := not_defined_before wellFormed.toScoped split (Option.mem_def.2 defines)
    have old := h.own v before (wellFormed.definitions v (Function.mem_defined mem defines))
    exact (List.mem_append.1 old).elim fresh.1 fresh.2
  refine ⟨_, ?_, h.next_defined defines admits new plain⟩
  rw [State.bind, h.bind_eq lowerable split defines loads, taken]
  rfl

theorem bind_of_refused (defines : x.defined? = some v)
    (loads : LoadsAll st.builder.vars vs x.value.symbolicShapes) {e : BuildError}
    (refused : (Builder.reopen cx.function).bind v x.value = .error e) :
    st.bind cx v (x.value.fill vs) = .error (.build cx.function.name e) := by
  rw [State.bind, h.bind_eq lowerable split defines loads, refused]
  rfl

end Binding

end Reached

end ShapeHeap

end TensorIR
