import TensorIR.Proofs.Destinations
import TensorIR.Proofs.Dimensions
import TensorIR.Proofs.Expanding
import TensorIR.Proofs.History

/-!
# Allocating outputs is an expansion

Every call in destination-passing style becomes an allocation and a call of its kernel, where it
stands, and nothing else of the function changes (`Function.outputExpansion`). The pass gives up on
the arguments of such a call only: what it emits for the others the builder takes.

The one thing that the builder could object to is the allocation. It is bound to the variable of the
old call and has to agree with what is recorded of that. The shape is the argument of both. The
element type is the recorded one, if there is one, and otherwise that of the old call by inference.
With annotations that nobody inferred the two calls need not agree, so a function must not have any
(`Function.Infers`).
-/

namespace TensorIR

/-- Nothing is annotated of the calls of the operator that would not be inferred of them. -/
def Function.Infers (f : Function) (op : Op) : Prop :=
  ∀ x ∈ f.bindings, x.Invokes op → x.value = x.value.bare.annotate f.vars

instance (f : Function) (op : Op) : Decidable (f.Infers op) :=
  inferInstanceAs
    (Decidable (∀ x ∈ f.bindings, x.Invokes op → x.value = x.value.bare.annotate f.vars))

/-! ### Calls and their expansions -/

namespace DpsCall

/-- The allocation of the output of a call. -/
def allocation (call : DpsCall) (elem : ElemType) : Expr :=
  .ofOp .allocTensor [.shape call.shape] (.allocTensor elem)

/-- The call of the kernel, which is given the output after the inputs. -/
def kernelCall (call : DpsCall) (output : Var) : Expr :=
  .ofCallee (.external call.kernel) (call.inputs ++ [.var output])

end DpsCall

namespace Binding

/-- If the binding is a call in destination-passing style, its arguments are a shape, a kernel and a
tuple of inputs. -/
def WellCalled (x : Binding) : Prop :=
  ∀ v args, x.dpsCall? = some (v, args) →
    ∃ shape kernel inputs, args = [.shape shape, .external kernel, .tuple inputs]

/-- What is wrong with the arguments of a call in destination-passing style. -/
def dpsFault? (x : Binding) : Option CallFault :=
  x.dpsCall?.bind fun p => errorOf? (DpsCall.ofArgs p.2)

/-- The variable and the call, if the binding is one in destination-passing style on such
arguments. -/
def output? (x : Binding) : Option (Var × DpsCall) :=
  x.dpsCall?.bind fun p => (DpsCall.ofArgs p.2).toOption.map fun call => (p.1, call)

variable {x : Binding} {v : Var} {call : DpsCall}

theorem output?_eq_some : x.output? = some (v, call) ↔
    ∃ args, x.dpsCall? = some (v, args) ∧ DpsCall.ofArgs args = .ok call := by
  rw [output?, Option.bind_eq_some_iff]
  constructor
  · rintro ⟨⟨w, args⟩, here, parts⟩
    obtain ⟨call', read, same⟩ := Option.map_eq_some_iff.1 parts
    cases same
    exact ⟨args, here, toOption_eq_some.1 read⟩
  · rintro ⟨args, here, read⟩
    exact ⟨(v, args), here, Option.map_eq_some_iff.2 ⟨call, toOption_eq_some.2 read, rfl⟩⟩

/-- What such a binding is. -/
theorem define_of_output? (output : x.output? = some (v, call)) :
    ∃ head, head.callee = .op .callDps ∧ x = .define v
      (.call head [.shape call.shape, .external call.kernel, .tuple call.inputs]) := by
  obtain ⟨args, here, read⟩ := output?_eq_some.1 output
  obtain ⟨head, rfl, callee⟩ := dpsCall?_eq_some.1 here
  exact ⟨head, callee, by rw [DpsCall.ofArgs_eq_ok read]⟩

theorem dpsFault?_eq_none : x.dpsFault? = none ↔ x.WellCalled := by
  rw [dpsFault?, Option.bind_eq_none_iff, WellCalled, Prod.forall]
  refine forall_congr' fun v => forall_congr' fun args => imp_congr_right fun _ => ?_
  rw [errorOf?_eq_none]
  constructor
  · rintro ⟨call, read⟩
    exact ⟨_, _, _, DpsCall.ofArgs_eq_ok read⟩
  · rintro ⟨shape, kernel, inputs, rfl⟩
    exact ⟨_, rfl⟩

instance (x : Binding) : Decidable x.WellCalled := decidable_of_iff _ dpsFault?_eq_none

end Binding

namespace Function

/-- The element type of the output that a call fills: that of the tensor type recorded of its
variable, else that of the first input that is known to be a tensor, else single-precision
floats. -/
def outputElem (f : Function) (v : Var) (call : DpsCall) : ElemType :=
  let recorded := (f.vars[v.index]?.bind VarInfo.ty).bind Ty.elem?
  let ofInput := call.inputs.findSome? fun input => (input.inferTy? f.vars).bind Ty.elem?
  (recorded <|> ofInput).getD .float32

/-- Beside each output the result of the call that fills it is new. -/
def outputExpansion (f : Function) : Expansion where
  beside? x := x.output?.map Prod.fst
  record x :=
    match x.output? with
    | some (v, call) => ⟨"_", .plain, (call.kernelCall v).inferShape? f.vars,
        (call.kernelCall v).inferTy? f.vars⟩
    | none => ⟨"_", .plain, none, none⟩
  expand r x :=
    match x.output? with
    | some (v, call) =>
      [.define v ((call.allocation (f.outputElem v call)).annotate f.vars),
        .define (r v) ((call.kernelCall v).annotate f.vars)]
    | none => [x]

variable {f : Function} {x : Binding} {v : Var} {call : DpsCall} {r : Var → Var}

theorem beside?_outputExpansion : f.outputExpansion.beside? x = some v ↔
    ∃ call, x.output? = some (v, call) := by
  rw [outputExpansion, Option.map_eq_some_iff]
  constructor
  · rintro ⟨⟨w, call⟩, output, rfl⟩
    exact ⟨call, output⟩
  · rintro ⟨call, output⟩
    exact ⟨(v, call), output, rfl⟩

/-- The inputs are all that the two calls read, apart from the output. -/
theorem reads_of_output? (output : x.output? = some (v, call)) :
    x.value.reads = Expr.readsAll call.inputs := by
  obtain ⟨head, -, rfl⟩ := Binding.define_of_output? output
  simp [Binding.value, Expr.reads, Expr.readsAll]

theorem reads_kernelCall : (call.kernelCall v).reads = Expr.readsAll call.inputs ++ [v] := by
  rw [DpsCall.kernelCall, Expr.ofCallee, Expr.reads, Expr.readsAll_eq_flatMap,
    Expr.readsAll_eq_flatMap, List.flatMap_append]
  rfl

/-- The dimensions of the two calls are among those of the old one. -/
theorem named_of_output? {P : DimVar → Prop} (output : x.output? = some (v, call))
    (named : ∀ d ∈ x.value.dimVars, P d) :
    (∀ elem, ∀ d ∈ (call.allocation elem).dimVars, P d) ∧
      ∀ d ∈ (call.kernelCall v).dimVars, P d := by
  obtain ⟨head, -, rfl⟩ := Binding.define_of_output? output
  simp only [Binding.value, Expr.dimVars, Expr.dimVarsAll, List.forall_mem_append] at named
  obtain ⟨-, shape, -, inputs, -⟩ := named
  refine ⟨fun elem => ?_, ?_⟩
  · simpa [DpsCall.allocation, Expr.ofOp, Expr.dimVars, Expr.dimVarsAll, Shape.vars] using shape
  · rw [Expr.dimVarsAll_eq_flatMap] at inputs
    simpa [DpsCall.kernelCall, Expr.ofCallee, Expr.dimVars, Expr.dimVarsAll_eq_flatMap, Shape.vars]
      using inputs

theorem expand_output (output : x.output? = some (v, call)) : f.outputExpansion.expand r x =
    [.define v ((call.allocation (f.outputElem v call)).annotate f.vars),
      .define (r v) ((call.kernelCall v).annotate f.vars)] := by
  simp only [outputExpansion, output]

theorem beside?_other (other : x.output? = none) : f.outputExpansion.beside? x = none := by
  show x.output?.map Prod.fst = none
  rw [other, Option.map_none]

theorem expand_other (other : x.output? = none) : f.outputExpansion.expand r x = [x] := by
  simp only [outputExpansion, other]

theorem lawful_outputExpansion (wellFormed : f.WellFormed) : f.outputExpansion.Lawful f := by
  intro x
  cases output : x.output? with
  | none => exact .kept wellFormed (beside?_other output) fun _ => expand_other output
  | some p =>
      obtain ⟨v, call⟩ := p
      have beside : f.outputExpansion.beside? x = some v := beside?_outputExpansion.2 ⟨call, output⟩
      obtain ⟨head, -, is⟩ := Binding.define_of_output? output
      have named := fun mem => named_of_output? output (wellFormed.shapes x mem)
      constructor
      case beside =>
        intro w same
        cases beside.symm.trans same
        exact congrArg Binding.defined? is
      case defines =>
        intro r
        rw [expand_output output, beside, is]
        rfl
      case nonempty =>
        intro r
        rw [expand_output output]
        exact List.cons_ne_nil _ _
      case patterns =>
        refine .inr ⟨congrArg Binding.pattern? is, fun r => ?_⟩
        rw [expand_output output, List.forall_mem_cons, List.forall_mem_singleton]
        exact ⟨rfl, rfl⟩
      case reads =>
        intro r
        rw [expand_output output, reads_of_output? output]
        refine ⟨?_, ?_, trivial⟩
        · rw [Binding.value, Expr.reads_annotate]
          exact List.forall_mem_nil _
        · rw [Binding.value, Expr.reads_annotate, reads_kernelCall]
          exact fun _ => id
      case annotations =>
        intro mem _
        simp only [outputExpansion, output]
        exact Expr.named_inferShape? wellFormed.annotations (named mem).2
      case shapes =>
        intro mem r
        rw [expand_output output, List.forall_mem_cons, List.forall_mem_singleton]
        exact ⟨Expr.named_annotate wellFormed.annotations ((named mem).1 _),
          Expr.named_annotate wellFormed.annotations (named mem).2⟩

/-! ### Emitting them -/

/-- By inference the old call has the shape that it is given, and the element type of its inputs. -/
theorem inferred_of_output? {vars : List VarInfo} (output : x.output? = some (v, call))
    (inferred : x.value = x.value.bare.annotate vars) :
    x.value.inferShape? vars = some call.shape ∧
      x.value.inferTy? vars = some (.tensor (some call.shape.length)
        ((call.inputs.findSome? fun e => (e.inferTy? vars).bind Ty.elem?).getD .float32)) := by
  obtain ⟨⟨callee, attrs, shape, ty⟩, rfl, rfl⟩ := Binding.define_of_output? output
  rw [inferred, Expr.inferShape?_annotate, Expr.inferTy?_annotate]
  refine ⟨rfl, ?_⟩
  show some (Ty.tensor _ ((List.findSome? _ (Expr.inferTys vars call.inputs)).getD _)) = _
  rw [Expr.inferTys_eq_map, List.findSome?_map]
  rfl

/-- The allocation agrees with what is recorded of the output. -/
theorem fits_allocation {info : VarInfo} (output : x.output? = some (v, call))
    (inferred : x.value = x.value.bare.annotate f.vars) (recorded : f.vars[v.index]? = some info)
    (fits : info.Fits f.vars x.value) :
    info.Fits f.vars (call.allocation (f.outputElem v call)) := by
  obtain ⟨shape, ty⟩ := inferred_of_output? output inferred
  constructor
  · intro s known t ofAllocation
    cases ofAllocation
    exact fits.shape s known call.shape shape
  · intro t known u ofAllocation
    cases ofAllocation
    have agrees := fits.ty t known _ ty
    have elem : f.outputElem v call = (t.elem? <|>
        call.inputs.findSome? fun e => (e.inferTy? f.vars).bind Ty.elem?).getD .float32 := by
      simp only [outputElem, recorded, Option.bind_some, Option.mem_def.1 known]
    rw [elem]
    cases t with
    | tensor rank e =>
        simp only [Ty.compatible, Bool.and_eq_true] at agrees
        simp [Ty.compatible, Ty.elem?, agrees.2]
    | shape _ | object | tuple _ => cases agrees

variable {before after : List Block} {block : Block} {done rest : List Binding} {position : Nat}

theorem emit_output (wellFormed : f.WellFormed) (settled : f.Settled)
    (splitBlocks : f.blocks = before ++ block :: after) (split : block.bindings = done ++ x :: rest)
    (output : x.output? = some (v, call)) (inferred : x.value = x.value.bare.annotate f.vars)
    {args : List Expr} (read : DpsCall.ofArgs args = .ok call) :
    DpsCall.emit f position v args (f.outputExpansion.reached f before ⟨block.kind, done⟩) =
      .ok (f.outputExpansion.reached f before ⟨block.kind, done ++ [x]⟩) := by
  have inputs := ((settled block (by simp [splitBlocks])).bindings x (by simp [split])).reads
  rw [reads_of_output? output] at inputs
  obtain ⟨head, -, is⟩ := Binding.define_of_output? output
  obtain ⟨info, place, fits⟩ := Expansion.bindable_again settled splitBlocks split is
  let b := f.outputExpansion.reached f before ⟨block.kind, done⟩
  have looked : b.info v = .ok info := Builder.info_eq_ok.2 place.grow.1
  have elem : call.outputElem info b.vars = f.outputElem v call := by
    refine (DpsCall.outputElem_of_prefix (List.prefix_append _ _) inputs).trans ?_
    simp only [outputElem, place.1, DpsCall.outputElem, Option.bind_some]
  have bound : b.bind v (call.allocation (f.outputElem v call)) = .ok (b.append
      (.define v ((call.allocation (f.outputElem v call)).annotate f.vars))) :=
    Builder.bind_grown place (fits_allocation output inferred place.1 fits)
      (List.forall_mem_nil _) rfl
  have beside : f.outputExpansion.beside? x = some v := beside?_outputExpansion.2 ⟨call, output⟩
  have reads : ∀ u ∈ (call.kernelCall v).reads, f.Allocates u := by
    rw [reads_kernelCall, List.forall_mem_append, List.forall_mem_singleton]
    exact ⟨inputs, (List.getElem?_eq_some_iff.1 place.1).1⟩
  have record (kind : VarKind) : { f.outputExpansion.record x with kind } =
      ⟨"_", kind, (call.kernelCall v).inferShape? f.vars, (call.kernelCall v).inferTy? f.vars⟩ := by
    simp only [outputExpansion, output]
  have emitted := Expansion.emitNamed_reached (lawful_outputExpansion wellFormed) wellFormed
    splitBlocks split beside reads record
  rw [Expansion.reached_beside beside, Expansion.expanded, expand_output output, ← elem]
  rw [← elem] at bound
  refine bind_eq_ok.2 ⟨call, mapError_eq_ok.2 read, bind_eq_ok.2 ⟨info, looking_eq_ok.2 looked, ?_⟩⟩
  refine bind_eq_ok.2 ⟨_, building_eq_ok.2 bound, pure_eq_ok.2 ?_⟩
  exact (congrArg Prod.fst (emitted _)).trans (by rw [List.append_assoc]; rfl)

/-- Every call in destination-passing style is expanded, or it is malformed. -/
theorem emits_outputs (wellFormed : f.WellFormed) (settled : f.Settled)
    (inferred : f.Infers .callDps) :
    f.outputExpansion.Emits f Binding.dpsFault? fun position binding b =>
      match binding with
      | .define v (.call ⟨.op .callDps, _, _, _⟩ args) => DpsCall.emit f position v args b
      | _ => building f.name (b.push binding) := by
  intro before block after done x rest position splitBlocks split
  have mem : x ∈ f.bindings := by simp [Function.bindings_of_split splitBlocks split]
  beta_reduce
  split
  · next v attrs shape ty args =>
      let head : CallHead := ⟨.op .callDps, attrs, shape, ty⟩
      have here : (Binding.define v (.call head args)).dpsCall? = some (v, args) :=
        Binding.dpsCall?_eq_some.2 ⟨head, rfl, rfl⟩
      rw [malformedCall?, Binding.dpsFault?, here, Option.bind_some]
      cases read : DpsCall.ofArgs args with
      | error fault =>
          show DpsCall.emit f position v args _ = _
          simp only [DpsCall.emit, read]
          rfl
      | ok call =>
          have output := Binding.output?_eq_some.2 ⟨args, here, read⟩
          have annotated := inferred _ mem ⟨v, head, args, rfl, rfl⟩
          exact ⟨_, emit_output wellFormed settled splitBlocks split output annotated read, rfl⟩
  · next other =>
      have noCall : x.dpsCall? = none := by
        refine Binding.dpsCall?_eq_none ?_
        rintro ⟨v, ⟨callee, attrs, shape, ty⟩, args, rfl, rfl⟩
        exact other v attrs shape ty args rfl
      have kept : x.output? = none := by rw [Binding.output?, noCall, Option.bind_none]
      rw [malformedCall?, Binding.dpsFault?, noCall, Option.bind_none]
      exact ⟨_, Expansion.push_kept settled splitBlocks split (beside?_other kept)
        (expand_other kept), rfl⟩

end Function

namespace Builder

variable {b : Builder}

/-- A function that came from a regular history has each call in destination-passing style split
where it stands into the allocation of its output and the call of its kernel. If one of them has
other arguments, the pass fails at the first such call. -/
theorem allocateOutputs_of_history {actions : List Action} {body : Expr} {f : Function}
    (initial : b.Initial) (regular : b.Regular actions)
    (finished : (b.performAll actions).finish body = .ok f) (inferred : f.Infers .callDps) :
    ((∀ x ∈ f.bindings, x.WellCalled) →
      ∃ g r, f.allocateOutputs = .ok g ∧ f.outputExpansion.Expands f r g) ∧
    ((¬ ∀ x ∈ f.bindings, x.WellCalled) →
      ∃ done x rest fault, f.bindings = done ++ x :: rest ∧ (∀ y ∈ done, y.WellCalled) ∧
        ¬ x.WellCalled ∧ x.dpsFault? = some fault ∧
        f.allocateOutputs = .error (.malformedCall f.name done.length fault)) := by
  obtain ⟨settled, checked⟩ := settled_of_history initial regular finished
  have wellFormed := Function.wellFormed_of_check checked
  have lawful := Function.lawful_outputExpansion wellFormed
  have emits := Function.emits_outputs wellFormed settled inferred
  simp only [← Binding.dpsFault?_eq_none]
  refine ⟨Expansion.replaceBindings_expands lawful settled wellFormed emits, fun malformed => ?_⟩
  obtain ⟨done, x, rest, fault, split, before, here, failed⟩ :=
    Expansion.replaceBindings_fails lawful settled wellFormed emits malformed
  exact ⟨done, x, rest, fault, split, before, by simp [here], here, failed⟩

/-- The history of a function with three outputs. One stays in a region, one leaves it, and of the
last nothing is recorded:

    fn main(x: (2)) {
      dataflow { lv0 = call_dps((2), blur, (x)); gv0 = call_dps((2), blur, (lv0)) }
      z = call_dps((3), noise, ()); z
    }
-/
def filling : List Action :=
  [.param "x" (some [.int 2]) (some (.tensor (some 1) .float16)), .openRegion,
    .emit (.ofOp .callDps [.shape [.int 2], .external "blur", .tuple [.var ⟨0⟩]]),
    .emitOutput (.ofOp .callDps [.shape [.int 2], .external "blur", .tuple [.var ⟨1⟩]]),
    .closeRegion, .fresh ⟨"z", .plain, none, none⟩,
    .bind ⟨3⟩ (.ofOp .callDps [.shape [.int 3], .external "noise", .tuple []])]

/-- The function that the history builds. -/
def filled : Function := (({ name := "main" } : Builder).performAll filling).toFunction (.var ⟨3⟩)

/-- The element type goes from the inputs to the outputs, and what is new in a region stays
there. -/
theorem allocateOutputs_of_history_filled : ∃ g r, filled.allocateOutputs = .ok g ∧
    filled.outputExpansion.Expands filled r g ∧
    g.bindings.filterMap Binding.allocation? =
      [(⟨1⟩, .float16), (⟨2⟩, .float16), (⟨3⟩, .float32)] ∧
    g.vars.map VarInfo.kind =
      [.plain, .dataflow, .plain, .plain, .dataflow, .dataflow, .plain] := by
  obtain ⟨g, r, allocated, expands⟩ := (allocateOutputs_of_history (.new "main")
    (show Regular _ filling by decide +kernel)
    (show (performAll _ filling).finish (.var ⟨3⟩) = .ok filled by decide +kernel)
    (show filled.Infers .callDps by decide +kernel)).1 (by decide +kernel)
  have run : filled.allocateOutputs.toOption.map (fun g =>
      (g.bindings.filterMap Binding.allocation?, g.vars.map VarInfo.kind)) =
    some ([(⟨1⟩, .float16), (⟨2⟩, .float16), (⟨3⟩, .float32)],
      [.plain, .dataflow, .plain, .plain, .dataflow, .dataflow, .plain]) := by decide +kernel
  rw [allocated] at run
  obtain ⟨allocations, kinds⟩ := Prod.ext_iff.1 (Option.some.inj run)
  exact ⟨g, r, allocated, expands, allocations, kinds⟩

end Builder

end TensorIR
