import TensorIR.Proofs.Fusion.Normal
import TensorIR.Proofs.Inference
import TensorIR.Proofs.Placement
import TensorIR.Proofs.RenamedInference

/-!
# What is allocated for outputs

Where outputs are allocated, each call in destination-passing style leaves an allocation under its
variable. `Function.newAllocations` are these allocations in program order, each as its variable
with the element type that is allocated, and `Function.outputs` is what they are, read off the
function from before: the element type of an output is chosen while variables are still being
allocated, but it depends only on what the function records of its own.
-/

namespace TensorIR

theorem getElem?_of_prefix {vars vars' : List VarInfo} (grown : vars <+: vars') {i : Nat}
    (allocated : i < vars.length) : vars'[i]? = vars[i]? := by
  obtain ⟨more, rfl⟩ := grown
  exact getElem?_grown allocated

namespace Binding

/-- The variable and the arguments, if the binding is a call in destination-passing style. -/
def dpsCall? : Binding → Option (Var × List Expr)
  | define v (.call head args) => if head.callee = .op .callDps then some (v, args) else none
  | _ => none

/-- The variable and the element type, if the binding is the allocation of a tensor. -/
def allocation? : Binding → Option (Var × ElemType)
  | define v (.call head _) =>
    if head.callee = .op .allocTensor then head.attrs.elem?.map fun elem => (v, elem) else none
  | _ => none

variable {x : Binding} {v : Var} {args : List Expr} {elem : ElemType}

theorem dpsCall?_eq_some : x.dpsCall? = some (v, args) ↔
    ∃ head, x = define v (.call head args) ∧ head.callee = .op .callDps := by
  constructor
  · intro h
    unfold dpsCall? at h
    split at h
    · split at h
      · next head _ callee =>
          cases h
          exact ⟨head, rfl, callee⟩
      · cases h
    · cases h
  · rintro ⟨head, rfl, callee⟩
    exact if_pos callee

theorem dpsCall?_eq_none (other : ¬ x.Invokes .callDps) : x.dpsCall? = none := by
  cases call : x.dpsCall? with
  | none => rfl
  | some p =>
      obtain ⟨head, is, callee⟩ := dpsCall?_eq_some.1 call
      exact absurd ⟨_, _, _, is, callee⟩ other

theorem defined?_of_allocation? (h : x.allocation? = some (v, elem)) : v ∈ x.defined? := by
  unfold allocation? at h
  split at h
  · split at h
    · obtain ⟨_, -, same⟩ := Option.map_eq_some_iff.1 h
      cases same
      rfl
    · cases h
  · cases h

end Binding

/-- The element type is chosen by what is recorded of the output and by those of the inputs. -/
theorem DpsCall.outputElem_congr {call call' : DpsCall} {info : VarInfo}
    {vars vars' : List VarInfo}
    (inputs : call'.inputs.map (fun e => (e.inferTy? vars').bind Ty.elem?) =
      call.inputs.map fun e => (e.inferTy? vars).bind Ty.elem?) :
    call'.outputElem info vars' = call.outputElem info vars := by
  have first := congrArg (List.findSome? id) inputs
  rw [List.findSome?_map, List.findSome?_map] at first
  simp only [outputElem]
  exact congrArg (fun ofInput => ((info.ty.bind Ty.elem?) <|> ofInput).getD .float32) first

/-- It is not changed by variables that are allocated later. -/
theorem DpsCall.outputElem_of_prefix {call : DpsCall} {info : VarInfo} {vars vars' : List VarInfo}
    (grown : vars <+: vars')
    (inputs : ∀ u ∈ Expr.readsAll call.inputs, u.index < vars.length) :
    call.outputElem info vars' = call.outputElem info vars := by
  refine outputElem_congr (List.map_congr_left fun e input => ?_)
  refine Option.bind_congr' (Expr.inferTy?_congr fun u inInput => ?_) fun _ _ => rfl
  exact getElem?_of_prefix grown (inputs u (Expr.mem_readsAll input inInput))

theorem DpsCall.outputElem_of_recorded {call : DpsCall} {info : VarInfo} {vars : List VarInfo}
    {elem : ElemType} (recorded : info.ty.bind Ty.elem? = some elem) :
    call.outputElem info vars = elem := by
  simp [outputElem, recorded]

/-- The arguments read what the inputs read. -/
theorem DpsCall.readsAll_inputs {args : List Expr} {call : DpsCall}
    (read : ofArgs args = .ok call) :
    Expr.readsAll call.inputs = Expr.readsAll args := by
  rw [ofArgs_eq_ok read]
  simp [Expr.readsAll, Expr.reads]

theorem DpsCall.mem_reads {args : List Expr} {call : DpsCall} (read : ofArgs args = .ok call)
    {e : Expr} (input : e ∈ call.inputs) {v : Var} (inInput : v ∈ e.reads) :
    v ∈ Expr.readsAll args := by
  rw [← readsAll_inputs read]
  exact Expr.mem_readsAll input inInput

/-- The output of a call on the arguments under the variable. -/
def DpsCall.output? (vars : List VarInfo) (p : Var × List Expr) : Option (Var × ElemType) := do
  let call ← (ofArgs p.2).toOption
  let info ← vars[p.1.index]?
  return (p.1, call.outputElem info vars)

namespace Function

/-- The calls in destination-passing style, in program order. -/
def dpsCalls (f : Function) : List (Var × List Expr) := f.bindings.filterMap Binding.dpsCall?

/-- The outputs of these calls, each with the element type that it is to have. -/
def outputs (f : Function) : List (Var × ElemType) :=
  f.dpsCalls.filterMap (DpsCall.output? f.vars)

/-- The variable names the output of a call in destination-passing style. -/
def IsDestination (f : Function) (v : Var) : Prop :=
  ∃ x ∈ f.bindings, x.Invokes .callDps ∧ x.defined? = some v

instance (f : Function) (v : Var) : Decidable (f.IsDestination v) :=
  inferInstanceAs (Decidable (∃ x ∈ f.bindings, x.Invokes .callDps ∧ x.defined? = some v))

/-- The allocations that the second function has for the outputs of calls of the first. -/
def newAllocations (f g : Function) : List (Var × ElemType) :=
  (g.bindings.filterMap Binding.allocation?).filter fun p => f.IsDestination p.1

variable {f g : Function}

theorem mem_dpsCalls {v : Var} {args : List Expr} : (v, args) ∈ f.dpsCalls ↔
    ∃ head, .define v (.call head args) ∈ f.bindings ∧ head.callee = .op .callDps := by
  rw [dpsCalls, List.mem_filterMap]
  constructor
  · rintro ⟨x, mem, call⟩
    obtain ⟨head, rfl, callee⟩ := Binding.dpsCall?_eq_some.1 call
    exact ⟨head, mem, callee⟩
  · rintro ⟨head, mem, callee⟩
    exact ⟨_, mem, Binding.dpsCall?_eq_some.2 ⟨head, rfl, callee⟩⟩

/-- The outputs of the bindings so far have been allocated as they are to be. -/
structure Allocated (f : Function) (done : List Binding) (b : Builder) : Prop where
  vars : f.vars <+: b.vars
  allocations :
    (b.bindings.filterMap Binding.allocation?).filter (fun p => f.IsDestination p.1) =
      (done.filterMap Binding.dpsCall?).filterMap (DpsCall.output? f.vars)

variable {done rest : List Binding} {x : Binding} {b b' : Builder} {position : Nat}

theorem Allocated.kept (h : f.Allocated done b) (wellFormed : f.Scoped)
    (split : f.bindings = done ++ x :: rest) (other : ¬ x.Invokes .callDps) :
    f.Allocated (done ++ [x]) (b.append (x.annotated b.vars)) := by
  refine ⟨h.vars, ?_⟩
  have foreign : ([x.annotated b.vars].filterMap Binding.allocation?).filter
      (fun p => f.IsDestination p.1) = [] := by
    rw [List.filter_eq_nil_iff]
    rintro ⟨v, elem⟩ mem isDestination
    obtain ⟨_, is, allocates⟩ := List.mem_filterMap.1 mem
    cases List.mem_singleton.1 is
    have here := Binding.defined?_of_allocation? allocates
    rw [Binding.annotated, Binding.defined?_withValue] at here
    obtain ⟨y, mem, invokes, defines⟩ := of_decide_eq_true isDestination
    cases wellFormed.eq_of_defined (by simp [split]) mem here defines
    exact other invokes
  rw [Builder.bindings_append, List.filterMap_append, List.filter_append, foreign,
    List.filterMap_append, h.allocations]
  simp [Binding.dpsCall?_eq_none other]

theorem Allocated.split (h : f.Allocated done b) (wellFormed : f.Scoped)
    (split : f.bindings = done ++ x :: rest) {v : Var} {head : CallHead} {args : List Expr}
    (is : x = .define v (.call head args)) (callee : head.callee = .op .callDps)
    (emitted : DpsCall.emit f position v args b = .ok b') : f.Allocated (done ++ [x]) b' := by
  obtain ⟨call, info, read, looked, rfl⟩ := DpsCall.emit_eq_ok emitted
  have mem : x ∈ f.bindings := by simp [split]
  have defines : x.defined? = some v := congrArg Binding.defined? is
  refine ⟨h.vars.trans (List.prefix_append _ _), ?_⟩
  have grown {u : Var} (old : f.Allocates u) : b.vars[u.index]? = f.vars[u.index]? :=
    getElem?_of_prefix h.vars old
  have found : f.vars[v.index]? = some info := by
    rw [← grown (wellFormed.definitions v (mem_defined mem defines))]
    exact Builder.info_eq_ok.1 looked
  have elem : call.outputElem info b.vars = call.outputElem info f.vars := by
    refine DpsCall.outputElem_of_prefix h.vars fun u inInputs => ?_
    have inArgs := DpsCall.readsAll_inputs read ▸ inInputs
    exact wellFormed.reads x mem u (is ▸ inArgs)
  have isDestination : f.IsDestination v := ⟨x, mem, ⟨v, head, args, is, callee⟩, defines⟩
  have output : DpsCall.output? f.vars (v, args) = some (v, call.outputElem info b.vars) := by
    simp [DpsCall.output?, read, found, elem, Except.toOption]
  have one : x.dpsCall? = some (v, args) := Binding.dpsCall?_eq_some.2 ⟨head, is, callee⟩
  rw [Builder.bindings_emitNamed, Builder.bindings_append, List.filterMap_append,
    List.filterMap_append, List.filter_append, List.filter_append, h.allocations,
    List.filterMap_append, List.filterMap_append]
  simp [one, output, Expr.ofOp, Expr.ofCallee, Expr.annotate, Binding.allocation?, isDestination,
    Attrs.elem?]

/-- What is allocated for the outputs of a function is what they are to have. -/
theorem newAllocations_eq_outputs (wellFormed : f.check = .ok ())
    (allocated : f.allocateOutputs = .ok g) : f.newAllocations g = f.outputs := by
  have wf := scoped_of_check wellFormed
  obtain ⟨b, all, finished⟩ : ∃ b, f.Allocated f.bindings b ∧ b.finish f.body = .ok g := by
    refine replaceBindings_invariant (fun split h emitted => ?_) (fun bindings vars _ h => ?_)
      ⟨List.prefix_rfl, rfl⟩ allocated
    · split at emitted
      · exact h.split wf split rfl rfl emitted
      · next other =>
          rw [Binding.annotated_of_push (building_eq_ok.1 emitted)]
          refine h.kept wf split ?_
          rintro ⟨v, ⟨callee, attrs, shape, ty⟩, args, rfl, rfl⟩
          exact other v attrs shape ty args rfl
    · exact ⟨vars ▸ h.vars, bindings ▸ h.allocations⟩
  rw [newAllocations, (Builder.finish_eq_ok finished).1, all.allocations]
  rfl

end Function

end TensorIR
