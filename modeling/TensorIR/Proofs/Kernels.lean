import Mathlib.Data.List.Nodup
import TensorIR.Proofs.CallNodes
import TensorIR.Proofs.Placement
import TensorIR.Proofs.RenamingPasses

/-!
# Kernels through the first four passes

A kernel is run by a call in destination-passing style, by a call with a given output, or by a plain
call of an external function. All three come down to a plain call with the output as its last
argument, a `KernelCall`, and `Function.kernels` lists the kernels of a function in this form.

The passes before shape lowering turn that list into the list of external calls
(`Pipeline.kernels_preserved`). Fusion and demotion rename bindings and annotate them, and a kernel
can be read off a binding without its annotations, so the list of kernels is renamed as a whole
(`RenamedBy.kernels`). The new names are apart because the result is well formed. Allocating outputs
changes the form of a kernel but not the list, and placing tensors turns the last of the abstract
forms into plain calls.
-/

namespace TensorIR

/-- A run of a kernel: its symbol and its arguments, the output included. -/
structure KernelCall where
  symbol : String
  args : List Expr
deriving DecidableEq, Repr

namespace KernelCall

/-- The same kernel with the variables in its arguments renamed. -/
def rename (r : Var → Var) (k : KernelCall) : KernelCall :=
  { k with args := k.args.map (Expr.rename r) }

/-- The kernel that a call runs, if its result is to have the name `v`. -/
def ofCall? (v : Var) : Callee → List Expr → Option KernelCall
  | .op .callDps, [.shape _, .external kernel, .tuple inputs] => some ⟨kernel, inputs ++ [.var v]⟩
  | .op .callPacked, [.external kernel, .tuple inputs, out] => some ⟨kernel, inputs ++ [out]⟩
  | .external symbol, args => some ⟨symbol, args⟩
  | _, _ => none

/-- The variables that a kernel reads and writes. -/
def vars (k : KernelCall) : List Var := k.args.flatMap Expr.reads

variable {r r' : Var → Var}

theorem rename_congr {k : KernelCall} (same : ∀ v ∈ k.vars, r v = r' v) :
    k.rename r = k.rename r' := by
  refine congrArg (KernelCall.mk k.symbol) (List.map_congr_left fun e mem => ?_)
  exact Expr.rename_congr fun v read => same v (List.mem_flatMap.2 ⟨e, mem, read⟩)

theorem rename_rename (k : KernelCall) : (k.rename r).rename r' = k.rename (r' ∘ r) := by
  refine congrArg (KernelCall.mk k.symbol) ((List.map_map ..).trans ?_)
  exact List.map_congr_left fun e _ => Expr.rename_rename e

theorem ofCall?_rename (r : Var → Var) (v : Var) (callee : Callee) (args : List Expr) :
    ofCall? (r v) callee (args.map (Expr.rename r)) = (ofCall? v callee args).map (rename r) := by
  cases callee with
  | external s => rfl
  | global _ => rfl
  | op op =>
      cases op with
      | callDps =>
          -- Renaming keeps the constructors that the match looks at, one after the other.
          rcases args with _ | ⟨a, args⟩
          · rfl
          cases a <;> try rfl
          rcases args with _ | ⟨b, args⟩
          · rfl
          cases b <;> try rfl
          rcases args with _ | ⟨c, args⟩
          · rfl
          cases c <;> try rfl
          cases args <;> simp [ofCall?, rename, Expr.rename, Expr.renameAll_eq_map]
      | callPacked =>
          rcases args with _ | ⟨a, args⟩
          · rfl
          cases a <;> try rfl
          rcases args with _ | ⟨b, args⟩
          · rfl
          cases b <;> try rfl
          rcases args with _ | ⟨c, _ | ⟨d, rest⟩⟩ <;>
            simp [ofCall?, rename, Expr.rename, Expr.renameAll_eq_map]
      | add | multiply | fma | allocTensor | vmAllocStorage | vmAllocTensor | vmStoreShape
      | vmLoadShape => rfl

theorem vars_ofCall? {v : Var} {callee : Callee} {args : List Expr} {k : KernelCall}
    (h : ofCall? v callee args = some k) :
    ∀ u ∈ k.vars, u ∈ args.flatMap Expr.reads ∨ u = v := by
  unfold ofCall? at h
  split at h
  · cases h
    intro u mem
    simp only [vars, List.flatMap_append, List.mem_append, List.flatMap_cons, List.flatMap_nil,
      Expr.reads, Expr.readsAll_eq_flatMap, List.mem_singleton, List.append_nil,
      List.nil_append] at mem ⊢
    exact mem
  · cases h
    intro u mem
    simp only [vars, List.flatMap_append, List.mem_append, List.flatMap_cons, List.flatMap_nil,
      Expr.reads, Expr.readsAll_eq_flatMap, List.append_nil, List.nil_append] at mem ⊢
    exact .inl mem
  · cases h
    exact fun u mem => .inl mem
  · cases h

end KernelCall

namespace Binding

/-- The kernel that a binding runs. -/
def kernel? : Binding → Option KernelCall
  | .define v (.call head args) => KernelCall.ofCall? v head.callee args
  | .define _ _ | .matchShape .. => none

variable {r : Var → Var} {x : Binding} {ρ : Renaming} {vars : List VarInfo}

theorem kernel?_annotated (x : Binding) (vars : List VarInfo) :
    (x.annotated vars).kernel? = x.kernel? := by
  cases x with
  | matchShape _ _ _ => rfl
  | define v e => cases e <;> rfl

theorem kernel?_rename (r : Var → Var) (x : Binding) :
    (x.rename r).kernel? = x.kernel?.map (KernelCall.rename r) := by
  cases x with
  | matchShape _ _ _ => rfl
  | define v e =>
      cases e with
      | call head args =>
          rw [Binding.rename, Expr.rename, Expr.renameAll_eq_map]
          exact KernelCall.ofCall?_rename r v head.callee args
      | var _ | shape _ | tuple _ | item _ _ | const _ | external _ | global _ => rfl

theorem vars_kernel? {k : KernelCall} (h : x.kernel? = some k) :
    ∀ u ∈ k.vars, u ∈ x.value.reads ∨ x.defined? = some u := by
  cases x with
  | matchShape _ _ _ => cases h
  | define v e =>
      cases e with
      | call head args =>
          intro u mem
          rw [value, Expr.reads, Expr.readsAll_eq_flatMap]
          exact (KernelCall.vars_ofCall? h u mem).imp_right fun same => congrArg some same.symm
      | var _ | shape _ | tuple _ | item _ _ | const _ | external _ | global _ => cases h

theorem innerCalls_rename (r : Var → Var) (x : Binding) :
    (x.rename r).innerCalls = x.innerCalls.map (CallNode.rename r) := by
  cases x with
  | define v e => exact Expr.innerCalls_rename r e
  | matchShape v? e pattern => exact Expr.calls_rename r e

theorem innerCalls_bare (x : Binding) : x.bare.innerCalls = x.innerCalls := by
  cases x with
  | define v e => exact Expr.innerCalls_bare e
  | matchShape v? e pattern => exact Expr.calls_bare e

theorem kernel?_bare (x : Binding) : x.bare.kernel? = x.kernel? := by
  cases x with
  | matchShape _ _ _ => rfl
  | define v e => cases e <;> rfl

end Binding

namespace Function

/-- The kernels that a function runs, in program order. -/
def kernels (f : Function) : List KernelCall := f.bindings.filterMap Binding.kernel?

variable {f : Function}

/-- Kernels mention variables that the function defines. -/
theorem vars_kernels (dominated : f.Dominated) {k : KernelCall} (mem : k ∈ f.kernels) :
    ∀ u ∈ k.vars, u ∈ f.defined := by
  obtain ⟨x, inBindings, runs⟩ := List.mem_filterMap.1 mem
  obtain ⟨done, rest, split⟩ := List.append_of_mem inBindings
  intro u inKernel
  rcases Binding.vars_kernel? runs u inKernel with read | defines
  · have known := dominated.reads split u read
    rw [defined, split, List.filterMap_append, ← List.append_assoc]
    exact List.mem_append_left _ known
  · exact mem_defined inBindings defines

end Function

/-- Under the renaming, `g` defines the variables and runs the kernels of `f`, and it has no calls
where the passes do not look for them. -/
structure Traces (f g : Function) (r : Var → Var) : Prop where
  defined : g.defined = f.defined.map r
  kernels : g.kernels = f.kernels.map (KernelCall.rename r)
  inner : g.innerCalls = []

/-! ### Fusion and demotion -/

namespace RenamedBy

variable {r : Var → Var} {xs ys : List Binding} (h : RenamedBy r xs ys)
include h

theorem kernels : ys.filterMap Binding.kernel? =
    (xs.filterMap Binding.kernel?).map (KernelCall.rename r) := by
  rw [List.filterMap_eq_flatMap_toList, List.filterMap_eq_flatMap_toList]
  refine h.flatMap (fun x => congrArg Option.toList (Binding.kernel?_bare x)) fun x => ?_
  rw [Binding.kernel?_rename]
  cases x.kernel? <;> rfl

theorem innerCalls :
    ys.flatMap Binding.innerCalls = (xs.flatMap Binding.innerCalls).map (CallNode.rename r) :=
  h.flatMap Binding.innerCalls_bare (Binding.innerCalls_rename r)

end RenamedBy

namespace Function

variable {f g : Function}

/-- A sum runs no kernel, and neither does the fused operation in its place. -/
theorem kernel?_fusedForm (f : Function) (block : Block) (x : Binding) :
    (x.withValue (f.fusedValue block x)).kernel? = x.kernel? := by
  rw [fusedValue]
  cases isSum : f.fusedOperands? block x with
  | none => cases x <;> rfl
  | some operands =>
      obtain ⟨v, head, t, c, a, a', rfl, -, callee, -⟩ := fusedOperands?_eq_some.1 isSum
      rw [Binding.kernel?, callee]
      rfl

theorem kernels_fusedForms (f : Function) :
    f.fusedForms.filterMap Binding.kernel? = f.kernels := by
  rw [fusedForms, kernels, bindings, List.filterMap_flatMap, List.filterMap_flatMap]
  refine List.flatMap_congr fun block _ => ?_
  rw [List.filterMap_map]
  exact congrArg (List.filterMap · block.bindings) (funext (f.kernel?_fusedForm block))

/-- Without calls in the operands of sums and products there are none in those of fused
operations. -/
theorem innerCalls_fusedForms (wellScoped : f.Scoped) (inner : f.innerCalls = []) :
    f.fusedForms.flatMap Binding.innerCalls = [] := by
  rw [innerCalls, List.append_eq_nil_iff, List.flatMap_eq_nil_iff] at inner
  rw [fusedForms, List.flatMap_eq_nil_iff]
  intro form mem
  obtain ⟨block, inFunction, mem⟩ := List.mem_flatMap.1 mem
  obtain ⟨x, inBlock, rfl⟩ := List.mem_map.1 mem
  have ofValue := inner.1 x (mem_bindings inFunction inBlock)
  rw [fusedValue]
  cases isSum : f.fusedOperands? block x with
  | none =>
      cases x <;> exact ofValue
  | some operands =>
      obtain ⟨v, head, t, c, a, a', rfl, -, -, -, found, rfl⟩ := fusedOperands?_eq_some.1 isSum
      obtain ⟨head', product, -⟩ := (product?_eq_some wellScoped inFunction).1 found
      have ofProduct := inner.1 _ (mem_bindings inFunction product)
      simp only [Binding.innerCalls, Expr.innerCalls, List.flatMap_cons, List.flatMap_nil,
        List.append_nil, List.append_eq_nil_iff] at ofValue ofProduct
      simp [Binding.withValue, Binding.innerCalls, Expr.ofOp, Expr.innerCalls, ofValue, ofProduct]

theorem traces_of_fuse (wellFormed : f.check = .ok ()) (inner : f.innerCalls = [])
    (fused : f.fuse = .ok g) : ∃ r, Traces f g r := by
  obtain rfl := fuse_eq wellFormed fused
  have renamed := renamedBy_fused f
  refine ⟨f.fusedVar, (rewrites_fused (wellFormed_of_check wellFormed)).defined, ?_, ?_⟩
  · rw [kernels, renamed.kernels, kernels_fusedForms]
  · rw [innerCalls, renamed.innerCalls,
      innerCalls_fusedForms (scoped_of_check wellFormed) inner]
    rw [innerCalls, List.append_eq_nil_iff] at inner
    show _ ++ (f.body.rename f.fusedVar).calls = []
    rw [Expr.calls_rename, inner.2]
    rfl

theorem traces_of_demote (wellFormed : f.check = .ok ()) (inner : f.innerCalls = [])
    (demoted : f.demote = .ok g) : ∃ r, Traces f g r := by
  obtain ⟨r, demotes⟩ := demotesTo_of_demote wellFormed demoted
  refine ⟨r, demotes.defined, demotes.bindings.kernels, ?_⟩
  rw [innerCalls, demotes.bindings.innerCalls, demotes.body, Expr.calls_rename, ← List.map_append]
  exact List.map_eq_nil_iff.2 inner

end Function

/-! ### Outputs and storage -/

/-- The call of an external function that a call is. -/
def CallNode.external? (node : CallNode) : Option KernelCall :=
  match node.callee with
  | .external symbol => some ⟨symbol, node.args⟩
  | .op _ | .global _ => none

/-- The calls of external functions in a function, wherever they stand, in program order. -/
def Function.externalCalls (f : Function) : List KernelCall := f.calls.filterMap CallNode.external?

namespace Binding

variable {x : Binding} {vars : List VarInfo}

theorem innerCalls_annotated (x : Binding) : (x.annotated vars).innerCalls = x.innerCalls := by
  cases x with
  | define v e => exact Expr.innerCalls_annotate vars e
  | matchShape v? e pattern => exact Expr.calls_annotate vars e

theorem calls_annotated (x : Binding) : (x.annotated vars).value.calls = x.value.calls := by
  cases x with
  | define v e => exact Expr.calls_annotate vars e
  | matchShape v? e pattern => exact Expr.calls_annotate vars e

/-- A binding without abstract calls runs what it calls. -/
theorem externalCalls_eq_kernel (inner : x.innerCalls = []) (noDps : ¬ x.Invokes .callDps)
    (noPacked : ¬ x.Invokes .callPacked) :
    x.value.calls.filterMap CallNode.external? = x.kernel?.toList := by
  cases x with
  | matchShape v? e pattern =>
      rw [value, show e.calls = [] from inner]
      rfl
  | define v e =>
      rw [value, Expr.calls_eq_inner, show e.innerCalls = [] from inner, List.nil_append]
      cases e with
      | call head args =>
          obtain ⟨callee, attrs, shape, ty⟩ := head
          cases callee with
          | external _ | global _ => rfl
          | op op =>
              cases op with
              | callDps => exact absurd ⟨v, _, args, rfl, rfl⟩ noDps
              | callPacked => exact absurd ⟨v, _, args, rfl, rfl⟩ noPacked
              | add | multiply | fma | allocTensor | vmAllocStorage | vmAllocTensor
              | vmStoreShape | vmLoadShape => rfl
      | var _ | shape _ | tuple _ | item _ _ | const _ | external _ | global _ => rfl

end Binding

namespace DpsCall

/-- After the bindings `done` their kernels have been emitted. -/
structure Allocated (done : List Binding) (b : Builder) : Prop where
  kernels : b.bindings.filterMap Binding.kernel? = done.filterMap Binding.kernel?
  inner : ∀ y ∈ b.bindings, y.innerCalls = []

variable {done : List Binding} {x : Binding} {b b' : Builder}

theorem allocated_step (inner : x.innerCalls = []) (h : Allocated done b) (step : Step x b b') :
    Allocated (done ++ [x]) b' := by
  cases step with
  | kept other =>
      refine ⟨?_, ?_⟩ <;> rw [Builder.bindings_append]
      · rw [List.filterMap_append, List.filterMap_append, h.kernels, List.filterMap_cons,
          List.filterMap_cons, Binding.kernel?_annotated]
      · refine List.forall_mem_append.2 ⟨h.inner, List.forall_mem_singleton.2 ?_⟩
        rw [Binding.innerCalls_annotated, inner]
  | @split v head args elem call is callee read =>
      obtain ⟨callee', attrs, shape, ty⟩ := head
      obtain rfl := callee
      obtain rfl := ofArgs_eq_ok read
      subst is
      have inputs : call.inputs.flatMap Expr.calls = [] := by
        simpa [Binding.innerCalls, Expr.innerCalls, Expr.calls_tuple] using inner
      refine ⟨?_, ?_⟩ <;> rw [Builder.bindings_emitNamed, Builder.bindings_append]
      · rw [List.filterMap_append, List.filterMap_append, List.filterMap_append, h.kernels,
          List.append_assoc]
        rfl
      · simp only [List.forall_mem_append, List.forall_mem_singleton]
        refine ⟨⟨h.inner, rfl⟩, ?_⟩
        rw [Binding.innerCalls, Expr.innerCalls_annotate, Expr.ofCallee, Expr.innerCalls,
          List.flatMap_append, inputs]
        rfl

end DpsCall

/-- Placing tensors calls the kernel of each binding, and no other external function. -/
theorem StorageTarget.Step.externalCalls {target : StorageTarget} {x : Binding} {b b' : Builder}
    (step : target.Step x b b') (inner : x.innerCalls = []) (noDps : ¬ x.Invokes .callDps) :
    ∃ ys, b'.bindings = b.bindings ++ ys ∧
      ys.flatMap (fun y => y.value.calls.filterMap CallNode.external?) = x.kernel?.toList := by
  cases step with
  | kept noAllocation noPacked =>
      refine ⟨_, Builder.bindings_append .., ?_⟩
      rw [List.flatMap_singleton, Binding.calls_annotated,
        Binding.externalCalls_eq_kernel inner noDps noPacked]
  | @placed v head args shape elem vars is callee read =>
      subst is
      refine ⟨_, (Builder.bindings_append ..).trans ((congrArg (· ++ _)
        (Builder.bindings_emitNamed ..)).trans (List.append_assoc ..)), ?_⟩
      rw [Binding.kernel?, callee]
      rfl
  | @direct v head args call is callee read =>
      subst is
      obtain ⟨kernel, inputs, out, rfl, rfl⟩ := directCall_eq_ok read
      have operands : (inputs ++ [out]).flatMap Expr.calls = [] := by
        simpa [Binding.innerCalls, Expr.innerCalls, Expr.calls_tuple] using inner
      refine ⟨_, Builder.bindings_append .., ?_⟩
      rw [List.flatMap_singleton, Binding.value, Expr.calls_annotate, Expr.ofCallee,
        Expr.calls_call, operands, Binding.kernel?, callee]
      rfl

namespace Function

variable {f g : Function} {target : StorageTarget}

theorem innerCalls_of_mem (inner : f.innerCalls = []) {x : Binding} (mem : x ∈ f.bindings) :
    x.innerCalls = [] := by
  rw [innerCalls, List.append_eq_nil_iff, List.flatMap_eq_nil_iff] at inner
  exact inner.1 x mem

theorem kernels_of_allocateOutputs (inner : f.innerCalls = []) (h : f.allocateOutputs = .ok g) :
    g.kernels = f.kernels ∧ g.innerCalls = [] := by
  obtain ⟨b, allocated, finished⟩ := allocateOutputs_invariant
    (fun split h step =>
      DpsCall.allocated_step (innerCalls_of_mem inner (by rw [split]; simp)) h step)
    (fun bindings _ _ h => ⟨bindings ▸ h.kernels, bindings ▸ h.inner⟩) ⟨rfl, nofun⟩ h
  obtain ⟨bindings, body, -⟩ := Builder.finish_eq_ok finished
  refine ⟨?_, ?_⟩
  · rw [kernels, bindings, allocated.kernels, kernels]
  · rw [innerCalls, List.append_eq_nil_iff] at inner ⊢
    rw [bindings, body]
    exact ⟨List.flatMap_eq_nil_iff.2 allocated.inner, inner.2⟩

theorem externalCalls_of_placeTensors (inner : f.innerCalls = [])
    (noDps : ∀ y ∈ f.bindings, ¬ y.Invokes .callDps) (h : f.placeTensors target = .ok g) :
    g.externalCalls = f.kernels := by
  let invariant : List Binding → Builder → Prop := fun done b =>
    b.bindings.flatMap (fun y => y.value.calls.filterMap CallNode.external?) =
      done.filterMap Binding.kernel?
  obtain ⟨b, placed, finished⟩ : ∃ b, invariant f.bindings b ∧ b.finish f.body = .ok g := by
    refine placeTensors_invariant (fun {done x rest b b'} split h step => ?_)
      (fun bindings _ _ h => ?_) rfl h
    · have mem : x ∈ f.bindings := by rw [split]; simp
      obtain ⟨ys, emitted, same⟩ := step.externalCalls (innerCalls_of_mem inner mem) (noDps x mem)
      show List.flatMap _ b'.bindings = _
      rw [emitted, List.flatMap_append, same, List.filterMap_append, h, List.filterMap_cons]
      cases x.kernel? <;> rfl
    · show List.flatMap _ _ = _
      rw [bindings]
      exact h
  obtain ⟨bindings, body, -⟩ := Builder.finish_eq_ok finished
  have noCalls : f.body.calls = [] := by
    rw [innerCalls, List.append_eq_nil_iff] at inner
    exact inner.2
  rw [externalCalls, calls, bindings, body, noCalls, List.append_nil, List.filterMap_flatMap]
  exact placed

end Function

namespace Pipeline

variable {m m₁ m₂ m₃ m₄ : Module} {target : StorageTarget} {key : String} {f : Function}

/-- The first four passes preserve kernels. If they succeed one after the other on a module of
well-formed functions whose calls are whole values of definitions, then each function makes, in
program order, exactly the external calls that are the kernels of the function from before, under
one renaming that keeps variables apart. -/
theorem kernels_preserved
    (wellFormed : ∀ key f, m.get? key = some (.function f) → f.check = .ok ())
    (inner : ∀ key f, m.get? key = some (.function f) → f.innerCalls = [])
    (fused : Pass.fusion.run m = .ok m₁) (demoted : Pass.demotion.run m₁ = .ok m₂)
    (allocated : Pass.destinations.run m₂ = .ok m₃)
    (placed : (Pass.storage target).run m₃ = .ok m₄)
    (found : m.get? key = some (.function f)) :
    ∃ g, m₄.get? key = some (.function g) ∧ ∃ r : Var → Var, Function.Injective r ∧
      g.externalCalls = f.kernels.map (KernelCall.rename r) := by
  obtain ⟨f₁, found₁, fusing⟩ := Module.get?_mapFunctions fused found
  obtain ⟨f₂, found₂, demoting⟩ := Module.get?_mapFunctions demoted found₁
  obtain ⟨f₃, found₃, allocating⟩ := Module.get?_mapFunctions allocated found₂
  obtain ⟨g, found₄, placing⟩ := Module.get?_mapFunctions placed found₃
  refine ⟨g, found₄, ?_⟩
  have check := wellFormed key f found
  obtain ⟨r₁, first⟩ := Function.traces_of_fuse check (inner key f found) fusing
  obtain ⟨r₂, second⟩ := Function.traces_of_demote (Function.check_of_fuse fusing) first.inner
    demoting
  obtain ⟨same, inner₃⟩ := Function.kernels_of_allocateOutputs second.inner allocating
  have noDps := Function.not_invokes_of_allocateOutputs allocating
  have calls : g.externalCalls = f.kernels.map (KernelCall.rename (r₂ ∘ r₁)) := by
    rw [Function.externalCalls_of_placeTensors inner₃ noDps placing, same, second.kernels,
      first.kernels, List.map_map]
    exact List.map_congr_left fun k _ => KernelCall.rename_rename k
  -- The variables of the source are apart because those of the demoted function are.
  have distinct := (Function.scoped_of_check (Function.check_of_demote demoting)).nodup
  rw [second.defined, first.defined, List.map_map] at distinct
  obtain ⟨r, injective, agrees⟩ := Var.exists_injective fun v hv w hw =>
    List.inj_on_of_nodup_map distinct hv hw
  refine ⟨r, injective, calls.trans (List.map_congr_left fun k mem => ?_)⟩
  refine KernelCall.rename_congr fun v inKernel => (agrees v ?_).symm
  exact Function.vars_kernels (Function.dominated_of_check check) mem v inKernel

/-- A function with kernels in all three forms, one of them in a dataflow block with a sum that is
fused:

    t = multiply(x, x)
    s = add(t, x)
    y = call_dps((2,), extern("fill"), (s,))
    z = call_packed(extern("copy"), (y,), y)
    w = extern("log")(y, z)
    w
-/
def threeKernels : Function where
  name := "main"
  params := [⟨0⟩]
  blocks := [
    ⟨.dataflow, [
      .define ⟨1⟩ (.ofOp .multiply [.var ⟨0⟩, .var ⟨0⟩]),
      .define ⟨2⟩ (.ofOp .add [.var ⟨1⟩, .var ⟨0⟩]),
      .define ⟨3⟩ (.ofOp .callDps [.shape [.int 2], .external "fill", .tuple [.var ⟨2⟩]])]⟩,
    ⟨.plain, [
      .define ⟨4⟩ (.ofOp .callPacked [.external "copy", .tuple [.var ⟨3⟩], .var ⟨3⟩]),
      .define ⟨5⟩ (.ofCallee (.external "log") [.var ⟨3⟩, .var ⟨4⟩])]⟩]
  body := .var ⟨5⟩
  retTy := none
  vars := [⟨"x", .plain, none, none⟩, ⟨"t", .dataflow, none, none⟩, ⟨"s", .dataflow, none, none⟩,
    ⟨"y", .plain, none, none⟩, ⟨"z", .plain, none, none⟩, ⟨"w", .plain, none, none⟩]
  dimNames := []

/-- The module of this function alone. -/
def threeKernelsModule : Module := .ofEntries [("main", .function threeKernels)]

theorem threeKernels_only {key : String} (h : threeKernelsModule.get? key = some (.function f)) :
    f = threeKernels := by
  have mem := Module.get?_eq_some_iff.1 h
  rw [show threeKernelsModule.entries = [("main", .function threeKernels)] from rfl,
    List.mem_singleton] at mem
  exact Item.function.inj (Prod.mk.inj mem).2

theorem kernels_preserved_threeKernels :
    ∃ m₁ m₂ m₃ m₄ g, Pass.fusion.run threeKernelsModule = .ok m₁ ∧
      Pass.demotion.run m₁ = .ok m₂ ∧ Pass.destinations.run m₂ = .ok m₃ ∧
      (Pass.storage {}).run m₃ = .ok m₄ ∧ m₄.get? "main" = some (.function g) ∧
      threeKernels.kernels.map KernelCall.symbol = ["fill", "copy", "log"] ∧
      ∃ r : Var → Var, Function.Injective r ∧
        g.externalCalls = threeKernels.kernels.map (KernelCall.rename r) := by
  obtain ⟨m₄, runs⟩ : ∃ m₄, (do
      let m₁ ← Pass.fusion.run threeKernelsModule
      let m₂ ← Pass.demotion.run m₁
      let m₃ ← Pass.destinations.run m₂
      (Pass.storage {}).run m₃) = .ok m₄ := exists_eq_ok (by decide +kernel)
  obtain ⟨m₁, fused, runs⟩ := bind_eq_ok.1 runs
  obtain ⟨m₂, demoted, runs⟩ := bind_eq_ok.1 runs
  obtain ⟨m₃, allocated, placed⟩ := bind_eq_ok.1 runs
  have found : threeKernelsModule.get? "main" = some (.function threeKernels) := by decide +kernel
  obtain ⟨g, there, preserved⟩ := kernels_preserved
    (fun key f h => threeKernels_only h ▸ by decide +kernel)
    (fun key f h => threeKernels_only h ▸ by decide +kernel) fused demoted allocated placed found
  exact ⟨m₁, m₂, m₃, m₄, g, fused, demoted, allocated, placed, there, by decide +kernel, preserved⟩

end Pipeline

end TensorIR
