import TensorIR.Lowering.Destination
import TensorIR.Lowering.Storage
import TensorIR.Proofs.Emitter

/-!
# What destinations and storage emit

The two passes that rewrite calls look at the callee of a definition that is a call, and emit every
other binding as it is. `DpsCall.Step` and `StorageTarget.Step` list what can come of a binding.
Neither pass has anything to remember, so a step goes from builder to builder.
-/

namespace TensorIR

/-- The binding defines a variable as a call of the operator. -/
def Binding.Invokes (op : Op) (x : Binding) : Prop :=
  ∃ v head args, x = .define v (.call head args) ∧ head.callee = .op op

namespace Binding

variable {x : Binding} {vars : List VarInfo} {op : Op}

theorem invokes_annotated : (x.annotated vars).Invokes op ↔ x.Invokes op := by
  constructor
  · rintro ⟨v, head, args, is, callee⟩
    cases x with
    | matchShape _ _ _ => cases is
    | define v e =>
        cases e with
        | call head args =>
            cases is
            exact ⟨_, _, _, rfl, callee⟩
        | var _ | shape _ | tuple _ | item _ _ | const _ | external _ | global _ => cases is
  · rintro ⟨v, head, args, rfl, callee⟩
    exact ⟨v, _, args, rfl, callee⟩

theorem invokes_define {v : Var} {head : CallHead} {args : List Expr} :
    (define v ((Expr.call head args).annotate vars)).Invokes op ↔ head.callee = .op op := by
  constructor
  · rintro ⟨v, head, args, is, callee⟩
    cases is
    exact callee
  · exact fun callee => ⟨v, _, args, rfl, callee⟩

instance (op : Op) : (x : Binding) → Decidable (x.Invokes op)
  | define v (.call head args) => decidable_of_iff (head.callee = .op op) <| by
    constructor
    · exact fun callee => ⟨v, head, args, rfl, callee⟩
    · rintro ⟨_, _, _, is, callee⟩
      cases is
      exact callee
  | define _ (.var _) | define _ (.shape _) | define _ (.tuple _) | define _ (.item ..)
  | define _ (.const _) | define _ (.external _) | define _ (.global _) | matchShape .. =>
    .isFalse <| by
      rintro ⟨_, _, _, is, _⟩
      cases is

end Binding

variable {f : Function} {x : Binding} {b b' : Builder} {position : Nat}

theorem Binding.annotated_of_push (h : b.push x = .ok b') : b' = b.append (x.annotated b.vars) :=
  Builder.push_eq_ok_append h

theorem DpsCall.ofArgs_eq_ok {args : List Expr} {call : DpsCall}
    (h : DpsCall.ofArgs args = .ok call) :
    args = [.shape call.shape, .external call.kernel, .tuple call.inputs] := by
  unfold DpsCall.ofArgs at h
  split at h <;> cases h
  rfl

theorem StorageTarget.allocation_eq_ok {args : List Expr} {attrs : Attrs} {shape : Shape}
    {elem : ElemType} (h : StorageTarget.allocation args attrs = .ok (shape, elem)) :
    args = [.shape shape] ∧ attrs = .allocTensor elem := by
  unfold StorageTarget.allocation at h
  split at h <;> cases h
  exact ⟨rfl, rfl⟩

theorem directCall_eq_ok {args : List Expr} {call : Expr} (h : directCall args = .ok call) :
    ∃ kernel inputs out, args = [.external kernel, .tuple inputs, out] ∧
      call = .ofCallee (.external kernel) (inputs ++ [out]) := by
  unfold directCall at h
  split at h <;> cases h
  exact ⟨_, _, _, rfl, rfl⟩

namespace DpsCall

/-- What can come of a binding where outputs are allocated. -/
inductive Step (x : Binding) (b : Builder) : Builder → Prop where
  | kept (other : ¬ x.Invokes .callDps) : Step x b (b.append (x.annotated b.vars))
  /-- The output is allocated under the name of the call, and the kernel fills it. -/
  | split {v head args elem} {call : DpsCall} (is : x = .define v (.call head args))
    (callee : head.callee = .op .callDps) (read : ofArgs args = .ok call) :
    Step x b (((b.append (.define v ((Expr.ofOp .allocTensor [.shape call.shape]
      (.allocTensor elem)).annotate b.vars))).emitNamed "_"
        (.ofCallee (.external call.kernel) (call.inputs ++ [.var v]))).1)

/-- What is emitted for a call in destination-passing style. -/
theorem emit_eq_ok {v : Var} {args : List Expr} (h : emit f position v args b = .ok b') :
    ∃ call info, ofArgs args = .ok call ∧ b.info v = .ok info ∧
      b' = ((b.append (.define v ((Expr.ofOp .allocTensor [.shape call.shape]
        (.allocTensor (call.outputElem info b.vars))).annotate b.vars))).emitNamed "_"
          (.ofCallee (.external call.kernel) (call.inputs ++ [.var v]))).1 := by
  simp only [emit] at h
  obtain ⟨call, read, h⟩ := bind_eq_ok.1 h
  obtain ⟨info, looked, h⟩ := bind_eq_ok.1 h
  obtain ⟨b₁, bound, h⟩ := bind_eq_ok.1 h
  rw [pure_eq_ok, Builder.bind_eq_ok_append (building_eq_ok.1 bound)] at h
  exact ⟨call, info, mapError_eq_ok.1 read, looking_eq_ok.1 looked, h.symm⟩

theorem step_of_emit {v : Var} {head : CallHead} {args : List Expr}
    (callee : head.callee = .op .callDps) (h : emit f position v args b = .ok b') :
    Step (.define v (.call head args)) b b' := by
  obtain ⟨call, info, read, -, rfl⟩ := emit_eq_ok h
  exact .split rfl callee read

theorem step_of_emitted
    (h : (match x with
      | .define v (.call ⟨.op .callDps, _, _, _⟩ args) => emit f position v args b
      | _ => building f.name (b.push x)) = .ok b') : Step x b b' := by
  split at h
  · exact step_of_emit rfl h
  · next other =>
      rw [Binding.annotated_of_push (building_eq_ok.1 h)]
      refine .kept ?_
      rintro ⟨v, ⟨callee, attrs, shape, ty⟩, args, rfl, rfl⟩
      exact other v attrs shape ty args rfl

end DpsCall

namespace StorageTarget

variable {target : StorageTarget}

/-- What can come of a binding where tensors are placed. -/
inductive Step (target : StorageTarget) (x : Binding) (b : Builder) : Builder → Prop where
  | kept (noAllocation : ¬ x.Invokes .allocTensor) (noKernel : ¬ x.Invokes .callPacked) :
    Step target x b (b.append (x.annotated b.vars))
  /-- Storage is allocated under a new name, and the view of it has the name of the tensor. -/
  | placed {v head args shape elem vars} (is : x = .define v (.call head args))
    (callee : head.callee = .op .allocTensor)
    (read : allocation args head.attrs = .ok (shape, elem)) :
    Step target x b ((b.emitNamed "storage" (.ofOp .vmAllocStorage
      [.shape [shape.storageBytes elem]] (.allocStorage target.alignment target.device elem))).1.append
        (.define v ((Expr.ofOp .vmAllocTensor [.var ⟨b.vars.length⟩, .shape (.ofInts [0]),
          .shape shape] (.allocTensor elem)).annotate vars)))
  | direct {v head args call} (is : x = .define v (.call head args))
    (callee : head.callee = .op .callPacked) (read : directCall args = .ok call) :
    Step target x b (b.append (.define v (call.annotate b.vars)))

theorem step_of_emitAllocation {v : Var} {head : CallHead} {args : List Expr}
    (callee : head.callee = .op .allocTensor)
    (h : target.emitAllocation f position v args head.attrs b = .ok b') :
    Step target (.define v (.call head args)) b b' := by
  simp only [emitAllocation] at h
  obtain ⟨⟨shape, elem⟩, read, h⟩ := bind_eq_ok.1 h
  rw [Builder.bind_eq_ok_append (building_eq_ok.1 h)]
  exact .placed rfl callee (mapError_eq_ok.1 read)

theorem step_of_emitted
    (h : (match x with
      | .define v (.call ⟨.op .allocTensor, attrs, _, _⟩ args) =>
        target.emitAllocation f position v args attrs b
      | .define v (.call ⟨.op .callPacked, _, _, _⟩ args) => do
        let call ← (directCall args).mapError (.malformedCall f.name position)
        building f.name (b.bind v call)
      | _ => building f.name (b.push x)) = .ok b') : Step target x b b' := by
  split at h
  · exact step_of_emitAllocation rfl h
  · obtain ⟨call, read, bound⟩ := bind_eq_ok.1 h
    rw [Builder.bind_eq_ok_append (building_eq_ok.1 bound)]
    exact .direct rfl rfl (mapError_eq_ok.1 read)
  · next noAllocation noKernel =>
      rw [Binding.annotated_of_push (building_eq_ok.1 h)]
      refine .kept ?_ ?_
      · rintro ⟨v, ⟨callee, attrs, shape, ty⟩, args, rfl, rfl⟩
        exact noAllocation v attrs shape ty args rfl
      · rintro ⟨v, ⟨callee, attrs, shape, ty⟩, args, rfl, rfl⟩
        exact noKernel v attrs shape ty args rfl

end StorageTarget

namespace Function

variable {g : Function} {target : StorageTarget} {holds : List Binding → Builder → Prop}

/-- An invariant that every step keeps, and that does not look at blocks, holds of the function
whose outputs are allocated. -/
theorem allocateOutputs_invariant
    (keeps : ∀ {done x rest b b'}, f.bindings = done ++ x :: rest → holds done b →
      DpsCall.Step x b b' → holds (done ++ [x]) b')
    (ignores : ∀ {done b b'}, b'.bindings = b.bindings → b'.vars = b.vars →
      b'.params = b.params → holds done b → holds done b')
    (start : holds [] (.reopen f)) (allocated : f.allocateOutputs = .ok g) :
    ∃ b, holds f.bindings b ∧ b.finish f.body = .ok g := by
  exact replaceBindings_invariant (fun split h emitted =>
    keeps split h (DpsCall.step_of_emitted emitted)) ignores start allocated

theorem placeTensors_invariant
    (keeps : ∀ {done x rest b b'}, f.bindings = done ++ x :: rest → holds done b →
      target.Step x b b' → holds (done ++ [x]) b')
    (ignores : ∀ {done b b'}, b'.bindings = b.bindings → b'.vars = b.vars →
      b'.params = b.params → holds done b → holds done b')
    (start : holds [] (.reopen f)) (placed : f.placeTensors target = .ok g) :
    ∃ b, holds f.bindings b ∧ b.finish f.body = .ok g := by
  exact replaceBindings_invariant (fun split h emitted =>
    keeps split h (StorageTarget.step_of_emitted emitted)) ignores start placed

/-- Where outputs are allocated no definition is a call in destination-passing style any more. -/
theorem not_invokes_of_allocateOutputs (h : f.allocateOutputs = .ok g) :
    ∀ y ∈ g.bindings, ¬ y.Invokes .callDps := by
  let invariant : List Binding → Builder → Prop := fun _ b =>
    ∀ y ∈ b.bindings, ¬ y.Invokes .callDps
  obtain ⟨b, none, finished⟩ : ∃ b, invariant f.bindings b ∧ b.finish f.body = .ok g := by
    refine allocateOutputs_invariant (fun {done x rest b b'} _ h step => ?_)
      (fun bindings _ _ h y mem => h y (bindings ▸ mem)) nofun h
    cases step with
    | kept other =>
        intro y mem
        rw [Builder.bindings_append, List.mem_append, List.mem_singleton] at mem
        rcases mem with mem | rfl
        · exact h y mem
        · rwa [Binding.invokes_annotated]
    | split _ _ _ =>
        intro y mem
        rw [Builder.bindings_emitNamed, Builder.bindings_append] at mem
        simp only [List.mem_append, List.mem_singleton] at mem
        rcases mem with (mem | rfl) | rfl
        · exact h y mem
        · exact fun invokes => nomatch Binding.invokes_define.1 invokes
        · exact fun invokes => nomatch Binding.invokes_define.1 invokes
  rw [(Builder.finish_eq_ok finished).1]
  exact none

/-- Where tensors are placed no definition is an allocation or an indirect call of a kernel any
more, and of the operators that placing does not emit none comes up that was not there. -/
theorem not_invokes_of_placed (h : f.placeTensors target = .ok g) {op : Op}
    (foreign : op ∉ [Op.vmAllocStorage, .vmAllocTensor])
    (gone : op ∉ [Op.allocTensor, .callPacked] → ∀ y ∈ f.bindings, ¬ y.Invokes op) :
    ∀ y ∈ g.bindings, ¬ y.Invokes op := by
  let invariant : List Binding → Builder → Prop := fun _ b => ∀ y ∈ b.bindings, ¬ y.Invokes op
  obtain ⟨b, none, finished⟩ : ∃ b, invariant f.bindings b ∧ b.finish f.body = .ok g := by
    refine placeTensors_invariant (fun {done x rest b b'} split h step => ?_)
      (fun bindings _ _ h y mem => h y (bindings ▸ mem)) nofun h
    cases step with
    | kept noAllocation noPacked =>
        intro y mem
        rw [Builder.bindings_append, List.mem_append, List.mem_singleton] at mem
        rcases mem with mem | rfl
        · exact h y mem
        · rw [Binding.invokes_annotated]
          by_cases placed : op ∈ [Op.allocTensor, .callPacked]
          · simp only [List.mem_cons, List.not_mem_nil, or_false] at placed
            rcases placed with rfl | rfl <;> assumption
          · exact gone placed x (by rw [split]; simp)
    | placed _ _ _ =>
        intro y mem
        rw [Builder.bindings_append, Builder.bindings_emitNamed] at mem
        simp only [List.mem_append, List.mem_singleton] at mem
        rcases mem with (mem | rfl) | rfl
        · exact h y mem
        · rw [Expr.ofOp, Binding.invokes_define]
          rintro ⟨⟩
          simp at foreign
        · rw [Expr.ofOp, Binding.invokes_define]
          rintro ⟨⟩
          simp at foreign
    | direct _ _ read =>
        obtain ⟨kernel, inputs, out, -, rfl⟩ := directCall_eq_ok read
        intro y mem
        rw [Builder.bindings_append, List.mem_append, List.mem_singleton] at mem
        rcases mem with mem | rfl
        · exact h y mem
        · exact fun invokes => nomatch Binding.invokes_define.1 invokes
  rw [(Builder.finish_eq_ok finished).1]
  exact none

/-- Where tensors are placed none of the abstract operators is the whole value of a definition any
more, if calls in destination-passing style have gone before. -/
theorem not_invokes_of_placeTensors (noDps : ∀ y ∈ f.bindings, ¬ y.Invokes .callDps)
    (h : f.placeTensors target = .ok g) {op : Op}
    (abstract : op ∈ [Op.callDps, .allocTensor, .callPacked]) :
    ∀ y ∈ g.bindings, ¬ y.Invokes op := by
  simp only [List.mem_cons, List.not_mem_nil, or_false] at abstract
  rcases abstract with rfl | rfl | rfl
  · exact not_invokes_of_placed h (by decide) fun _ => noDps
  · exact not_invokes_of_placed h (by decide) fun other => absurd (by decide) other
  · exact not_invokes_of_placed h (by decide) fun other => absurd (by decide) other

end Function

end TensorIR
