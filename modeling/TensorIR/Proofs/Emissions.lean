import TensorIR.Proofs.Outputs

/-!
# What is emitted, wherever it ends up

In a history without finished blocks from outside every binding that is accepted is settled: it is
annotated in full, it agrees with what is recorded of its variable, and it reads allocated variables
only. Blocks make no difference to that. So it also holds where a region was closed in vain, and the
function that is handed out has settled bindings (`Function.Emitted.settled`), although it may have
a region without an output.
-/

namespace TensorIR

namespace Binding

variable {vars vars' : List VarInfo} {inside : Bool} {x : Binding}

/-- In a region everything can be bound that can be bound outside. -/
theorem Settled.within (h : x.Settled vars inside) : x.Settled vars true where
  accepted := by
    have accepted := h.accepted
    cases x with
    | define v value =>
        obtain ⟨info, bindable, fits⟩ := accepted
        exact ⟨info, ⟨bindable.1, fun _ => rfl⟩, fits⟩
    | matchShape v? value pattern =>
        intro v defines
        obtain ⟨info, bindable⟩ := accepted v defines
        exact ⟨info, bindable.1, fun _ => rfl⟩
  annotated := h.annotated
  reads := h.reads

theorem Settled.mono (h : x.Settled vars inside) (grown : vars <+: vars') :
    x.Settled vars' inside := by
  obtain ⟨more, rfl⟩ := grown
  exact h.grow

end Binding

namespace Builder

variable {b : Builder} {a : Action} {actions : List Action} {n : Nat}

theorem Action.Binds.settled {value : Expr} (binds : a.Binds b value)
    (reads : ∀ v ∈ value.reads, v.index < b.vars.length) :
    (Binding.define ⟨b.vars.length⟩ (value.annotate b.vars)).Settled (b.perform a).1.vars true := by
  obtain ⟨i, j, name, kind, performed⟩ := binds
  rw [performed]
  exact settled_bindFresh
    (b := { b with nextLocal := i, nextGlobal := j, inDataflow := true }) name reads fun _ => rfl

theorem settled_accepted_push {x : Binding} (reads : ∀ v ∈ x.value.reads, v.index < b.vars.length) :
    ∀ y ∈ (Action.push x).accepted b, y.Settled b.vars true := by
  cases pushed : b.push x with
  | error e => simp [Action.accepted, perform, pushed, refusable]
  | ok b' =>
      have settled := Binding.settled_of_accepted (push_eq_ok_iff.1 pushed).1 reads
      simpa [Action.accepted, perform, pushed, refusable] using settled.within

/-- A whole block aside, what is accepted is settled. -/
theorem settled_accepted (emits : ∀ block, a ≠ .pushBlock block)
    (reads : ∀ v ∈ a.reads, v.index < b.vars.length) :
    ∀ x ∈ a.accepted b, x.Settled (b.perform a).1.vars true := by
  have grown := vars_prefix_perform b a
  have new {value : Expr} (binds : a.Binds b value)
      (ofValue : ∀ v ∈ value.reads, v.index < b.vars.length)
      (accepted : a.accepted b = [.define ⟨b.vars.length⟩ (value.annotate b.vars)]) :
      ∀ x ∈ a.accepted b, x.Settled (b.perform a).1.vars true := by
    rw [accepted]
    exact List.forall_mem_singleton.2 (binds.settled ofValue)
  cases a with
  | param _ _ _ | dimVar _ | fresh _ | setRetTy _ | closeRegion | openRegion | dropRegion
  | sealBlock => exact List.forall_mem_nil _
  | emit value => exact new (binds_emit b value) reads (accepted_emit b value)
  | emitNamed name value => exact new (binds_emitNamed b name value) reads rfl
  | emitOutput value =>
      cases place : b.inDataflow with
      | true => exact new (binds_emitOutput value place) reads (accepted_emitOutput value place)
      | false => simp [Action.accepted, perform, emitOutput, place]
  | bind v value =>
      rw [accepted_bind]
      exact fun x mem => (settled_accepted_push (x := .define v value) reads x mem).mono grown
  | push x => exact fun y mem => (settled_accepted_push reads y mem).mono grown
  | pushBlock block => exact absurd rfl (emits block)

theorem settled_bindings_performAll (settled : ∀ x ∈ b.bindings, x.Settled b.vars true)
    (emits : ∀ block, .pushBlock block ∉ actions)
    (reads : ∀ e ∈ b.eventsFrom n actions, ∀ v ∈ e.action.reads,
      v.index < e.before.vars.length) :
    ∀ x ∈ (b.performAll actions).bindings, x.Settled (b.performAll actions).vars true := by
  induction actions generalizing b n with
  | nil => exact settled
  | cons a actions ih =>
      obtain ⟨here, later⟩ := List.forall_mem_cons.1 reads
      have noBlock : ∀ block, a ≠ .pushBlock block := fun block same => emits block (by simp [same])
      refine ih (fun x mem => ?_) (fun block mem => emits block (List.mem_cons_of_mem a mem)) later
      rw [bindings_perform] at mem
      rcases List.mem_append.1 mem with old | new
      · exact (settled x old).mono (vars_prefix_perform b a)
      · exact settled_accepted noBlock here x new

end Builder

/-- The function was handed out after a history of emissions: no finished block was pushed from
outside, and nothing unallocated was read. -/
def Function.Emitted (f : Function) : Prop :=
  ∃ (b : Builder) (actions : List Builder.Action) (body : Expr), b.Initial ∧
    (∀ block, .pushBlock block ∉ actions) ∧
    (∀ e ∈ b.events actions, ∀ v ∈ e.action.reads, v.index < e.before.vars.length) ∧
    (b.performAll actions).finish body = .ok f

theorem Function.Emitted.settled {f : Function} (h : f.Emitted) :
    (∀ x ∈ f.bindings, x.Settled f.vars true) ∧ f.check = .ok () := by
  obtain ⟨b, actions, body, initial, emits, reads, finished⟩ := h
  obtain ⟨bindings, -, vars, -, checked⟩ := Builder.finish_eq_ok finished
  refine ⟨?_, checked⟩
  rw [bindings, vars]
  refine Builder.settled_bindings_performAll ?_ emits reads
  cases initial <;> exact nofun

end TensorIR
