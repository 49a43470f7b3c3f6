import TensorIR.Proofs.Acceptance
import TensorIR.Proofs.Tidy

/-!
# Regions without an output

A region that is closed although nothing of it is visible afterwards stays in the function all the
same. What keeps such a function from being handed out is the report. A dropped region leaves its
report with the builder, and finishing raises it; finishing raises its own report where it closes
the last region itself. Only the report of a region that was closed on the spot goes to the caller
and is gone. So a function that is handed out has a region without an output if and only if such a
closing was refused in its history (`Builder.outputs_of_history`), and then nobody is told again.

Both sides of this count the same events. An operation adds a barren block just where closing the
region is refused and it does close it, by whichever of the two ways; it leaves a report just where
closing is refused and it was the dropping. The rest is one induction for either count.

Variables that are allocated in between make no difference. Whether a binding is an output is
answered when its region closes, from the variables that there are by then, and it stays so, since a
builder never accepts a binding of a variable that is still to come (`Builder.Bound`). Only a block
that is pushed from outside could hold one, so there must be none in the history.
-/

namespace TensorIR

/-- Whether a binding is an output does not depend on variables that come later. -/
theorem Binding.isOutput_grown {vars vars' : List VarInfo} {x : Binding} (grown : vars <+: vars')
    (bound : ∀ v ∈ x.defined?, v.index < vars.length) : x.IsOutput vars' ↔ x.IsOutput vars := by
  obtain ⟨more, rfl⟩ := grown
  cases x with
  | define v value => simp only [IsOutput, getElem?_grown (bound v rfl)]
  | matchShape _ _ _ => exact Iff.rfl

/-- A region of which nothing is visible after it. -/
def Block.Barren (vars : List VarInfo) (block : Block) : Prop :=
  block.kind = .dataflow ∧ ∀ x ∈ block.bindings, ¬ x.IsOutput vars

namespace Builder

variable {b b' : Builder} {a : Action} {actions : List Action}

/-! ### Variables of a history -/

theorem Action.Binds.vars_eq {value : Expr} (binds : a.Binds b value) :
    ∃ info, (b.perform a).1.vars = b.vars ++ [info] := by
  obtain ⟨_, _, _, _, performed⟩ := binds
  rw [performed]
  exact ⟨_, rfl⟩

theorem vars_dropRegion (b : Builder) : b.dropRegion.vars = b.vars := by
  rw [dropRegion, ← vars_closeRegion b]
  rcases b.closeRegion with ⟨closed, answer⟩
  cases answer <;> rfl

theorem vars_of_openRegion (opened : b.openRegion = .ok b') : b'.vars = b.vars :=
  (openRegion_eq_ok opened).2.1

theorem vars_of_pushBlock {block : Block} (pushed : b.pushBlock block = .ok b') :
    b'.vars = b.vars := by
  rw [pushBlock] at pushed
  split at pushed
  · cases pushed
  · split at pushed
    · cases pushed
    · cases pushed
      exact vars_endBlock b .plain

theorem vars_refusable {result : Except BuildError Builder}
    (same : ∀ b', result = .ok b' → b'.vars = b.vars) : (refusable b result).1.vars = b.vars :=
  refusable_fst (P := fun b' => b'.vars = b.vars) rfl same

theorem vars_emitOutput_outside {value : Expr} (outside : b.inDataflow = false) :
    (b.perform (.emitOutput value)).1.vars = b.vars := by
  simp [perform, emitOutput, outside]

/-- No operation takes a variable away or changes what is recorded of one. -/
theorem vars_prefix_perform (b : Builder) (a : Action) : b.vars <+: (b.perform a).1.vars := by
  have same {vars : List VarInfo} (eq : vars = b.vars) : b.vars <+: vars := eq ▸ List.prefix_rfl
  have grown {value : Expr} (binds : a.Binds b value) : b.vars <+: (b.perform a).1.vars := by
    obtain ⟨info, vars⟩ := binds.vars_eq
    rw [vars]
    exact List.prefix_append _ _
  cases a with
  | param _ _ _ | fresh _ => exact List.prefix_append _ _
  | dimVar _ | setRetTy _ => exact List.prefix_rfl
  | openRegion => exact same (vars_refusable fun b' => vars_of_openRegion)
  | closeRegion =>
      rw [(perform_closeRegion b).1]
      exact same (vars_closeRegion b)
  | dropRegion => exact same (vars_dropRegion b)
  | sealBlock => exact same (vars_sealBlock b)
  | emit value => exact grown (binds_emit b value)
  | emitNamed name value => exact grown (binds_emitNamed b name value)
  | emitOutput value =>
      cases place : b.inDataflow with
      | true => exact grown (binds_emitOutput value place)
      | false => exact same (vars_emitOutput_outside place)
  | bind v value =>
      refine same (vars_refusable fun b' bound => ?_)
      rw [bind_eq_ok_append bound]
      rfl
  | push x =>
      refine same (vars_refusable fun b' pushed => ?_)
      rw [push_eq_ok_append pushed]
      rfl
  | pushBlock block => exact same (vars_refusable fun b' => vars_of_pushBlock)

/-- All variables that are bound are allocated. -/
def Bound (b : Builder) : Prop := ∀ x ∈ b.bindings, ∀ v ∈ x.defined?, v.index < b.vars.length

theorem bound_accepted_push {x : Binding} :
    ∀ y ∈ (Action.push x).accepted b, ∀ v ∈ y.defined?, v.index < b.vars.length := by
  cases pushed : b.push x with
  | error e => simp [Action.accepted, perform, pushed, refusable]
  | ok b' =>
      have accepted := (push_eq_ok_iff.1 pushed).1.annotated
      simp only [Action.accepted, perform, pushed, refusable, List.mem_singleton, forall_eq]
      exact fun v => accepted.allocated

theorem accepted_bind (b : Builder) (v : Var) (value : Expr) :
    (Action.bind v value).accepted b = (Action.push (.define v value)).accepted b := by
  simp only [Action.accepted, perform, push]
  cases b.bind v value <;> rfl

/-- A whole block aside, what is accepted binds a variable that there is by then. -/
theorem bound_accepted (emits : ∀ block, a ≠ .pushBlock block) :
    ∀ x ∈ a.accepted b, ∀ v ∈ x.defined?, v.index < (b.perform a).1.vars.length := by
  have le := (vars_prefix_perform b a).length_le
  have new {value : Expr} (binds : a.Binds b value)
      (accepted : a.accepted b = [.define ⟨b.vars.length⟩ (value.annotate b.vars)]) :
      ∀ x ∈ a.accepted b, ∀ v ∈ x.defined?, v.index < (b.perform a).1.vars.length := by
    obtain ⟨info, vars⟩ := binds.vars_eq
    rw [accepted, vars]
    simp [Binding.defined?]
  cases a with
  | param _ _ _ | dimVar _ | fresh _ | setRetTy _ | closeRegion | openRegion | dropRegion
  | sealBlock => exact List.forall_mem_nil _
  | emit value => exact new (binds_emit b value) (accepted_emit b value)
  | emitNamed name value => exact new (binds_emitNamed b name value) rfl
  | emitOutput value =>
      cases place : b.inDataflow with
      | true => exact new (binds_emitOutput value place) (accepted_emitOutput value place)
      | false => simp [Action.accepted, perform, emitOutput, place]
  | bind v value =>
      intro x mem u defines
      rw [accepted_bind] at mem
      exact (bound_accepted_push x mem u defines).trans_le le
  | push x =>
      intro y mem u defines
      exact (bound_accepted_push y mem u defines).trans_le le
  | pushBlock block => exact absurd rfl (emits block)

theorem Bound.perform (bound : b.Bound) (emits : ∀ block, a ≠ .pushBlock block) :
    (b.perform a).1.Bound := by
  intro x mem v defines
  rw [bindings_perform] at mem
  cases List.mem_append.1 mem with
  | inl old =>
      have le := (vars_prefix_perform b a).length_le
      have := bound x old v defines
      omega
  | inr new => exact bound_accepted emits x new v defines

/-! ### Regions without an output -/

/-- Closing a region is refused if it has bindings and none of them is an output. -/
theorem closeRegion_refused : b.closeRegion.2 ≠ .ok () ↔
    b.pending ≠ [] ∧ Block.Barren b.vars ⟨b.blockKind, b.pending⟩ := by
  rw [closeRegion, blockKind, Block.Barren]
  cases b.inDataflow with
  | false => simp
  | true => simp [← isOutput_iff, List.isEmpty_iff]

/-- Something that has been closed is barren. -/
def Barren (b : Builder) : Prop := ∃ block ∈ b.blocks, block.Barren b.vars

theorem barren_endBlock :
    (b.endBlock b.blockKind).Barren ↔ b.Barren ∨ b.closeRegion.2 ≠ .ok () := by
  rw [closeRegion_refused, Barren, Barren, vars_endBlock]
  cases pending : b.pending with
  | nil => simp [endBlock_of_empty, pending]
  | cons x xs => simp [endBlock_of_nonempty, pending, or_and_right, exists_or]

/-- The operation closes a region, or would do so if one were open. -/
def Action.Closes (a : Action) : Prop := a = .closeRegion ∨ a = .dropRegion

/-- What ends a block inside of a region closes the region. -/
theorem closes_of_endsBlock (inside : b.inDataflow = true) (ends : a.endsBlock b = true) :
    a.Closes := by
  cases a with
  | closeRegion => exact .inl rfl
  | dropRegion => exact .inr rfl
  | openRegion => simp [Action.endsBlock, perform, openRegion, inside, refusable] at ends
  | sealBlock => simp [Action.endsBlock, inside] at ends
  | pushBlock block => simp [Action.endsBlock, perform, pushBlock, inside, refusable] at ends
  | _ => cases ends

theorem endsBlock_of_closes (inside : b.inDataflow = true) (closes : a.Closes) :
    a.endsBlock b = true := by
  cases closes with
  | inl close => rw [close, Action.endsBlock, inside]
  | inr drop => rw [drop, Action.endsBlock, inside]

theorem inside_of_refused (refused : b.closeRegion.2 ≠ .ok ()) : b.inDataflow = true := by
  have kind := (closeRegion_refused.1 refused).2.1
  simpa [blockKind] using kind

/-- Whether something is barren does not change while variables are allocated. -/
theorem barren_congr (bound : b.Bound) (grown : b.vars <+: b'.vars) (same : b'.blocks = b.blocks) :
    b'.Barren ↔ b.Barren := by
  rw [Barren, Barren, same]
  refine exists_congr fun block => and_congr_right fun inBlocks => and_congr_right fun _ => ?_
  refine forall₂_congr fun x mem => not_congr (Binding.isOutput_grown grown (bound x ?_))
  exact List.mem_append_left _ (List.mem_flatMap.2 ⟨block, inBlocks, mem⟩)

/-- An operation leaves a barren region just where it closes a region and this is refused. -/
theorem barren_perform (bound : b.Bound) (emits : ∀ block, a ≠ .pushBlock block) :
    (b.perform a).1.Barren ↔ b.Barren ∨ a.Closes ∧ b.closeRegion.2 ≠ .ok () := by
  have grown := vars_prefix_perform b a
  have quiet (within : a.endsBlock b = false) : ¬ (a.Closes ∧ b.closeRegion.2 ≠ .ok ()) := by
    intro ⟨closes, refused⟩
    rw [endsBlock_of_closes (inside_of_refused refused) closes] at within
    cases within
  cases b.effect a with
  | idle blocks pending region within accepted =>
      rw [barren_congr bound grown blocks, iff_self_or]
      exact fun refused => absurd refused (quiet within)
  | append x blocks pending region within accepted kind =>
      -- What is appended is in no block yet.
      rw [barren_congr bound grown blocks, iff_self_or]
      exact fun refused => absurd refused (quiet within)
  | ended blocks pending ends accepted =>
      have ended : (b.endBlock b.blockKind).Bound := by simpa [Bound] using bound
      rw [barren_congr ended (by simpa using grown) blocks, barren_endBlock]
      refine or_congr_right ⟨fun refused => ⟨?_, refused⟩, And.right⟩
      exact closes_of_endsBlock (inside_of_refused refused) ends
  | added block blocks pending ends nonempty accepted whole => exact absurd whole (emits block)

/-- An operation leaves a report just where it drops a region and closing this is refused. -/
theorem reported_perform : (b.perform a).1.deferred ≠ none ↔
    b.deferred ≠ none ∨ a = .dropRegion ∧ b.closeRegion.2 ≠ .ok () := by
  by_cases drops : a = .dropRegion
  · subst drops
    have same := deferred_closeRegion b
    simp only [perform, dropRegion, ← same]
    rcases b.closeRegion with ⟨closed, answer⟩
    cases answer with
    | ok _ => simp
    | error e => cases deferred : closed.deferred <;> simp [deferred]
  · simp [deferred_perform drops, drops]

/-! ### Histories without whole blocks -/

/-- What a single kind of event brings about, and nothing takes away, holds in the end if it held at
first or there was such an event. -/
theorem performAll_iff {P : Builder → Prop} {brings : Builder → Action → Prop}
    (step : ∀ {b a}, b.Bound → (∀ block, a ≠ .pushBlock block) →
      (P (b.perform a).1 ↔ P b ∨ brings b a))
    (bound : b.Bound) (emits : ∀ block, .pushBlock block ∉ actions) (n : Nat) :
    P (b.performAll actions) ↔
      P b ∨ ∃ e ∈ b.eventsFrom n actions, brings e.before e.action := by
  induction actions generalizing b n with
  | nil => simp [eventsFrom, performAll]
  | cons a actions ih =>
      have here : ∀ block, a ≠ .pushBlock block := fun block same => emits block (by simp [same])
      have later : ∀ block, .pushBlock block ∉ actions := fun block mem =>
        emits block (List.mem_cons_of_mem a mem)
      have rest := ih (bound.perform here) later (n + 1)
      rw [step bound here] at rest
      simp only [performAll, List.foldl_cons, eventsFrom, List.mem_cons, or_and_right, exists_or,
        exists_eq_left] at rest ⊢
      rw [rest, or_assoc]

theorem Initial.bound (initial : b.Initial) : b.Bound := by
  cases initial <;> exact nofun

theorem Initial.not_barren (initial : b.Initial) : ¬ b.Barren := by
  cases initial <;> exact nofun

theorem Initial.unreported (initial : b.Initial) : b.deferred = none := by
  cases initial <;> rfl

theorem perform_closeRegion_done :
    (b.perform .closeRegion).2 = .done ↔ b.closeRegion.2 = .ok () := by
  rw [perform]
  rcases b.closeRegion with ⟨closed, answer⟩
  cases answer <;> simp

/-- What is handed out is barren where the builder was. -/
theorem barren_finish {body : Expr} {f : Function} (finished : b.finish body = .ok f) :
    (∃ block ∈ f.blocks, block.Barren f.vars) ↔ b.Barren := by
  have closed := (finish_eq_ok_iff.1 finished).1
  have vars := (finish_eq_ok finished).2.2.1
  have ended := barren_endBlock (b := b)
  rw [Barren, vars_endBlock, ← blocks_finish finished, ← vars] at ended
  rw [ended, or_iff_left (not_not.2 closed)]

/-- A function that is handed out, and had no block pushed from outside, has an output in every
region if and only if closing a region was never refused on the spot. -/
theorem outputs_of_history {body : Expr} {f : Function} (initial : b.Initial)
    (emits : ∀ block, .pushBlock block ∉ actions)
    (finished : (b.performAll actions).finish body = .ok f) :
    (∀ block ∈ f.blocks, block.kind = .dataflow → ∃ x ∈ block.bindings, x.IsOutput f.vars) ↔
      ∀ e ∈ b.events actions, e.action = .closeRegion → (e.before.perform e.action).2 = .done := by
  have unreported : (b.performAll actions).deferred = none := by
    rw [← deferred_closeRegion]
    exact (finish_eq_ok_iff.1 finished).2.1
  have dropped : ¬ ∃ e ∈ b.events actions, e.action = .dropRegion ∧
      e.before.closeRegion.2 ≠ .ok () := by
    have reported := performAll_iff (P := fun b => b.deferred ≠ none)
      (fun _ _ => reported_perform) initial.bound emits 0
    simpa [unreported, initial.unreported, events] using reported
  have barren : (∃ block ∈ f.blocks, block.Barren f.vars) ↔
      ∃ e ∈ b.events actions, e.action = .closeRegion ∧ e.before.closeRegion.2 ≠ .ok () := by
    rw [barren_finish finished, performAll_iff barren_perform initial.bound emits 0,
      or_iff_right initial.not_barren]
    simp only [Action.Closes, or_and_right, and_or_left, exists_or]
    exact or_iff_left dropped
  calc (∀ block ∈ f.blocks, block.kind = .dataflow → ∃ x ∈ block.bindings, x.IsOutput f.vars)
      ↔ ¬ ∃ block ∈ f.blocks, block.Barren f.vars := by simp [Block.Barren]
    _ ↔ ∀ e ∈ b.events actions, e.action = .closeRegion → e.before.closeRegion.2 = .ok () := by
      simp [barren]
    _ ↔ _ := by
      refine forall₂_congr fun e mem => forall_congr' fun closes => ?_
      rw [closes, perform_closeRegion_done]

/-- A history in which every region has an output: one is closed, one is dropped, and one is left
for the end. -/
def closing : List Action :=
  [.param "x" (some [.int 2]) none, .openRegion, .emit (.ofOp .add [.var ⟨0⟩, .var ⟨0⟩]),
    .emitOutput (.ofOp .add [.var ⟨1⟩, .var ⟨1⟩]), .closeRegion, .emitOutput (.var ⟨2⟩),
    .openRegion, .push (.matchShape none (.var ⟨2⟩) [.int 2]), .dropRegion,
    .openRegion, .emitOutput (.var ⟨2⟩)]

/-- The function that the history builds, once its open region is closed. -/
def closed : Function :=
  (({ name := "main" } : Builder).performAll closing).closeRegion.1.toFunction (.var ⟨3⟩)

theorem outputs_of_history_closed :
    (performAll { name := "main" } closing).finish (.var ⟨3⟩) = .ok closed ∧
      closed.blocks.map Block.kind = [.dataflow, .dataflow, .dataflow] ∧
      ∀ block ∈ closed.blocks, block.kind = .dataflow →
        ∃ x ∈ block.bindings, x.IsOutput closed.vars := by
  have finished : (performAll { name := "main" } closing).finish (.var ⟨3⟩) = .ok closed := by
    decide +kernel
  have outputs := outputs_of_history (.new "main") (by simp [closing]) finished
  exact ⟨finished, by decide +kernel, outputs.2 (by decide +kernel)⟩

/-- The one binding of the region is not visible after it, closing the region says so, and the
function is handed out with it all the same. -/
def leaving : List Action :=
  [.param "x" none none, .openRegion, .emit (.var ⟨0⟩), .closeRegion]

/-- The function that the history builds all the same. -/
def left : Function :=
  (({ name := "main" } : Builder).performAll leaving).toFunction (.var ⟨0⟩)

theorem left_without_output :
    (∀ block, .pushBlock block ∉ leaving) ∧
      (performAll { name := "main" } leaving).finish (.var ⟨0⟩) = .ok left ∧
      ∃ block ∈ left.blocks, block.kind = .dataflow ∧
        ¬ ∃ x ∈ block.bindings, x.IsOutput left.vars := by
  refine ⟨by simp [leaving], by decide +kernel, _, .head _, rfl, ?_⟩
  rintro ⟨x, mem, output⟩
  cases List.mem_singleton.1 mem
  obtain ⟨info, ⟨⟩, plain⟩ := output
  cases plain

end Builder

end TensorIR
