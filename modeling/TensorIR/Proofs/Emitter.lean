import TensorIR.Lowering.Emitter
import TensorIR.Proofs.Emission

/-!
# Invariants of lowering binding by binding

An emitter is run on the bindings of a function one after the other, and blocks only come and go
around it. An invariant of what it has remembered and emitted, given the bindings it has seen, may
say one thing in a block and another between blocks (`Emitter.Invariant`). Where it does not look at
blocks, all there is to show about a pass is that each single emission keeps it
(`Emitter.emitBlocks_invariant`).
-/

namespace TensorIR

namespace Emitter

variable {σ : Type} {emit : Emitter σ} {enter : σ → σ} {function : String}
  {holds : List Binding → σ → Builder → Prop} {all done rest : List Binding} {s s' : σ}
  {b b' : Builder} {position : Nat}

/-- Each emission keeps the invariant. `all` are the bindings of the function. -/
def Keeps (emit : Emitter σ) (all : List Binding) (holds : List Binding → σ → Builder → Prop) :
    Prop :=
  ∀ {done x rest position s b s' b'}, all = done ++ x :: rest → holds done s b →
    emit position x s b = .ok (s', b') → holds (done ++ [x]) s' b'

/-- The invariant does not look at blocks. -/
def IgnoresBlocks (holds : List Binding → σ → Builder → Prop) : Prop :=
  ∀ {done s b b'}, b'.bindings = b.bindings → b'.vars = b.vars → b'.params = b.params →
    holds done s b → holds done s b'

theorem emitBindings_invariant {xs : List Binding} (keeps : emit.Keeps all holds)
    (split : all = done ++ xs ++ rest) (h : holds done s b)
    (emitted : emit.emitBindings position xs s b = .ok (s', b')) : holds (done ++ xs) s' b' := by
  induction xs generalizing done position s b with
  | nil =>
      cases emitted
      rw [List.append_nil]
      exact h
  | cons x xs ih =>
      rw [emitBindings] at emitted
      obtain ⟨⟨mid, bmid⟩, head, tail⟩ := bind_eq_ok.1 emitted
      have split' : all = (done ++ [x]) ++ xs ++ rest := by
        rw [split]
        simp
      have next := ih split' (keeps (split.trans (List.append_assoc _ _ _)) h head) tail
      rw [List.append_assoc] at next
      exact next

/-- An invariant of an emitter and of the blocks around it: `outer` holds between blocks, `inner` in
a block of the given kind. -/
structure Invariant (emit : Emitter σ) (enter : σ → σ) (all : List Binding)
    (outer : List Binding → σ → Builder → Prop)
    (inner : BlockKind → List Binding → σ → Builder → Prop) : Prop where
  step : ∀ kind, emit.Keeps all (inner kind)
  openRegion : ∀ {done s b b'}, outer done s b → b.openRegion = .ok b' →
    inner .dataflow done (enter s) b'
  closeRegion : ∀ {done s b}, inner .dataflow done s b → b.closeRegion.2 = .ok () →
    outer done s b.closeRegion.1
  openPlain : ∀ {done s b}, outer done s b → inner .plain done (enter s) b
  sealBlock : ∀ {done s b}, inner .plain done s b → outer done s b.sealBlock

namespace Invariant

variable {outer : List Binding → σ → Builder → Prop}
  {inner : BlockKind → List Binding → σ → Builder → Prop}

theorem emitBlock {block : Block} (invariant : emit.Invariant enter all outer inner)
    (split : all = done ++ block.bindings ++ rest) (h : outer done s b)
    (emitted : emit.emitBlock function position block (enter s) b = .ok (s', b')) :
    outer (done ++ block.bindings) s' b' := by
  rw [Emitter.emitBlock] at emitted
  split at emitted
  · obtain ⟨opened, opening, emitted⟩ := bind_eq_ok.1 emitted
    have entered := invariant.openRegion h (building_eq_ok.1 opening)
    obtain ⟨⟨mid, bmid⟩, inside, emitted⟩ := bind_eq_ok.1 emitted
    obtain ⟨closed, emitted⟩ := check_bind_eq_ok.1 emitted
    cases emitted
    exact invariant.closeRegion
      (emitBindings_invariant (invariant.step .dataflow) split entered inside)
      (building_eq_ok.1 closed)
  · obtain ⟨⟨mid, bmid⟩, inside, emitted⟩ := bind_eq_ok.1 emitted
    cases emitted
    exact invariant.sealBlock
      (emitBindings_invariant (invariant.step .plain) split (invariant.openPlain h) inside)

theorem emitBlocks {blocks : List Block} (invariant : emit.Invariant enter all outer inner)
    (split : all = done ++ blocks.flatMap Block.bindings) (h : outer done s b)
    (emitted : emit.emitBlocks enter function position blocks s b = .ok (s', b')) :
    outer all s' b' := by
  induction blocks generalizing done position s b with
  | nil =>
      cases emitted
      rw [List.flatMap_nil, List.append_nil] at split
      rw [split]
      exact h
  | cons block blocks ih =>
      rw [Emitter.emitBlocks] at emitted
      obtain ⟨⟨mid, bmid⟩, head, tail⟩ := bind_eq_ok.1 emitted
      rw [List.flatMap_cons, ← List.append_assoc] at split
      exact ih split (invariant.emitBlock split h head) tail

end Invariant

/-- An invariant that each emission keeps, and that neither blocks nor what is done on entering one
disturb, holds of the whole. -/
theorem emitBlocks_invariant {blocks : List Block} (keeps : emit.Keeps all holds)
    (ignores : IgnoresBlocks holds)
    (entering : ∀ {done s b}, holds done s b → holds done (enter s) b)
    (split : all = done ++ blocks.flatMap Block.bindings) (h : holds done s b)
    (emitted : emit.emitBlocks enter function position blocks s b = .ok (s', b')) :
    holds all s' b' := by
  have invariant : emit.Invariant enter all holds fun _ => holds := {
    step := fun _ => keeps
    openRegion := fun h opened => by
      obtain ⟨bindings, vars, params⟩ := Builder.openRegion_eq_ok opened
      exact ignores bindings vars params (entering h)
    closeRegion := fun h _ => ignores (Builder.bindings_closeRegion _)
      (Builder.vars_closeRegion _) (Builder.params_closeRegion _) h
    openPlain := entering
    sealBlock := fun h => ignores (Builder.bindings_sealBlock _) (Builder.vars_sealBlock _)
      (Builder.params_sealBlock _) h }
  exact invariant.emitBlocks split h emitted

end Emitter

theorem map_unit_eq_ok {x : Lowered Builder} {b : Builder} :
    ((fun b => ((), b)) <$> x : Lowered (Unit × Builder)) = .ok ((), b) ↔ x = .ok b := by
  cases x with
  | error e => exact ⟨nofun, nofun⟩
  | ok b₁ => exact ⟨fun h => by cases h; rfl, fun h => by cases h; rfl⟩

namespace Function

variable {f g : Function} {emit : Nat → Binding → Builder → Lowered Builder}
  {holds : List Binding → Builder → Prop}

/-- A function whose bindings are replaced one by one is what a builder hands out of which every
invariant of the replacement holds. -/
theorem replaceBindings_invariant
    (keeps : ∀ {done x rest position b b'}, f.bindings = done ++ x :: rest → holds done b →
      emit position x b = .ok b' → holds (done ++ [x]) b')
    (ignores : ∀ {done b b'}, b'.bindings = b.bindings → b'.vars = b.vars →
      b'.params = b.params → holds done b → holds done b')
    (start : holds [] (.reopen f)) (replaced : f.replaceBindings emit = .ok g) :
    ∃ b, holds f.bindings b ∧ b.finish f.body = .ok g := by
  simp only [replaceBindings] at replaced
  obtain ⟨⟨⟨⟩, b⟩, emitted, finished⟩ := bind_eq_ok.1 replaced
  -- There is nothing to remember, so the invariant is one of the builder only.
  let invariant : List Binding → Unit → Builder → Prop := fun done _ b => holds done b
  have last : invariant f.bindings () b := by
    refine Emitter.emitBlocks_invariant ?_ ignores id (List.nil_append _).symm start emitted
    rintro done x rest position ⟨⟩ b ⟨⟩ b' split h one
    exact keeps split h (map_unit_eq_ok.1 one)
  exact ⟨b, last, building_eq_ok.1 finished⟩

end Function

end TensorIR
