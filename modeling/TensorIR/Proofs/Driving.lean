import TensorIR.Pipeline
import TensorIR.Proofs.Demotion
import TensorIR.Proofs.Emitter
import TensorIR.Proofs.Fusion.Steps
import TensorIR.Proofs.ShapeHeap.Loads

/-!
# What passes do to a builder

Every pass reopens a function, puts the builder through a handful of operations and lets it finish:
it emits a binding as it is or allocates a variable, with a binding for it or without, and around
that regions open and close and blocks are sealed. Which operation is next, and with what values,
differs from pass to pass. A property that all of them keep whatever the values are (`Builder.Kept`)
therefore holds of what each pass has emitted, and the passes need to be looked at only once.
-/

namespace TensorIR

/-- A property that every operation keeps by which a pass drives a builder. -/
structure Builder.Kept (P : Builder → Prop) : Prop where
  push : ∀ {b b' x}, P b → b.push x = .ok b' → P b'
  fresh : ∀ {b} (info : VarInfo), P b → P (b.fresh info).1
  emitNamed : ∀ {b} (name : String) (value : Expr), P b → P (b.emitNamed name value).1
  openRegion : ∀ {b b'}, P b → b.openRegion = .ok b' → P b'
  closeRegion : ∀ {b}, P b → b.closeRegion.2 = .ok () → P b.closeRegion.1
  sealBlock : ∀ {b}, P b → P b.sealBlock

namespace Builder.Kept

variable {P : Builder → Prop} (kept : Kept P)
include kept

theorem bind {b b' : Builder} {v : Var} {value : Expr} (h : P b) (bound : b.bind v value = .ok b') :
    P b' :=
  kept.push (x := .define v value) h bound

/-! ### Passes that emit binding by binding -/

theorem emitBlocks {σ : Type} {emit : Emitter σ} {enter : σ → σ} {function : String}
    {position : Nat} {blocks : List Block} {s s' : σ} {b b' : Builder}
    (keeps : ∀ {position x s b s' b'}, P b → emit position x s b = .ok (s', b') → P b') (h : P b)
    (emitted : emit.emitBlocks enter function position blocks s b = .ok (s', b')) : P b' := by
  have invariant : emit.Invariant enter (blocks.flatMap Block.bindings) (fun _ _ b => P b)
      fun _ _ _ b => P b := {
    step := fun _ _ _ _ _ _ _ _ _ _ h emitted => keeps h emitted
    openRegion := kept.openRegion
    closeRegion := kept.closeRegion
    openPlain := id
    sealBlock := kept.sealBlock }
  exact invariant.emitBlocks (List.nil_append _).symm h emitted

theorem replaceBindings {f g : Function} {emit : Nat → Binding → Builder → Lowered Builder}
    (keeps : ∀ {position x b b'}, P b → emit position x b = .ok b' → P b') (start : P (.reopen f))
    (replaced : f.replaceBindings emit = .ok g) : ∃ b body, P b ∧ b.finish body = .ok g := by
  obtain ⟨⟨⟨⟩, b⟩, emitted, finished⟩ := bind_eq_ok.1 replaced
  have last := kept.emitBlocks (fun h one => keeps h (map_unit_eq_ok.1 one)) start emitted
  exact ⟨b, f.body, last, building_eq_ok.1 finished⟩

theorem emitter {f : Function} {x : Binding} {s s' : Fusion} {b b' : Builder} {position : Nat}
    (h : P b) (emitted : Fusion.emitter f position x s b = .ok (s', b')) : P b' := by
  cases Fusion.emission_of_emitter emitted with
  | kept pushed _ => exact kept.push h pushed
  | product _ _ _ pushed => exact kept.push h pushed
  | inPlace _ _ _ bound => exact kept.bind h bound
  | renamed _ _ _ bound => exact kept.bind (kept.fresh _ h) bound

theorem emitBinding {f : Function} {kind : BlockKind} {x : Binding} {ρ ρ' : Renaming}
    {b b' : Builder} (h : P b) (emitted : Demotion.emitBinding f kind x ρ b = .ok (ρ', b')) :
    P b' := by
  simp only [Demotion.emitBinding] at emitted
  obtain ⟨-, emitted⟩ := check_bind_eq_ok.1 emitted
  split at emitted
  · obtain ⟨b₁, pushed, same⟩ := bind_eq_ok.1 emitted
    cases same
    exact kept.push h (building_eq_ok.1 pushed)
  · obtain ⟨info, -, emitted⟩ := bind_eq_ok.1 emitted
    split at emitted
    · obtain ⟨b₁, pushed, same⟩ := bind_eq_ok.1 emitted
      cases same
      exact kept.push (kept.fresh _ h) (building_eq_ok.1 pushed)
    · obtain ⟨-, emitted⟩ := guard_eq_ok.1 emitted
      obtain ⟨b₁, pushed, same⟩ := bind_eq_ok.1 emitted
      cases same
      exact kept.push h (building_eq_ok.1 pushed)

section

variable {f g : Function} (start : P (.reopen f))
include start

theorem fuse (fused : f.fuse = .ok g) : ∃ b body, P b ∧ b.finish body = .ok g := by
  obtain ⟨⟨s, b⟩, emitted, finished⟩ := bind_eq_ok.1 fused
  exact ⟨b, _, kept.emitBlocks kept.emitter start emitted, building_eq_ok.1 finished⟩

theorem demote (demoted : f.demote = .ok g) : ∃ b body, P b ∧ b.finish body = .ok g := by
  obtain ⟨⟨ρ, b⟩, emitted, h⟩ := bind_eq_ok.1 demoted
  obtain ⟨-, finished⟩ := check_bind_eq_ok.1 h
  let invariant : List Binding → Renaming → Builder → Prop := fun _ _ b => P b
  have last : invariant f.bindings ρ b := Demotion.emitBlocks_invariant
    (fun _ h one => kept.emitBinding h one) kept.sealBlock (List.nil_append _).symm start emitted
  exact ⟨b, _, last, building_eq_ok.1 finished⟩

theorem allocateOutputs (allocated : f.allocateOutputs = .ok g) :
    ∃ b body, P b ∧ b.finish body = .ok g := by
  refine kept.replaceBindings (fun {position x b b'} h emitted => ?_) start allocated
  split at emitted
  · obtain ⟨call, -, emitted⟩ := bind_eq_ok.1 emitted
    obtain ⟨info, -, emitted⟩ := bind_eq_ok.1 emitted
    obtain ⟨b₁, bound, same⟩ := bind_eq_ok.1 emitted
    cases same
    exact kept.emitNamed _ _ (kept.bind h (building_eq_ok.1 bound))
  · exact kept.push h (building_eq_ok.1 emitted)

theorem placeTensors {target : StorageTarget} (placed : f.placeTensors target = .ok g) :
    ∃ b body, P b ∧ b.finish body = .ok g := by
  refine kept.replaceBindings (fun {position x b b'} h emitted => ?_) start placed
  split at emitted
  · obtain ⟨⟨shape, elem⟩, -, bound⟩ := bind_eq_ok.1 emitted
    exact kept.bind (kept.emitNamed _ _ h) (building_eq_ok.1 bound)
  · obtain ⟨call, -, bound⟩ := bind_eq_ok.1 emitted
    exact kept.bind h (building_eq_ok.1 bound)
  · exact kept.push h (building_eq_ok.1 emitted)

end

end Builder.Kept

/-! ### Shapes on a heap -/

namespace ShapeHeap.State

/-- A property that every operation keeps by which lowering drives a state, where the variables that
it binds anew are all among the own ones. -/
structure Kept (cx : Context) (own : Var → Prop) (P : State → Prop) : Prop where
  query : ∀ {st} (tensor : Expr), P st → P (st.queryShape tensor).1
  store : ∀ {st} (shape : Expr) (new : List (Nat × DimVar)), P st → P (st.store cx shape new)
  load : ∀ {st st' s v}, P st → st.load cx s = .ok (st', v) → P st'
  bind : ∀ {st st' v value}, own v → P st → st.bind cx v value = .ok st' → P st'
  sealBlock : ∀ {st}, P st → P { st with builder := st.builder.sealBlock }

namespace Kept

variable {own : Var → Prop} {P : State → Prop}

section

variable {cx : Context} {st st' : State} (kept : Kept cx own P) (h : P st)
include kept h

theorem loadAll {ss : List Shape} {vs : List Var}
    (loaded : State.loadAll cx ss st = .ok (st', vs)) :
    P st' := by
  induction ss generalizing st vs with
  | nil =>
      cases loaded
      exact h
  | cons s ss ih =>
      obtain ⟨⟨mid, v⟩, head, loaded⟩ := bind_eq_ok.1 loaded
      obtain ⟨⟨last, vs'⟩, tail, loaded⟩ := bind_eq_ok.1 loaded
      cases loaded
      exact ih (kept.load h head) tail

theorem lowerExpr {e e' : Expr} (lowered : State.lowerExpr cx e st = .ok (st', e')) : P st' := by
  rw [lowerExpr_eq] at lowered
  obtain ⟨⟨last, vs⟩, loaded, same⟩ := bind_eq_ok.1 lowered
  cases same
  exact kept.loadAll h loaded

theorem storePattern (value : Expr) (pattern : Shape) : P (st.storePattern cx value pattern) := by
  rw [State.storePattern]
  split
  · exact h
  · split
    · exact kept.store _ _ h
    · exact kept.store _ _ (kept.query _ h)

theorem storeParam {v : Var} (stored : st.storeParam cx v = .ok st') : P st' := by
  obtain ⟨info, -, stored⟩ := bind_eq_ok.1 stored
  split at stored
  · cases stored
    exact h
  · cases stored
    exact kept.store _ _ (kept.query _ h)

theorem lowerBinding {x : Binding} (owns : ∀ v ∈ x.defined?, own v)
    (lowered : st.lowerBinding cx x = .ok st') : P st' := by
  obtain ⟨-, lowered⟩ := check_bind_eq_ok.1 lowered
  obtain ⟨⟨mid, value⟩, inner, lowered⟩ := bind_eq_ok.1 lowered
  have loaded := kept.lowerExpr h inner
  cases x with
  | define v e => exact kept.bind (owns v rfl) loaded lowered
  | matchShape v? e pattern =>
      have stored := kept.storePattern loaded value pattern
      cases v? with
      | some v => exact kept.bind (owns v rfl) stored lowered
      | none =>
          cases lowered
          exact stored

end

theorem lower {f g : Function} {layout : HeapLayout} {shapeFunction : Option String}
    (kept : Kept ⟨f, layout, shapeFunction, (start f layout).2⟩ own P)
    (owns : ∀ x ∈ f.bindings, ∀ v ∈ x.defined?, own v) (begin : P (start f layout).1)
    (lowered : ShapeHeap.lower f layout shapeFunction = .ok g) :
    ∃ st body, P st ∧ st.builder.finish body = .ok g := by
  obtain ⟨st₁, params, lowered⟩ := bind_eq_ok.1 lowered
  obtain ⟨st₂, bindings, lowered⟩ := bind_eq_ok.1 lowered
  obtain ⟨⟨st₃, body⟩, ofBody, finished⟩ := bind_eq_ok.1 lowered
  have h₁ := foldlM_keeps (fun _ h one => kept.storeParam h one) begin params
  have h₂ := foldlM_keeps (fun mem h one => kept.lowerBinding h (owns _ mem) one) h₁ bindings
  have h₃ := kept.lowerExpr (kept.sealBlock h₂) ofBody
  exact ⟨st₃, body, h₃, building_eq_ok.1 finished⟩

end Kept

end ShapeHeap.State

namespace Builder.Kept

variable {P : Builder → Prop} (kept : Kept P)
include kept

/-- What a builder keeps, the state that it is part of keeps, whatever variables are bound. -/
theorem state (cx : ShapeHeap.Context) :
    ShapeHeap.State.Kept cx (fun _ => True) fun st => P st.builder where
  query _ h := kept.emitNamed _ _ h
  store _ _ h := kept.emitNamed _ _ h
  load {st st' s v} h loaded := by
    rw [ShapeHeap.State.load] at loaded
    split at loaded
    · obtain ⟨_, _, thrown⟩ := bind_eq_ok.1 loaded
      cases thrown
    · cases loaded
      refine kept.emitNamed _ _ ?_
      split
      · rw [ShapeHeap.State.refresh]
        split
        · exact h
        · exact kept.emitNamed _ _ (kept.sealBlock h)
      · exact h
  bind _ h bound := by
    obtain ⟨b, built, same⟩ := bind_eq_ok.1 bound
    cases same
    exact kept.bind h (building_eq_ok.1 built)
  sealBlock h := kept.sealBlock h

theorem lower {f g : Function} (start : P (.reopen f)) {layout : HeapLayout}
    {shapeFunction : Option String} (lowered : ShapeHeap.lower f layout shapeFunction = .ok g) :
    ∃ b body, P b ∧ b.finish body = .ok g := by
  have begin : P (ShapeHeap.start f layout).1.builder := kept.sealBlock (kept.emitNamed _ _ start)
  obtain ⟨st, body, h, finished⟩ := (kept.state _).lower (fun _ _ _ _ => trivial) begin lowered
  exact ⟨st.builder, body, h, finished⟩

end Builder.Kept

end TensorIR
