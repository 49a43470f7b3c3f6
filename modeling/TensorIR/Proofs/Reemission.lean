import TensorIR.Proofs.Fusion.Steps
import TensorIR.Proofs.Placement
import TensorIR.Proofs.Renaming
import TensorIR.Proofs.Walking

/-!
# Emitting a function again

A function that came from a builder is emitted again without a change: its blocks, its annotations
and the boundaries of its blocks come out as they went in, although its bindings were annotated and
checked while the list of variables was still growing. All that is needed of the function is that it
is settled. `Emitter.Repeats` says of a pass that it emits every binding of a function as it is; the
blocks then follow (`Emitter.repeats_function`), since the builder is known in advance.
-/

namespace TensorIR

/-- A builder that has all blocks of a well-formed function again hands that function out. -/
theorem Builder.finish_reopen {f : Function} (checked : f.check = .ok ()) :
    ({ reopen f with blocks := f.blocks } : Builder).finish f.body = .ok f :=
  finish_eq_ok_iff.2 ⟨rfl, rfl, rfl, checked⟩

/-! ### Blocks -/

namespace Emitter

variable {σ : Type} {emit : Emitter σ} {enter : σ → σ} {f : Function}
  {holds : List Binding → σ → Prop} {s : σ}

/-- Every binding of the function is emitted as it is. `holds` is an invariant of what is
remembered, given the bindings so far of the block at hand. -/
def Repeats (emit : Emitter σ) (f : Function) (holds : List Binding → σ → Prop) : Prop :=
  ∀ block ∈ f.blocks, ∀ done x rest, block.bindings = done ++ x :: rest → ∀ s, holds done s →
    ∀ b : Builder, b.vars = f.vars → b.inDataflow = block.isDataflow → ∀ position,
      ∃ s', emit position x s b = .ok (s', b.append x) ∧ holds (done ++ [x]) s'

/-- The builder when some blocks have been repeated and then some bindings of one more. -/
def repeated (f : Function) (before : List Block) (block : Block) (done : List Binding) : Builder :=
  { Builder.reopen f with blocks := before, pending := done, inDataflow := block.isDataflow }

theorem Repeats.walk (repeats : emit.Repeats f holds) (settled : f.Settled)
    (entering : ∀ {done s}, holds done s → holds [] (enter s)) :
    emit.Walk enter f (fun _ _ _ => none) (repeated f) (fun _ s => ∃ done, holds done s)
      fun _ _ => holds where
  inDataflow _ _ _ := rfl
  pending _ := rfl
  begins _ _ := rfl
  enters _ := fun ⟨_, h⟩ => entering h
  step := by
    intro before block after done x rest s position splitBlocks split h
    obtain ⟨s', emitted, h'⟩ := repeats block (by simp [splitBlocks]) done x rest split s h
      (repeated f before block done) rfl rfl position
    exact ⟨_, emitted, rfl, h'⟩
  output splitBlocks dataflow := (settled _ (by simp [splitBlocks])).output dataflow
  ends := by
    intro before block after splitBlocks
    have nonempty : block.bindings ≠ [] := (settled block (by simp [splitBlocks])).nonempty
    rw [Builder.endBlock_of_nonempty block.kind nonempty]
    rfl
  leaves _ h := ⟨_, h⟩

/-- A pass that repeats every binding of a settled function repeats its blocks. -/
theorem repeats_function (repeats : emit.Repeats f holds) (settled : f.Settled)
    (entering : ∀ {done s}, holds done s → holds [] (enter s)) (start : holds [] s) :
    ∃ s' done, emit.emitBlocks enter f.name 0 f.blocks s (.reopen f) =
      .ok (s', { Builder.reopen f with blocks := f.blocks }) ∧ holds done s' := by
  have answers :=
    (repeats.walk settled entering).emitBlocks (List.nil_append _).symm ⟨[], start⟩ 0
  rw [blocksFault?_flatMap, firstFault?, List.findSome?_eq_none_iff.2 fun _ _ => rfl] at answers
  obtain ⟨⟨s', b⟩, emitted, rfl, done, h⟩ := answers
  exact ⟨s', done, emitted, h⟩

end Emitter

/-! ### Passes -/

theorem Expr.substitute_nil (e : Expr) : e.substitute [] = e := by
  induction e using Expr.induction with
  | var _ | shape _ | const _ | external _ | global _ => rfl
  | item t i ih => exact congrArg (item · i) ih
  | tuple es ih | call _ es ih =>
      rw [substitute, rename, renameAll_eq_map]
      exact congrArg _ ((List.map_congr_left ih).trans (List.map_id es))

theorem Binding.substitute_nil (x : Binding) : x.substitute [] = x := by
  cases x with
  | define v value => exact congrArg (define v) value.substitute_nil
  | matchShape v value pattern => exact congrArg (matchShape v · pattern) value.substitute_nil

/-- A binding of no variable, or of a variable that is kept. -/
theorem Binding.substitute_eq_rename {ρ : Renaming} {r : Var → Var} {x : Binding}
    (value : x.value.substitute ρ = x.value.rename r) (kept : ∀ v ∈ x.defined?, r v = v) :
    x.substitute ρ = x.rename r := by
  cases x with
  | define v _ =>
      rw [substitute, rename, kept v rfl]
      exact congrArg (define v) value
  | matchShape v _ pattern =>
      have same : v.map r = v := by
        cases v with
        | none => rfl
        | some v => exact congrArg some (kept v rfl)
      rw [substitute, rename, same]
      exact congrArg (matchShape v · pattern) value

theorem Function.Settled.push {f : Function} {block : Block} {done rest : List Binding}
    {x : Binding} {b : Builder} (settled : f.Settled) (mem : block ∈ f.blocks)
    (split : block.bindings = done ++ x :: rest) (vars : b.vars = f.vars)
    (here : b.inDataflow = block.isDataflow) : building f.name (b.push x) = .ok (b.append x) := by
  have inBlock : x ∈ block.bindings := by
    rw [split]
    simp
  refine building_eq_ok.2 (Builder.push_settled ?_)
  rw [vars, here]
  exact (settled block mem).bindings x inBlock

namespace Fusion

variable {f : Function}

/-- Nothing has been renamed, and what is remembered are products of the block. -/
structure Idle (done : List Binding) (s : Fusion) : Prop where
  renames : s.renames = []
  products : ∀ t operands, s.products.lookup t = some operands → ∃ y ∈ done, y.IsProduct t

theorem Idle.append {done : List Binding} {s : Fusion} (h : Idle done s) (x : Binding) :
    Idle (done ++ [x]) s := by
  refine ⟨h.renames, fun t operands found => ?_⟩
  obtain ⟨y, mem, product⟩ := h.products t operands found
  exact ⟨y, List.mem_append_left _ mem, product⟩

theorem Idle.remember {done : List Binding} {s : Fusion} (h : Idle done s) {v : Var} {x : Binding}
    (product : x.IsProduct v) (operands : Expr × Expr) :
    Idle (done ++ [x]) { products := (v, operands) :: s.products } := by
  refine ⟨rfl, fun t found lookup => ?_⟩
  rw [List.lookup_cons] at lookup
  split at lookup
  · next same =>
      rw [beq_iff_eq.1 same]
      exact ⟨x, List.mem_append_right _ (List.mem_singleton_self x), product⟩
  · exact (h.append x).products t found lookup

/-- Without anything to fuse, fusion emits every binding as it is. -/
theorem repeats_emitter (settled : f.Settled) (none : ¬ f.Fusible) :
    (emitter f).Repeats f Idle := by
  intro block mem done x rest split s idle b vars here position
  have pushed := settled.push mem split vars here
  have kept : ∃ s', (do let b ← building f.name (b.push x); return (s, b)) =
      Except.ok (s', b.append x) ∧ Idle (done ++ [x]) s' :=
    ⟨s, bind_eq_ok.2 ⟨_, pushed, rfl⟩, idle.append x⟩
  cases x with
  | matchShape v? value pattern =>
      simp only [emitter, idle.renames, Binding.substitute_nil]
      exact kept
  | define v value =>
      simp only [emitter, idle.renames, Binding.substitute_nil]
      split
      · next inside =>
          split
          · next operands isProduct =>
              obtain ⟨a, a'⟩ := operands
              obtain ⟨head, rfl, callee⟩ := product?_eq_some.1 isProduct
              exact ⟨_, bind_eq_ok.2 ⟨_, pushed, rfl⟩,
                idle.remember ⟨head, a, a', rfl, callee⟩ (a, a')⟩
          · next isSum =>
              obtain ⟨head, t, a, a', c, rfl, callee, once, found, -⟩ := fused?_eq_some.1 isSum
              have dataflow : block.kind = .dataflow := beq_iff_eq.1 (here.symm.trans inside)
              exact absurd ⟨block, mem, dataflow, done, _, rest, t, split,
                ⟨v, head, c, rfl, callee⟩, idle.products t _ found, once⟩ none
          · exact kept
      · exact kept

end Fusion

namespace Function

variable {f : Function}

theorem fuse_self (settled : f.Settled) (checked : f.check = .ok ()) (none : ¬ f.Fusible) :
    f.fuse = .ok f := by
  have start : Fusion.Idle [] {} := ⟨rfl, nofun⟩
  have entering {done : List Binding} {s : Fusion} (idle : Fusion.Idle done s) :
      Fusion.Idle [] { s with products := [] } := ⟨idle.renames, nofun⟩
  obtain ⟨s, done, emitted, idle⟩ :=
    Emitter.repeats_function (Fusion.repeats_emitter settled none) settled entering start
  refine bind_eq_ok.2 ⟨_, emitted, building_eq_ok.2 ?_⟩
  rw [idle.renames, Expr.substitute_nil]
  exact Builder.finish_reopen checked

/-- A pass that has nothing to remember, and nothing else to do than to emit every binding of a
settled function as it is, leaves the function as it is. -/
theorem replaceBindings_self {emit : Nat → Binding → Builder → Lowered Builder}
    (settled : f.Settled) (checked : f.check = .ok ())
    (push : ∀ x ∈ f.bindings, ∀ position b, emit position x b = building f.name (b.push x)) :
    f.replaceBindings emit = .ok f := by
  let emitter : Emitter Unit := fun position x _ b => (fun b => ((), b)) <$> emit position x b
  have repeats : emitter.Repeats f fun _ _ => True := by
    intro block mem done x rest split s _ b vars here position
    refine ⟨(), map_unit_eq_ok.2 ?_, trivial⟩
    rw [push x (mem_bindings mem (by rw [split]; simp))]
    exact settled.push mem split vars here
  obtain ⟨⟨⟩, done, emitted, -⟩ := Emitter.repeats_function repeats settled id trivial
  exact bind_eq_ok.2 ⟨_, emitted, building_eq_ok.2 (Builder.finish_reopen checked)⟩

theorem allocateOutputs_self (settled : f.Settled) (checked : f.check = .ok ())
    (none : ∀ x ∈ f.bindings, ¬ x.Invokes .callDps) : f.allocateOutputs = .ok f := by
  refine replaceBindings_self settled checked fun x mem position b => ?_
  split
  · next v attrs shape ty args => exact absurd ⟨v, _, args, rfl, rfl⟩ (none _ mem)
  · rfl

theorem placeTensors_self {target : StorageTarget} (settled : f.Settled)
    (checked : f.check = .ok ())
    (none : ∀ x ∈ f.bindings, ¬ x.Invokes .allocTensor ∧ ¬ x.Invokes .callPacked) :
    f.placeTensors target = .ok f := by
  refine replaceBindings_self settled checked fun x mem position b => ?_
  split
  · next v attrs shape ty args => exact absurd ⟨v, _, args, rfl, rfl⟩ (none _ mem).1
  · next v attrs shape ty args => exact absurd ⟨v, _, args, rfl, rfl⟩ (none _ mem).2
  · rfl

end Function

end TensorIR
