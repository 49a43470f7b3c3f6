import TensorIR.Builder.Action
import TensorIR.Proofs.Reemission

/-!
# What a history of a builder emits

A builder is put through any history of operations, begun anew or from a function that is opened
again. If every operation reads allocated variables only, no finished block is pushed from outside
and no region is closed in vain, then all that the builder has emitted is settled
(`Builder.settled_performAll`), and the function that it hands out can be emitted again without a
change.

There is one lemma for each way in which an operation can go on: it allocates, it is refused and
leaves the builder as it was, or it is one of the others. Dropping a region is the exception to the
invariant. A region that is dropped without an output leaves a block that is not settled, but then
the report of it is kept, and a builder that keeps a report never hands out a function. What a step
preserves is therefore that everything is settled unless a report is kept.
-/

namespace TensorIR.Builder

variable {b b' : Builder} {a : Action}

/-! ### Histories -/

/-- The variables that the operation reads. -/
def Action.reads : Action → List Var
  | emit value | emitNamed _ value | emitOutput value | bind _ value => value.reads
  | push x => x.value.reads
  | pushBlock block => block.bindings.flatMap fun x => x.value.reads
  | param .. | dimVar _ | fresh _ | setRetTy _ => []
  | openRegion | closeRegion | dropRegion | sealBlock => []

/-- What the builder may be asked for here: nothing unallocated is read, no finished block is pushed
from outside, and a region is closed only where that is not refused. -/
structure Action.Regular (b : Builder) (a : Action) : Prop where
  reads : ∀ v ∈ a.reads, v.index < b.vars.length
  emits : ∀ block, a ≠ .pushBlock block
  closes : a = .closeRegion → (b.perform a).2 = .done

/-- Every operation of the history is regular where it is performed. -/
def Regular : Builder → List Action → Prop
  | _, [] => True
  | b, a :: actions => a.Regular b ∧ Regular (b.perform a).1 actions

/-- Where a history begins. -/
inductive Initial : Builder → Prop where
  | new (name : String) : Initial { name := name }
  | reopen (f : Function) : Initial (reopen f)

instance (b : Builder) (a : Action) : Decidable (a.Regular b) :=
  decidable_of_iff
    ((∀ v ∈ a.reads, v.index < b.vars.length) ∧ (a matches .pushBlock _) = false ∧
      (a = .closeRegion → (b.perform a).2 = .done)) <| by
    constructor
    · rintro ⟨reads, emits, closes⟩
      refine ⟨reads, fun block pushed => ?_, closes⟩
      rw [pushed] at emits
      cases emits
    · rintro ⟨reads, emits, closes⟩
      refine ⟨reads, ?_, closes⟩
      cases a with
      | pushBlock block => exact absurd rfl (emits block)
      | _ => rfl

instance decidableRegular : (b : Builder) → (actions : List Action) → Decidable (b.Regular actions)
  | _, [] => .isTrue trivial
  | b, a :: actions =>
    have := decidableRegular (b.perform a).1 actions
    inferInstanceAs (Decidable (a.Regular b ∧ Regular (b.perform a).1 actions))

/-! ### Steps -/

theorem refusable_fst {P : Builder → Prop} {x : Except BuildError Builder} (same : P b)
    (ok : ∀ b', x = .ok b' → P b') : P (refusable b x).1 := by
  cases x with
  | ok b' => exact ok b' rfl
  | error e => exact same

@[simp]
theorem deferred_endBlock (b : Builder) (kind : BlockKind) :
    (b.endBlock kind).deferred = b.deferred := by
  rw [endBlock]
  split <;> rfl

@[simp]
theorem deferred_closeRegion (b : Builder) : b.closeRegion.1.deferred = b.deferred := by
  rw [closeRegion]
  split
  · exact deferred_endBlock b .dataflow
  · rfl

theorem perform_closeRegion (b : Builder) :
    (b.perform .closeRegion).1 = b.closeRegion.1 ∧
      ((b.perform .closeRegion).2 = .done → b.closeRegion.2 = .ok ()) := by
  rw [perform]
  rcases b.closeRegion with ⟨closed, answer⟩
  cases answer with
  | ok _ => exact ⟨rfl, fun _ => rfl⟩
  | error e => exact ⟨rfl, nofun⟩

/-- A dropped region either is closed without complaint or leaves a report. -/
theorem dropRegion_cases (b : Builder) :
    (b.closeRegion.2 = .ok () ∧ b.dropRegion = b.closeRegion.1) ∨
      b.dropRegion.deferred ≠ none := by
  rw [dropRegion]
  rcases b.closeRegion with ⟨closed, answer⟩
  cases answer with
  | ok _ => exact .inl ⟨rfl, rfl⟩
  | error e =>
      right
      show (closed.deferred <|> some e) ≠ none
      cases closed.deferred <;> exact nofun

theorem deferred_refusable {x : Except BuildError Builder}
    (same : ∀ b', x = .ok b' → b'.deferred = b.deferred) :
    (refusable b x).1.deferred = b.deferred :=
  refusable_fst (P := fun b' => b'.deferred = b.deferred) rfl same

theorem deferred_openRegion (opened : b.openRegion = .ok b') : b'.deferred = b.deferred := by
  rw [openRegion] at opened
  split at opened
  · cases opened
  · cases opened
    exact deferred_endBlock b .plain

theorem deferred_pushBlock {block : Block} (pushed : b.pushBlock block = .ok b') :
    b'.deferred = b.deferred := by
  rw [pushBlock] at pushed
  split at pushed
  · cases pushed
  · split at pushed
    · cases pushed
    · cases pushed
      exact deferred_endBlock b .plain

/-- A report comes from dropping a region only. -/
theorem deferred_perform (other : a ≠ .dropRegion) : (b.perform a).1.deferred = b.deferred := by
  cases a with
  | dropRegion => exact absurd rfl other
  | param _ _ _ | dimVar _ | fresh _ | setRetTy _ | emitNamed _ _ => rfl
  | openRegion => exact deferred_refusable fun b' => deferred_openRegion
  | closeRegion => rw [(perform_closeRegion b).1, deferred_closeRegion]
  | sealBlock =>
      simp only [perform, sealBlock]
      split
      · rfl
      · exact deferred_endBlock b .plain
  | emit value =>
      simp only [perform, emit]
      split <;> rfl
  | emitOutput value =>
      by_cases inside : b.inDataflow = true
      · simp only [perform, emitOutput, if_pos inside]
        rfl
      · simp only [perform, emitOutput, if_neg inside]
  | bind v value =>
      refine deferred_refusable fun b' bound => ?_
      rw [bind_eq_ok_append bound]
      rfl
  | push x =>
      refine deferred_refusable fun b' pushed => ?_
      rw [push_eq_ok_append pushed]
      rfl
  | pushBlock block => exact deferred_refusable fun b' => deferred_pushBlock

/-- A report that is kept is never lost. -/
theorem unreported_before (unreported : (b.perform a).1.deferred = none) : b.deferred = none := by
  by_cases dropped : a = .dropRegion
  · subst dropped
    obtain ⟨-, closed⟩ | kept := dropRegion_cases b
    · rw [← deferred_closeRegion, ← closed]
      exact unreported
    · exact absurd unreported kept
  · exact (deferred_perform dropped).symm.trans unreported

/-- A regular operation keeps everything settled, if no report is kept after it. -/
theorem settled_perform (settled : b.Settled) (regular : a.Regular b)
    (unreported : (b.perform a).1.deferred = none) : (b.perform a).1.Settled := by
  cases a with
  | param name shape ty =>
      obtain ⟨blocks, pending⟩ := settled.fresh ⟨name, .plain, shape, ty⟩
      exact ⟨blocks, pending⟩
  | dimVar _ | setRetTy _ => exact ⟨settled.blocks, settled.pending⟩
  | fresh info => exact settled.fresh info
  | openRegion => exact refusable_fst settled fun b' => settled.openRegion
  | closeRegion =>
      obtain ⟨same, answered⟩ := perform_closeRegion b
      rw [same]
      exact settled.closeRegion (answered (regular.closes rfl))
  | dropRegion =>
      obtain ⟨closed, same⟩ | kept := dropRegion_cases b
      · show b.dropRegion.Settled
        rw [same]
        exact settled.closeRegion closed
      · exact absurd unreported kept
  | sealBlock => exact settled.sealBlock
  | emit value =>
      simp only [perform, emit]
      split
      · next inside =>
          exact Settled.bindFresh (b := { b with nextLocal := b.nextLocal + 1 })
            ⟨settled.blocks, settled.pending⟩ _ value regular.reads fun _ => inside
      · exact Settled.bindFresh (b := { b with nextGlobal := b.nextGlobal + 1 })
          ⟨settled.blocks, settled.pending⟩ _ value regular.reads nofun
  | emitNamed name value => exact settled.emitNamed name value regular.reads
  | emitOutput value =>
      by_cases inside : b.inDataflow = true
      · simp only [perform, emitOutput, if_pos inside]
        exact Settled.bindFresh (b := { b with nextGlobal := b.nextGlobal + 1 })
          ⟨settled.blocks, settled.pending⟩ _ value regular.reads nofun
      · simp only [perform, emitOutput, if_neg inside]
        exact settled
  | bind v value => exact refusable_fst settled fun b' => settled.bind regular.reads
  | push x => exact refusable_fst settled fun b' => settled.push regular.reads
  | pushBlock block => exact absurd rfl (regular.emits block)

/-! ### Runs -/

theorem Initial.settled (initial : b.Initial) : b.Settled := by
  cases initial with
  | new _ => exact ⟨nofun, nofun⟩
  | reopen f => exact settled_reopen f

theorem settled_performAll {actions : List Action} (settled : b.deferred = none → b.Settled)
    (regular : b.Regular actions) (unreported : (b.performAll actions).deferred = none) :
    (b.performAll actions).Settled := by
  induction actions generalizing b with
  | nil => exact settled unreported
  | cons a actions ih =>
      exact ih (fun clear => settled_perform (settled (unreported_before clear)) regular.1 clear)
        regular.2 unreported

/-- What is handed out after a regular history is settled and well formed. -/
theorem settled_of_history {actions : List Action} {body : Expr} {f : Function}
    (initial : b.Initial) (regular : b.Regular actions)
    (finished : (b.performAll actions).finish body = .ok f) : f.Settled ∧ f.check = .ok () := by
  obtain ⟨-, unreported, -, checked⟩ := finish_eq_ok_iff.1 finished
  rw [deferred_closeRegion] at unreported
  have settled := settled_performAll (fun _ => initial.settled) regular unreported
  exact ⟨settled.finish finished, checked⟩

/-- A function from a regular history is emitted again as it is. Hence a pass that finds nothing to
rewrite in it leaves it as it is. -/
theorem emitted_again {actions : List Action} {body : Expr} {f : Function} (initial : b.Initial)
    (regular : b.Regular actions) (finished : (b.performAll actions).finish body = .ok f) :
    f.replaceBindings (fun _ x b => building f.name (b.push x)) = .ok f ∧
      (¬ f.Fusible → f.fuse = .ok f) ∧
      ((∀ x ∈ f.bindings, ¬ x.Invokes .callDps) → f.allocateOutputs = .ok f) ∧
      ∀ target, (∀ x ∈ f.bindings, ¬ x.Invokes .allocTensor ∧ ¬ x.Invokes .callPacked) →
        f.placeTensors target = .ok f := by
  obtain ⟨settled, checked⟩ := settled_of_history initial regular finished
  refine ⟨?_, ?_, ?_, fun target => ?_⟩
  · exact f.replaceBindings_self settled checked fun _ _ _ _ => rfl
  · exact f.fuse_self settled checked
  · exact f.allocateOutputs_self settled checked
  · exact f.placeTensors_self settled checked

/-- The history of a function that adds to a product in a region, reads the product once more, and
is refused an output outside of the region:

    fn main(x: (2)) {
      dataflow { lv0 = multiply(x, x); gv0 = add(lv0, lv0) }
      y = add(gv0, x); z = y; z
    }
-/
def doubling : List Action :=
  [.param "x" (some [.int 2]) (some (.tensor (some 1) .float32)), .openRegion,
    .emit (.ofOp .multiply [.var ⟨0⟩, .var ⟨0⟩]), .emitOutput (.ofOp .add [.var ⟨1⟩, .var ⟨1⟩]),
    .closeRegion, .emitOutput (.var ⟨0⟩), .emitNamed "y" (.ofOp .add [.var ⟨2⟩, .var ⟨0⟩]),
    .fresh ⟨"z", .plain, some [.int 2], none⟩, .bind ⟨4⟩ (.var ⟨3⟩)]

/-- The function that the history builds. -/
def doubled : Function :=
  (({ name := "main" } : Builder).performAll doubling).toFunction (.var ⟨4⟩)

theorem emitted_again_doubled :
    (∃ block ∈ doubled.blocks, ∃ x ∈ block.bindings, x.AddsTo ⟨1⟩) ∧
      doubled.replaceBindings (fun _ x b => building doubled.name (b.push x)) = .ok doubled ∧
      doubled.fuse = .ok doubled ∧ doubled.allocateOutputs = .ok doubled ∧
      ∀ target, doubled.placeTensors target = .ok doubled := by
  obtain ⟨again, fused, allocated, placed⟩ := emitted_again (.new "main")
    (show Regular _ doubling by decide +kernel)
    (show (performAll _ doubling).finish (.var ⟨4⟩) = .ok doubled by decide +kernel)
  refine ⟨⟨_, .head _, _, .tail _ (.head _), _, _, _, rfl, rfl⟩, again, fused ?_,
    allocated (by decide +kernel), fun target => placed target (by decide +kernel)⟩
  exact Function.not_fusible (by decide +kernel)

end TensorIR.Builder
