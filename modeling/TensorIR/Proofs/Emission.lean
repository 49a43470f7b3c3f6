import TensorIR.Builder
import TensorIR.Proofs.Result

/-!
# What a builder has emitted

The blocks of a builder matter to a reader of the finished function; to a proof about its bindings
they are in the way. `Builder.bindings` forgets them: it is the list of all bindings emitted so far.
Ending a block, opening or closing a region and finishing leave that list alone, and every other
operation of the builder appends to it. The list of variables grows in the same fashion, so a new
variable is one past all that the builder has seen.

Emission annotates the outermost call of a value. `Expr.bare` is a value without these two
annotations, and what is emitted is bare the value that was given.
-/

namespace TensorIR

namespace Expr

/-- The expression without the shape and the type annotated on its outermost call. -/
def bare : Expr → Expr
  | call head args => call { head with shape := none, ty := none } args
  | var v => var v
  | shape s => shape s
  | tuple fields => tuple fields
  | item t i => item t i
  | const c => const c
  | external s => external s
  | global n => global n

theorem annotate_call (vars : List VarInfo) (head : CallHead) (args : List Expr) :
    ∃ shape ty, (call head args).annotate vars = call { head with shape, ty } args :=
  ⟨_, _, rfl⟩

end Expr

/-- The binding as it is emitted unchanged: its value annotated. -/
def Binding.annotated (x : Binding) (vars : List VarInfo) : Binding :=
  x.withValue (x.value.annotate vars)

namespace Builder

/-- All bindings emitted so far, in the order in which they were emitted. -/
def bindings (b : Builder) : List Binding := b.blocks.flatMap Block.bindings ++ b.pending

variable {b b' : Builder}

@[simp]
theorem bindings_reopen (f : Function) : (reopen f).bindings = [] := rfl

/-! ### Blocks -/

theorem endBlock_of_nonempty (kind : BlockKind) (nonempty : b.pending ≠ []) :
    b.endBlock kind = { b with blocks := b.blocks ++ [⟨kind, b.pending⟩], pending := [] } := by
  rw [endBlock, if_neg fun empty => nonempty (List.isEmpty_iff.1 empty)]

theorem endBlock_of_empty (kind : BlockKind) (empty : b.pending = []) : b.endBlock kind = b := by
  rw [endBlock, if_pos (List.isEmpty_iff.2 empty)]

@[simp]
theorem bindings_endBlock (b : Builder) (kind : BlockKind) :
    (b.endBlock kind).bindings = b.bindings := by
  simp only [endBlock]
  split
  · rfl
  · simp [bindings]

@[simp]
theorem vars_endBlock (b : Builder) (kind : BlockKind) : (b.endBlock kind).vars = b.vars := by
  simp only [endBlock]
  split <;> rfl

@[simp]
theorem pending_endBlock (b : Builder) (kind : BlockKind) : (b.endBlock kind).pending = [] := by
  simp only [endBlock]
  split
  · next empty => exact List.isEmpty_iff.1 empty
  · rfl

@[simp]
theorem inDataflow_endBlock (b : Builder) (kind : BlockKind) :
    (b.endBlock kind).inDataflow = b.inDataflow := by
  simp only [endBlock]
  split <;> rfl

/-- What holds of the blocks so far and of the block in progress holds once that is ended. -/
theorem forall_endBlock {P : Block → Prop} {kind : BlockKind}
    (blocks : ∀ block ∈ b.blocks, P block) (ended : b.pending ≠ [] → P ⟨kind, b.pending⟩) :
    ∀ block ∈ (b.endBlock kind).blocks, P block := by
  rw [endBlock]
  split
  · exact blocks
  · next nonempty =>
      refine List.forall_mem_append.2 ⟨blocks, List.forall_mem_singleton.2 (ended fun empty => ?_)⟩
      exact nonempty (List.isEmpty_iff.2 empty)

@[simp]
theorem bindings_sealBlock (b : Builder) : b.sealBlock.bindings = b.bindings := by
  simp only [sealBlock]
  split
  · rfl
  · exact bindings_endBlock b .plain

@[simp]
theorem vars_sealBlock (b : Builder) : b.sealBlock.vars = b.vars := by
  simp only [sealBlock]
  split
  · rfl
  · exact vars_endBlock b .plain

@[simp]
theorem params_endBlock (b : Builder) (kind : BlockKind) : (b.endBlock kind).params = b.params := by
  simp only [endBlock]
  split <;> rfl

@[simp]
theorem params_sealBlock (b : Builder) : b.sealBlock.params = b.params := by
  simp only [sealBlock]
  split
  · rfl
  · exact params_endBlock b .plain

theorem openRegion_eq_ok (h : b.openRegion = .ok b') :
    b'.bindings = b.bindings ∧ b'.vars = b.vars ∧ b'.params = b.params := by
  simp only [openRegion] at h
  split at h
  · cases h
  · cases h
    exact ⟨bindings_endBlock b .plain, vars_endBlock b .plain, params_endBlock b .plain⟩

@[simp]
theorem bindings_closeRegion (b : Builder) : b.closeRegion.1.bindings = b.bindings := by
  simp only [closeRegion]
  split
  · exact bindings_endBlock b .dataflow
  · rfl

@[simp]
theorem vars_closeRegion (b : Builder) : b.closeRegion.1.vars = b.vars := by
  simp only [closeRegion]
  split
  · exact vars_endBlock b .dataflow
  · rfl

@[simp]
theorem params_closeRegion (b : Builder) : b.closeRegion.1.params = b.params := by
  simp only [closeRegion]
  split
  · exact params_endBlock b .dataflow
  · rfl

/-! ### Emission -/

@[simp]
theorem bindings_append (b : Builder) (binding : Binding) :
    (b.append binding).bindings = b.bindings ++ [binding] := by
  simp [bindings, append]

@[simp]
theorem vars_append (b : Builder) (binding : Binding) : (b.append binding).vars = b.vars := rfl

@[simp]
theorem bindings_fresh (b : Builder) (info : VarInfo) : (b.fresh info).1.bindings = b.bindings :=
  rfl

@[simp]
theorem vars_fresh (b : Builder) (info : VarInfo) : (b.fresh info).1.vars = b.vars ++ [info] := rfl

@[simp]
theorem length_vars_fresh (b : Builder) (info : VarInfo) :
    (b.fresh info).1.vars.length = b.vars.length + 1 := by
  rw [vars_fresh, List.length_append, List.length_singleton]

@[simp]
theorem emitNamed_var (b : Builder) (name : String) (value : Expr) :
    (b.emitNamed name value).2 = ⟨b.vars.length⟩ := rfl

@[simp]
theorem bindings_emitNamed (b : Builder) (name : String) (value : Expr) :
    (b.emitNamed name value).1.bindings =
      b.bindings ++ [.define ⟨b.vars.length⟩ (value.annotate b.vars)] := by
  simp [emitNamed, bindFresh, bindings, append, fresh]

@[simp]
theorem length_vars_emitNamed (b : Builder) (name : String) (value : Expr) :
    (b.emitNamed name value).1.vars.length = b.vars.length + 1 := by
  simp [emitNamed, bindFresh, append, fresh]

theorem info_eq_ok {v : Var} {info : VarInfo} :
    b.info v = .ok info ↔ b.vars[v.index]? = some info := by
  rw [Builder.info]
  cases b.vars[v.index]? with
  | none => simp
  | some found => simp

/-- Binding a variable that exists appends the annotated binding and does nothing else. -/
theorem bind_eq_ok_append {v : Var} {value : Expr} (h : b.bind v value = .ok b') :
    b' = b.append (.define v (value.annotate b.vars)) := by
  simp only [bind] at h
  obtain ⟨_, _, h⟩ := bind_eq_ok.1 h
  obtain ⟨-, h⟩ := check_bind_eq_ok.1 h
  obtain ⟨-, h⟩ := check_bind_eq_ok.1 h
  exact (pure_eq_ok.1 h).symm

/-- Emitting a binding as it is appends it with its value annotated. -/
theorem push_eq_ok_append {binding : Binding} (h : b.push binding = .ok b') :
    b' = b.append (binding.withValue (binding.value.annotate b.vars)) := by
  match binding with
  | .define v value => exact bind_eq_ok_append h
  | .matchShape none value pattern => exact (Except.ok.inj h).symm
  | .matchShape (some v) value pattern =>
      simp only [push] at h
      obtain ⟨_, _, h⟩ := bind_eq_ok.1 h
      exact (pure_eq_ok.1 h).symm

/-! ### The finished function -/

theorem bindings_toFunction (b : Builder) (body : Expr) :
    (b.toFunction body).bindings = b.bindings := by
  have all := bindings_endBlock b .plain
  rw [bindings, pending_endBlock, List.append_nil] at all
  exact all

/-- When a builder hands out a function, and which one. -/
theorem finish_eq_ok_iff {body : Expr} {f : Function} : b.finish body = .ok f ↔
    b.closeRegion.2 = .ok () ∧ b.closeRegion.1.deferred = none ∧
      f = b.closeRegion.1.toFunction body ∧ f.check = .ok () := by
  simp only [finish]
  rw [check_bind_eq_ok]
  refine and_congr_right fun _ => ?_
  cases b.closeRegion.1.deferred with
  | some e => exact ⟨nofun, nofun⟩
  | none =>
      rw [check_bind_eq_ok, mapError_eq_ok, pure_eq_ok, eq_self, true_and, and_comm, eq_comm]
      refine and_congr_right fun same => ?_
      rw [same]

/-- Outside of a region all that finishing does to the blocks is to end the one in progress. -/
theorem blocks_of_finish {body : Expr} {f : Function} (outside : b.inDataflow = false)
    (finished : b.finish body = .ok f) : f.blocks = (b.endBlock .plain).blocks := by
  have closed : b.closeRegion.1 = b := by
    rw [closeRegion, outside]
    rfl
  obtain ⟨-, -, rfl, -⟩ := finish_eq_ok_iff.1 finished
  rw [closed]
  rfl

/-- A function that was handed out holds what was emitted, and it is well formed. -/
theorem finish_eq_ok {body : Expr} {f : Function} (h : b.finish body = .ok f) :
    f.bindings = b.bindings ∧ f.body = body ∧ f.vars = b.vars ∧ f.params = b.params ∧
      f.check = .ok () := by
  obtain ⟨-, -, rfl, checked⟩ := finish_eq_ok_iff.1 h
  refine ⟨?_, rfl, ?_, ?_, checked⟩
  · rw [bindings_toFunction, bindings_closeRegion]
  · exact (vars_endBlock _ _).trans (vars_closeRegion b)
  · exact (params_endBlock _ _).trans (params_closeRegion b)

end Builder

end TensorIR
