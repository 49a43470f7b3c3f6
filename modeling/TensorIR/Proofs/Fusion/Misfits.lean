import TensorIR.Proofs.Fusion.Refitting

/-!
# Functions that cannot be fused

A pass that only makes a function faster should not refuse it. Fusion does refuse some, and here is
which, in terms of the function alone: those in which a binding that is kept does not fit any more
among the variables of the fused function (`Function.Misfit`). Such a binding reads the variable of
a sum of which more is known as a fused operation than was recorded (`Function.exists_renamed`), and
it is at odds with what is recorded of its own variable. `strained` is an example.

A module is fused unless it has such a function, and the error is that of the first
(`Module.fuse_verdict`).
-/

namespace TensorIR

namespace Function

/-- The function was handed out after a regular history. -/
def Regular (f : Function) : Prop :=
  ∃ (b : Builder) (actions : List Builder.Action) (body : Expr), b.Initial ∧ b.Regular actions ∧
    (b.performAll actions).finish body = .ok f

/-- The value of a binding that is kept has another shape among the variables of the fused function
than is recorded of its variable, or the same shape and a type that is not compatible. -/
inductive Misfit (f : Function) (block : Block) : Binding → BuildError → Prop where
  | shape {v value info s t} (kept : f.fusedOperands? block (.define v value) = none)
      (recorded : f.vars[v.index]? = some info) (known : info.shape = some s)
      (inferred : (value.rename f.fusedVar).inferShape? f.fusedVars = some t) (differ : s ≠ t) :
    Misfit f block (.define v value)
      (.shapeMismatch info.name (s.render f.dimNames) (t.render f.dimNames))
  | ty {v value info s t} (kept : f.fusedOperands? block (.define v value) = none)
      (recorded : f.vars[v.index]? = some info)
      (same : ∀ s ∈ info.shape, ∀ t ∈ (value.rename f.fusedVar).inferShape? f.fusedVars, s = t)
      (known : info.ty = some s)
      (inferred : (value.rename f.fusedVar).inferTy? f.fusedVars = some t)
      (differ : s.compatible t = false) :
    Misfit f block (.define v value) (.tyMismatch info.name s.render t.render)

/-- The first misfit in program order has the error. -/
def FirstMisfit (f : Function) (e : BuildError) : Prop :=
  ∃ before block after done x rest, f.blocks = before ++ block :: after ∧
    block.bindings = done ++ x :: rest ∧ f.Misfit block x e ∧
    (∀ y ∈ done, ∀ e', ¬ f.Misfit block y e') ∧
    ∀ other ∈ before, ∀ y ∈ other.bindings, ∀ e', ¬ f.Misfit other y e'

/-- Every value that is kept agrees with what is recorded of its variable, also among the variables
of the fused function. -/
def Refits (f : Function) : Prop :=
  ∀ block ∈ f.blocks, ∀ v value, .define v value ∈ block.bindings →
    f.fusedOperands? block (.define v value) = none → ∀ info, f.vars[v.index]? = some info →
      info.Fits f.fusedVars (value.rename f.fusedVar)

variable {f : Function} {block : Block} {x : Binding} {e : BuildError}

theorem Regular.settled (regular : f.Regular) : f.Settled ∧ f.check = .ok () := by
  obtain ⟨b, actions, body, initial, regular, finished⟩ := regular
  exact Builder.settled_of_history initial regular finished

/-! ### Misfits -/

theorem Misfit.kept (misfit : f.Misfit block x e) : f.fusedOperands? block x = none := by
  cases misfit <;> assumption

theorem not_misfit {v : Var} {value : Expr} (fits : ∀ info, f.vars[v.index]? = some info →
    info.Fits f.fusedVars (value.rename f.fusedVar)) : ¬ f.Misfit block (.define v value) e := by
  intro misfit
  cases misfit with
  | shape _ recorded known inferred differ =>
      exact differ ((fits _ recorded).shape _ known _ inferred)
  | ty _ recorded _ known inferred differ =>
      rw [(fits _ recorded).ty _ known _ inferred] at differ
      cases differ

theorem refits_iff :
    f.Refits ↔ ∀ block ∈ f.blocks, ∀ x ∈ block.bindings, ∀ e, ¬ f.Misfit block x e := by
  constructor
  · intro refits block inFunction x inBlock e misfit
    cases x with
    | matchShape _ _ _ => cases misfit
    | define v value =>
        exact not_misfit (refits block inFunction v value inBlock misfit.kept) misfit
  · intro none block inFunction v value inBlock kept info recorded
    have shape : ∀ s ∈ info.shape, ∀ t ∈ (value.rename f.fusedVar).inferShape? f.fusedVars,
        s = t := by
      intro s known t inferred
      by_contra differ
      exact none block inFunction _ inBlock _ (.shape kept recorded known inferred differ)
    refine ⟨shape, fun s known t inferred => ?_⟩
    by_contra differ
    exact none block inFunction _ inBlock _
      (.ty kept recorded shape known inferred (Bool.not_eq_true _ ▸ differ))

/-- A binding that does not fit any more reads a variable that a new one has taken the place of. -/
theorem exists_renamed (settled : f.Settled) (inFunction : block ∈ f.blocks)
    (inBlock : x ∈ block.bindings) (misfit : f.Misfit block x e) :
    ∃ v ∈ x.value.reads, f.fusedVar v ≠ v := by
  by_contra none
  have kept : ∀ v ∈ x.value.reads, f.fusedVar v = v := fun v read =>
    by_contra fun differ => none ⟨v, read, differ⟩
  have here := (settled block inFunction).bindings x inBlock
  have same : x.value.rename f.fusedVar = x.value :=
    (Expr.rename_congr kept).trans x.value.substitute_nil
  have agree : ∀ v ∈ x.value.reads, f.fusedVars[v.index]? = f.vars[v.index]? := fun v read =>
    (f.names_for f.allFusions).recorded (here.reads v read)
  cases x with
  | matchShape _ _ _ => cases misfit
  | define v value =>
      rw [Binding.value] at same agree
      obtain ⟨info, ⟨found, -⟩, fits⟩ := here.accepted
      refine not_misfit (fun info' recorded => ?_) misfit
      cases found.symm.trans recorded
      refine ⟨?_, ?_⟩
      · rw [same, Expr.inferShape?_congr agree]
        exact fits.shape
      · rw [same, Expr.inferTy?_congr agree]
        exact fits.ty

section Faults

variable (wellFormed : f.WellFormed)
include wellFormed

theorem misfit_iff {v : Var} {value : Expr} (inFunction : block ∈ f.blocks)
    (inBlock : .define v value ∈ block.bindings)
    (kept : f.fusedOperands? block (.define v value) = none) :
    f.Misfit block (.define v value) e ↔
      f.fusedBuilder.bind v (value.rename f.fusedVar) = .error e := by
  have allocates := wellFormed.definitions v (mem_defined (mem_bindings inFunction inBlock) rfl)
  have found := List.getElem?_eq_getElem allocates
  have place : f.fusedBuilder.bindable v = .ok f.vars[v.index] :=
    Builder.bindable_eq_ok.2
      ⟨((f.names_for f.allFusions).recorded allocates).trans found, fun _ => rfl⟩
  rw [Builder.bind_eq_error place, Builder.checkShape_eq_error, Builder.checkShape_eq_ok,
    Builder.checkTy_eq_error]
  constructor
  · intro misfit
    cases misfit with
    | shape _ recorded known inferred differ =>
        cases found.symm.trans recorded
        exact .inl ⟨_, known, _, inferred, differ, rfl⟩
    | ty _ recorded same known inferred differ =>
        cases found.symm.trans recorded
        exact .inr ⟨same, _, known, _, inferred, differ, rfl⟩
  · rintro (⟨s, known, t, inferred, differ, rfl⟩ | ⟨same, s, known, t, inferred, differ, rfl⟩)
    · exact .shape kept found known inferred differ
    · exact .ty kept found same known inferred differ

theorem misfit?_eq_some {fault : LoweringError} (inFunction : block ∈ f.blocks)
    (inBlock : x ∈ block.bindings) :
    f.misfit? block x = some fault ↔ ∃ e, fault = .build f.name e ∧ f.Misfit block x e := by
  cases x with
  | matchShape _ _ _ =>
      constructor
      · intro h
        cases h
      · rintro ⟨_, -, misfit⟩
        cases misfit
  | define v value =>
      rw [misfit?]
      cases isSum : f.fusedOperands? block (.define v value) with
      | some operands =>
          constructor
          · intro h
            cases h
          · rintro ⟨_, -, misfit⟩
            cases isSum.symm.trans misfit.kept
      | none =>
          simp only [misfit_iff wellFormed inFunction inBlock isSum]
          cases f.fusedBuilder.bind v (value.rename f.fusedVar) with
          | ok _ =>
              constructor
              · intro h
                cases h
              · rintro ⟨_, -, fails⟩
                cases fails
          | error e' =>
              constructor
              · intro h
                cases h
                exact ⟨e', rfl, rfl⟩
              · rintro ⟨_, rfl, ⟨⟩⟩
                rfl

theorem misfit?_eq_none (inFunction : block ∈ f.blocks) (inBlock : x ∈ block.bindings) :
    f.misfit? block x = none ↔ ∀ e, ¬ f.Misfit block x e := by
  rw [Option.eq_none_iff_forall_ne_some]
  constructor
  · intro none e misfit
    exact none _ ((misfit?_eq_some wellFormed inFunction inBlock).2 ⟨e, rfl, misfit⟩)
  · intro none fault found
    obtain ⟨e, -, misfit⟩ := (misfit?_eq_some wellFormed inFunction inBlock).1 found
    exact none e misfit

theorem fusionFault?_eq_none : f.fusionFault? = none ↔ f.Refits := by
  rw [fusionFault?, List.findSome?_eq_none_iff, refits_iff]
  refine forall₂_congr fun block inFunction => ?_
  rw [List.findSome?_eq_none_iff]
  exact forall₂_congr fun x inBlock => misfit?_eq_none wellFormed inFunction inBlock

theorem fusionFault?_eq_some {fault : LoweringError} :
    f.fusionFault? = some fault ↔ ∃ e, fault = .build f.name e ∧ f.FirstMisfit e := by
  rw [fusionFault?, List.findSome?_eq_some_iff]
  constructor
  · rintro ⟨before, block, after, splitBlocks, found, earlier⟩
    have inFunction : block ∈ f.blocks := by simp [splitBlocks]
    obtain ⟨done, x, rest, split, found, first⟩ := List.findSome?_eq_some_iff.1 found
    obtain ⟨e, rfl, misfit⟩ :=
      (misfit?_eq_some wellFormed inFunction (by simp [split])).1 found
    refine ⟨e, rfl, before, block, after, done, x, rest, splitBlocks, split, misfit,
      fun y mem => ?_, fun other mem y inOther => ?_⟩
    · exact (misfit?_eq_none wellFormed inFunction (by simp [split, mem])).1 (first y mem)
    · exact (misfit?_eq_none wellFormed (by simp [splitBlocks, mem]) inOther).1
        (List.findSome?_eq_none_iff.1 (earlier other mem) y inOther)
  · rintro ⟨e, rfl, before, block, after, done, x, rest, splitBlocks, split, misfit, first,
      earlier⟩
    have inFunction : block ∈ f.blocks := by simp [splitBlocks]
    refine ⟨before, block, after, splitBlocks, List.findSome?_eq_some_iff.2
      ⟨done, x, rest, split, ?_, fun y mem => ?_⟩, fun other mem => ?_⟩
    · exact (misfit?_eq_some wellFormed inFunction (by simp [split])).2 ⟨e, rfl, misfit⟩
    · exact (misfit?_eq_none wellFormed inFunction (by simp [split, mem])).2 (first y mem)
    · refine List.findSome?_eq_none_iff.2 fun y inOther => ?_
      exact (misfit?_eq_none wellFormed (by simp [splitBlocks, mem]) inOther).2
        (earlier other mem y inOther)

end Faults

end Function

namespace Module

variable {m : Module}

/-- A module is fused unless a binding of one of its functions does not fit any more, and the error
is that of the first such binding of the first such function. The binding then reads a variable that
a new one has taken the place of. -/
theorem fuse_verdict (regular : ∀ f ∈ m.functions, f.Regular) :
    (∀ fault, Pass.fusion.run m = .error fault ↔ ∃ before f after e,
      m.functions = before ++ f :: after ∧ (fault = .build f.name e ∧ f.FirstMisfit e) ∧
        ∀ g ∈ before, g.Refits) ∧
    ((∃ m', Pass.fusion.run m = .ok m') ↔ ∀ f ∈ m.functions, f.Refits) ∧
    (∀ m', Pass.fusion.run m = .ok m' → ∀ key f, m.get? key = some (.function f) →
      m'.get? key = some (.function f.fused)) ∧
    ∀ f ∈ m.functions, ∀ block ∈ f.blocks, ∀ x ∈ block.bindings, ∀ e, f.Misfit block x e →
      ∃ v ∈ x.value.reads, f.fusedVar v ≠ v := by
  have fuses {f : Function} (mem : f ∈ m.functions) : Answers f.fusionFault? (· = f.fused) f.fuse :=
    Function.fuse_answers (regular f mem).settled.1 (regular f mem).settled.2
  have wellFormed {f : Function} (mem : f ∈ m.functions) : f.WellFormed :=
    Function.wellFormed_of_check (regular f mem).settled.2
  have answers : Answers (m.functions.findSome? Function.fusionFault?) (fun _ => True)
      (Pass.fusion.run m) :=
    mapFunctions_answers fun f mem => (fuses mem).imp fun _ _ => trivial
  refine ⟨fun fault => ?_, ?_, fun m' fused key f found => ?_, fun f mem block inFunction x inBlock
    e misfit => ?_⟩
  · rw [answers.eq_error_iff, List.findSome?_eq_some_iff]
    constructor
    · rintro ⟨before, f, after, split, fails, earlier⟩
      have mem : f ∈ m.functions := by simp [split]
      obtain ⟨e, is⟩ := (Function.fusionFault?_eq_some (wellFormed mem)).1 fails
      refine ⟨before, f, after, e, split, is, fun g mem => ?_⟩
      exact (Function.fusionFault?_eq_none (wellFormed (by simp [split, mem]))).1 (earlier g mem)
    · rintro ⟨before, f, after, e, split, is, earlier⟩
      have mem : f ∈ m.functions := by simp [split]
      refine ⟨before, f, after, split, (Function.fusionFault?_eq_some (wellFormed mem)).2 ⟨e, is⟩,
        fun g mem => ?_⟩
      exact (Function.fusionFault?_eq_none (wellFormed (by simp [split, mem]))).2 (earlier g mem)
  · rw [answers.exists_eq_ok_iff, List.findSome?_eq_none_iff]
    exact forall₂_congr fun f mem => Function.fusionFault?_eq_none (wellFormed mem)
  · have mem : f ∈ m.functions := mem_functions.2 ⟨key, found⟩
    obtain ⟨g, there, lowered⟩ := get?_mapFunctions fused found
    have none := (fuses mem).exists_eq_ok_iff.1 ⟨g, lowered⟩
    have result := fuses mem
    rw [none] at result
    obtain ⟨g', lowered', rfl⟩ := result
    cases lowered.symm.trans lowered'
    exact there
  · exact Function.exists_renamed (regular f mem).settled.1 inFunction inBlock misfit

/-- The history of a function with a sum of which no shape is recorded, and a name for the sum of
which one may be:

    fn main(x: (n * 2,), y: (n * 2,)) {
      dataflow { lv0 = multiply(x, y); s = add(lv0, y) }
      u: shape = s; return u
    }
-/
def straining (shape : Option Shape) : List Builder.Action :=
  let even : Shape := [.binary .mul (.var ⟨0⟩) (.int 2)]
  [.dimVar "n", .param "x" (some even) (some (.tensor (some 1) .float32)),
    .param "y" (some even) (some (.tensor (some 1) .float32)), .openRegion,
    .emit (.ofOp .multiply [.var ⟨0⟩, .var ⟨1⟩]),
    .fresh ⟨"s", .plain, none, some (.tensor (some 1) .float32)⟩,
    .bind ⟨3⟩ (.ofOp .add [.var ⟨2⟩, .var ⟨1⟩]), .closeRegion,
    .fresh ⟨"u", .plain, shape, some (.tensor (some 1) .float32)⟩, .bind ⟨4⟩ (.var ⟨3⟩)]

/-- Nothing is claimed of the name, and so it fits whatever is inferred of the sum. -/
def relaxed : Function :=
  (({ name := "relaxed" } : Builder).performAll (straining none)).toFunction (.var ⟨4⟩)

/-- The shape of the name is that of the sum, for every `n`, but it is not the same data. -/
def strained : Function :=
  (({ name := "main" } : Builder).performAll
    (straining (some [.binary .mul (.int 2) (.var ⟨0⟩)]))).toFunction (.var ⟨4⟩)

theorem regular_relaxed : relaxed.Regular :=
  ⟨{ name := "relaxed" }, straining none, .var ⟨4⟩, .new _, by decide +kernel, by decide +kernel⟩

theorem regular_strained : strained.Regular :=
  ⟨{ name := "main" }, straining (some [.binary .mul (.int 2) (.var ⟨0⟩)]), .var ⟨4⟩, .new _,
    by decide +kernel, by decide +kernel⟩

/-- The builder has taken the name for the sum, and does not take it for the fused operation. -/
theorem strained_refused : strained.Regular ∧
    (Module.ofEntries [("main", .function strained)]).get? "main" = some (.function strained) ∧
    Pass.fusion.run (Module.ofEntries [("main", .function strained)]) =
      .error (.build "main" (.shapeMismatch "u" "(2 * n,)" "(n * 2,)")) :=
  ⟨regular_strained, by decide +kernel, by decide +kernel⟩

theorem fuse_verdict_strained :
    (∃ m', Pass.fusion.run (Module.ofEntries [("relaxed", .function relaxed)]) = .ok m' ∧
      m'.get? "relaxed" = some (.function relaxed.fused)) ∧
    Pass.fusion.run (Module.ofEntries [("relaxed", .function relaxed),
      ("main", .function strained)]) =
        .error (.build "main" (.shapeMismatch "u" "(2 * n,)" "(n * 2,)")) := by
  have relaxedRefits : relaxed.Refits :=
    (Function.fusionFault?_eq_none (Function.wellFormed_of_check regular_relaxed.settled.2)).1
      (by decide +kernel)
  constructor
  · generalize only : Module.ofEntries [("relaxed", .function relaxed)] = m
    have functions : m.functions = [relaxed] := by
      rw [← only]
      decide +kernel
    have found : m.get? "relaxed" = some (.function relaxed) := by
      rw [← only]
      decide +kernel
    obtain ⟨-, fuses, results, -⟩ := fuse_verdict (m := m) (by
      rw [functions]
      exact List.forall_mem_singleton.2 regular_relaxed)
    rw [functions] at fuses
    obtain ⟨m', fused⟩ := fuses.2 (List.forall_mem_singleton.2 relaxedRefits)
    exact ⟨m', fused, results m' fused _ _ found⟩
  · generalize mixed : Module.ofEntries [("relaxed", .function relaxed),
      ("main", .function strained)] = m
    have functions : m.functions = [relaxed, strained] := by
      rw [← mixed]
      decide +kernel
    have regular : ∀ f ∈ m.functions, f.Regular := by
      rw [functions]
      exact List.forall_mem_cons.2 ⟨regular_relaxed, List.forall_mem_singleton.2 regular_strained⟩
    have fails : strained.fusionFault? =
        some (.build "main" (.shapeMismatch "u" "(2 * n,)" "(n * 2,)")) := by decide +kernel
    have wellFormed := Function.wellFormed_of_check regular_strained.settled.2
    obtain ⟨e, is, first⟩ := (Function.fusionFault?_eq_some wellFormed).1 fails
    exact ((fuse_verdict regular).1 _).2 ⟨[relaxed], strained, [], e, functions, ⟨is, first⟩,
      List.forall_mem_singleton.2 relaxedRefits⟩

end Module

end TensorIR
