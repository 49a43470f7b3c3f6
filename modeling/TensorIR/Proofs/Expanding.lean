import TensorIR.Proofs.Expansion
import TensorIR.Proofs.Walking

/-!
# A pass that expands bindings

A pass that goes through a function binding by binding makes the expanded function of it if each of
its steps does its part: it appends the expansion of the binding, with the new variable allocated,
or gives up on a malformed call. `Expansion.Emits` is that for one step, in a builder that is known
in full (`Expansion.reached`). The steps make a walk (`Expansion.walk`), so the whole pass fails at
the first malformed call, in program order over all blocks, and nowhere else. Regions close, since
an expansion makes visible what its binding did, and the builder finds nothing to object to at the
end, since the expanded function is well formed.
-/

namespace TensorIR

/-- A malformed call as a fault of the pass. -/
def malformedCall? (fault? : Binding → Option CallFault) (function : String) (position : Nat)
    (x : Binding) : Option LoweringError :=
  (fault? x).map (.malformedCall function position)

section Malformed

variable {fault? : Binding → Option CallFault} {function : String} {position : Nat}

theorem firstMalformed_eq_none {xs : List Binding} :
    Emitter.firstFault? (malformedCall? fault? function) position xs = none ↔
      ∀ x ∈ xs, fault? x = none := by
  induction xs generalizing position with
  | nil => exact iff_of_true rfl (List.forall_mem_nil _)
  | cons x xs ih =>
      rw [Emitter.firstFault?_cons, Option.or_eq_none_iff, malformedCall?,
        Option.map_eq_none_iff, ih, List.forall_mem_cons]

/-- Where the first malformed call stands. -/
theorem firstMalformed_eq_some {xs : List Binding} {e : LoweringError}
    (malformed : Emitter.firstFault? (malformedCall? fault? function) position xs = some e) :
    ∃ done x rest fault, xs = done ++ x :: rest ∧ (∀ y ∈ done, fault? y = none) ∧
      fault? x = some fault ∧ e = .malformedCall function (position + done.length) fault := by
  induction xs generalizing position with
  | nil => cases malformed
  | cons x xs ih =>
      rw [Emitter.firstFault?_cons, malformedCall?] at malformed
      cases here : fault? x with
      | some fault =>
          rw [here] at malformed
          cases malformed
          exact ⟨[], x, xs, fault, rfl, List.forall_mem_nil _, here, rfl⟩
      | none =>
          rw [here] at malformed
          obtain ⟨done, y, rest, fault, rfl, fine, found, rfl⟩ := ih malformed
          refine ⟨x :: done, y, rest, fault, rfl, List.forall_mem_cons.2 ⟨here, fine⟩, found, ?_⟩
          rw [List.length_cons, Nat.add_right_comm, Nat.add_assoc]

end Malformed

namespace Expansion

variable {E : Expansion} {f : Function} {before after : List Block} {block : Block}
  {kind : BlockKind} {done rest : List Binding} {x : Binding} {v : Var}

/-- The builder when some blocks have been expanded and then some bindings of one more. -/
def reached (E : Expansion) (f : Function) (before : List Block) (current : Block) : Builder :=
  { Builder.reopen f with
    vars := f.vars ++ E.records (before ++ [current])
    blocks := before.map (E.expandedBlock f)
    pending := current.bindings.flatMap (E.expanded f)
    inDataflow := current.isDataflow }

theorem reached_kept (kept : E.beside? x = none) :
    E.reached f before ⟨kind, done ++ [x]⟩ =
      { E.reached f before ⟨kind, done⟩ with
        pending := (E.reached f before ⟨kind, done⟩).pending ++ E.expanded f x } := by
  simp [reached, records, kept, Block.isDataflow]

theorem reached_beside (beside : E.beside? x = some v) :
    E.reached f before ⟨kind, done ++ [x]⟩ =
      { E.reached f before ⟨kind, done⟩ with
        vars := (E.reached f before ⟨kind, done⟩).vars ++ [{ E.record x with kind := kind.varKind }]
        pending := (E.reached f before ⟨kind, done⟩).pending ++ E.expanded f x } := by
  simp [reached, records, beside, Block.isDataflow]

theorem currentKind_reached : (E.reached f before block).currentKind = block.kind.varKind := by
  obtain ⟨kind, bindings⟩ := block
  cases kind <;> rfl

/-- The new variable comes next when it is the turn of its binding. -/
theorem newVar_reached (lawful : E.Lawful f) (wellFormed : f.WellFormed)
    (splitBlocks : f.blocks = before ++ block :: after) (split : block.bindings = done ++ x :: rest)
    (beside : E.beside? x = some v) :
    E.newVar f v = ⟨(E.reached f before ⟨block.kind, done⟩).vars.length⟩ := by
  have place := Function.bindings_of_split splitBlocks split
  rw [newVar_of_split place beside (lawful.not_besides_before wellFormed place beside)]
  simp [reached, length_records]

/-- A settled binding that is not expanded is taken as it is. -/
theorem push_kept (settled : f.Settled) (splitBlocks : f.blocks = before ++ block :: after)
    (split : block.bindings = done ++ x :: rest) (kept : E.beside? x = none)
    (same : E.expanded f x = [x]) :
    building f.name ((E.reached f before ⟨block.kind, done⟩).push x) =
      .ok (E.reached f before ⟨block.kind, done ++ [x]⟩) := by
  have here := (settled block (by simp [splitBlocks])).bindings x (by simp [split])
  have grown : x.Settled (E.reached f before ⟨block.kind, done⟩).vars
    (E.reached f before ⟨block.kind, done⟩).inDataflow := here.grow
  rw [building_eq_ok, Builder.push_settled grown, reached_kept kept, same]
  rfl

/-- A value that reads old variables only is emitted under the new variable beside a binding, if
what is recorded of that is what is inferred of the value. -/
theorem emitNamed_reached (lawful : E.Lawful f) (wellFormed : f.WellFormed)
    (splitBlocks : f.blocks = before ++ block :: after) (split : block.bindings = done ++ x :: rest)
    (beside : E.beside? x = some v) {value : Expr} (reads : ∀ u ∈ value.reads, f.Allocates u)
    {name : String} (record : ∀ kind, { E.record x with kind } =
      ⟨name, kind, value.inferShape? f.vars, value.inferTy? f.vars⟩) (pending : List Binding) :
    ({ E.reached f before ⟨block.kind, done⟩ with pending } : Builder).emitNamed name value =
      ({ E.reached f before ⟨block.kind, done⟩ with
          vars := (E.reached f before ⟨block.kind, done⟩).vars ++
            [{ E.record x with kind := block.kind.varKind }]
          pending := pending ++ [.define (E.newVar f v) (value.annotate f.vars)] },
        E.newVar f v) := by
  have agree : ∀ u ∈ value.reads,
      (E.reached f before ⟨block.kind, done⟩).vars[u.index]? = f.vars[u.index]? :=
    fun u read => getElem?_grown (reads u read)
  have kind : (E.reached f before ⟨block.kind, done⟩).currentKind = block.kind.varKind :=
    currentKind_reached
  have info := record block.kind.varKind
  rw [newVar_reached lawful wellFormed splitBlocks split beside, info,
    ← Expr.inferShape?_congr agree, ← Expr.inferTy?_congr agree, ← Expr.annotate_congr agree,
    ← Expr.inferShape?_annotate, ← Expr.inferTy?_annotate, ← kind]
  rfl

/-- A variable that was bound can be bound again, to what fits as the old value did. -/
theorem bindable_again (settled : f.Settled) (splitBlocks : f.blocks = before ++ block :: after)
    (split : block.bindings = done ++ x :: rest) {value : Expr} (is : x = .define v value) :
    ∃ info, v.Bindable f.vars block.isDataflow info ∧ info.Fits f.vars x.value := by
  have here := (settled block (by simp [splitBlocks])).bindings x (by simp [split])
  rw [is] at here ⊢
  exact here.accepted

/-- Each step of the pass appends the expansion of its binding, or gives up on it. -/
def Emits (E : Expansion) (f : Function) (fault? : Binding → Option CallFault)
    (emit : Nat → Binding → Builder → Lowered Builder) : Prop :=
  ∀ before block after done x rest position, f.blocks = before ++ block :: after →
    block.bindings = done ++ x :: rest →
      Answers (malformedCall? fault? f.name position x)
        (· = E.reached f before ⟨block.kind, done ++ [x]⟩)
        (emit position x (E.reached f before ⟨block.kind, done⟩))

/-! ### The walk through the function -/

variable {fault? : Binding → Option CallFault} {emit : Nat → Binding → Builder → Lowered Builder}

theorem ended_reached (lawful : E.Lawful f) (nonempty : block.bindings ≠ []) :
    { (E.reached f before block).endBlock block.kind with inDataflow := false } =
      E.reached f (before ++ [block]) ⟨.plain, []⟩ := by
  have pending : (E.reached f before block).pending ≠ [] := by
    intro empty
    obtain ⟨x, inBlock⟩ := List.exists_mem_of_ne_nil _ nonempty
    exact (lawful x).nonempty _ (List.flatMap_eq_nil_iff.1 empty x inBlock)
  rw [Builder.endBlock_of_nonempty block.kind pending]
  simp only [reached, records_empty, List.map_append]
  rfl

/-- What a region makes visible afterwards its expansion makes visible too. -/
theorem exists_isOutput (lawful : E.Lawful f) (inBlock : x ∈ block.bindings)
    (output : x.IsOutput f.vars) :
    ∃ y ∈ block.bindings.flatMap (E.expanded f), y.IsOutput f.vars := by
  cases x with
  | matchShape v? value pattern =>
      have same : E.expanded f (.matchShape v? value pattern) = [.matchShape v? value pattern] := by
        rcases (lawful (.matchShape v? value pattern)).patterns with same | ⟨none, -⟩
        · exact same _
        · cases none
      refine ⟨.matchShape v? value pattern, List.mem_flatMap.2 ⟨_, inBlock, ?_⟩, trivial⟩
      rw [same]
      exact List.mem_singleton_self _
  | define v value =>
      have defined : v ∈ (E.expanded f (.define v value)).filterMap Binding.defined? :=
        ((lawful _).defines _).mem_iff.2 (List.mem_append_left _ List.mem_cons_self)
      obtain ⟨y, here, defines⟩ := List.mem_filterMap.1 defined
      refine ⟨y, List.mem_flatMap.2 ⟨_, inBlock, here⟩, ?_⟩
      cases y with
      | matchShape _ _ _ => trivial
      | define w _ =>
          cases defines
          exact output

/-- The pass takes the builder from each place to the next. There is nothing that it remembers. -/
theorem walk (lawful : E.Lawful f) (settled : f.Settled) (emits : E.Emits f fault? emit) :
    Emitter.Walk (fun position x (_ : Unit) b => ((), ·) <$> emit position x b) id f
      (fun _ => malformedCall? fault? f.name)
      (fun before block done => E.reached f before ⟨block.kind, done⟩) (fun _ _ => True)
      fun _ _ _ _ => True where
  inDataflow _ _ _ := rfl
  pending _ := rfl
  begins before block := by
    simp only [reached, records_empty]
    rfl
  enters _ := id
  step := by
    intro before block after done x rest _ position splitBlocks split _
    have step := emits before block after done x rest position splitBlocks split
    exact step.map fun b same => ⟨same, trivial⟩
  output := by
    intro before block after splitBlocks dataflow
    obtain ⟨x, inBlock, output⟩ := (settled block (by simp [splitBlocks])).output dataflow
    obtain ⟨y, emitted, visible⟩ := exists_isOutput lawful inBlock output
    exact ⟨y, emitted, visible.grow⟩
  ends splitBlocks := ended_reached lawful (settled _ (by simp [splitBlocks])).nonempty
  leaves _ := id

theorem finish_reached (lawful : E.Lawful f) (wellFormed : f.WellFormed) :
    (E.reached f f.blocks ⟨.plain, []⟩).finish f.body = .ok (E.apply f) := by
  refine Builder.finish_eq_ok_iff.2 ⟨rfl, rfl, ?_, ?_⟩
  · simp only [reached, records_empty]
    rfl
  · exact Function.check_of_wellFormed (lawful.wellFormed wellFormed)

theorem replaceBindings_answers (lawful : E.Lawful f) (settled : f.Settled)
    (wellFormed : f.WellFormed) (emits : E.Emits f fault? emit) :
    Answers (Emitter.firstFault? (malformedCall? fault? f.name) 0 f.bindings) (· = E.apply f)
      (f.replaceBindings emit) := by
  have start : E.reached f [] ⟨.plain, []⟩ = .reopen f := by
    simp [reached, records, Builder.reopen, Block.isDataflow]
  have walked := (walk lawful settled emits).emitBlocks (s := ()) (List.nil_append _).symm trivial 0
  rw [start, Emitter.blocksFault?_flatMap] at walked
  refine walked.bind_ok ?_
  rintro ⟨⟨⟩, b⟩ ⟨rfl, -⟩
  exact ⟨_, building_eq_ok.2 (finish_reached lawful wellFormed), rfl⟩

/-- Without malformed calls the pass makes the expanded function. -/
theorem replaceBindings_expands (lawful : E.Lawful f) (settled : f.Settled)
    (wellFormed : f.WellFormed) (emits : E.Emits f fault? emit)
    (fine : ∀ x ∈ f.bindings, fault? x = none) :
    ∃ g r, f.replaceBindings emit = .ok g ∧ E.Expands f r g := by
  have answers := replaceBindings_answers lawful settled wellFormed emits
  rw [firstMalformed_eq_none.2 fine] at answers
  obtain ⟨g, replaced, rfl⟩ := answers
  exact ⟨E.apply f, E.newVar f, replaced, lawful.expands wellFormed⟩

/-- Otherwise it fails at the first of them. -/
theorem replaceBindings_fails (lawful : E.Lawful f) (settled : f.Settled)
    (wellFormed : f.WellFormed) (emits : E.Emits f fault? emit)
    (malformed : ¬ ∀ x ∈ f.bindings, fault? x = none) :
    ∃ done x rest fault, f.bindings = done ++ x :: rest ∧ (∀ y ∈ done, fault? y = none) ∧
      fault? x = some fault ∧
      f.replaceBindings emit = .error (.malformedCall f.name done.length fault) := by
  have answers := replaceBindings_answers lawful settled wellFormed emits
  cases first : Emitter.firstFault? (malformedCall? fault? f.name) 0 f.bindings with
  | none => exact absurd (firstMalformed_eq_none.1 first) malformed
  | some e =>
      rw [first] at answers
      obtain ⟨done, x, rest, fault, split, before, here, rfl⟩ := firstMalformed_eq_some first
      rw [Nat.zero_add] at answers
      exact ⟨done, x, rest, fault, split, before, here, answers⟩

end Expansion

end TensorIR
