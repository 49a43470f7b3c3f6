import TensorIR.Proofs.Destinations
import TensorIR.Proofs.History
import TensorIR.Proofs.Modules

/-!
# Fusion and what is allocated for outputs

Fusion keeps the calls in destination-passing style, each under its variable and with its inputs
renamed. So the outputs that are allocated are the same, in the same order, with fusion before or
without it. Their element types are another matter. The new variable that takes the place of a sum
is recorded with what is inferred of the fused operation, be it more or less than was recorded of
the sum. An output without a type of its own has its element type from the first input that is known
to be a tensor, and such a variable can come to be that input or be another tensor there
(`Module.allocations_retyped`). Nothing else changes an element type
(`Module.allocations_of_fused`): what an input behind the first tensor reads has no say in it.
-/

namespace TensorIR

/-- What is recorded of the type of the variable. -/
def Function.ty? (f : Function) (v : Var) : Option Ty := f.vars[v.index]?.bind VarInfo.ty

/-- How the second function has the variables of the first: those of some sums are replaced by new
ones, and what is recorded of all others is kept. -/
structure Function.Replaces (f : Function) (r : Var → Var) (g : Function) : Prop where
  vars : f.vars <+: g.vars
  defined : g.defined = f.defined.map r
  fresh : ∀ v, r v ≠ v → f.vars.length ≤ (r v).index
  sums : ∀ v, r v ≠ v → ∃ x ∈ f.bindings, x.defined? = some v ∧ x.Invokes .add

/-- The element type of an expression, as far as the function knows it. -/
def Function.elem? (f : Function) (e : Expr) : Option ElemType :=
  (e.inferTy? f.vars).bind Ty.elem?

/-- Nothing is recorded of the element type of `v`, and one of the inputs of its call has not the
same element type in both functions while no input before it has any. It reads a variable that is
replaced by one of another type, and not only of another rank or length. -/
def Function.Retypes (f : Function) (r : Var → Var) (g : Function) (v : Var) : Prop :=
  (f.ty? v).bind Ty.elem? = none ∧
    ∃ head shape kernel before e after,
      .define v (.call head [.shape shape, .external kernel, .tuple (before ++ e :: after)]) ∈
        f.bindings ∧ head.callee = .op .callDps ∧
      (∀ input ∈ before, f.elem? input = none ∧ g.elem? (input.rename r) = none) ∧
      f.elem? e ≠ g.elem? (e.rename r) ∧
      ∃ u ∈ e.reads, r u ≠ u ∧ ¬ Option.Rel Ty.Similar (f.ty? u) (g.ty? (r u))

/-- Allocations of the same output, in the one function and in the other. -/
structure Function.SameOutput (f : Function) (r : Var → Var) (g : Function)
    (p q : Var × ElemType) : Prop where
  var : q.1 = p.1
  elem : q.2 ≠ p.2 → f.Retypes r g p.1

/-! ### Calls under a renaming -/

namespace DpsCall

variable {r : Var → Var} {args : List Expr} {call : DpsCall}

/-- The call with its arguments renamed. -/
def renamed (r : Var → Var) (p : Var × List Expr) : Var × List Expr :=
  (p.1, p.2.map (Expr.rename r))

theorem ofArgs_eq_ok_iff : ofArgs args = .ok call ↔
    args = [.shape call.shape, .external call.kernel, .tuple call.inputs] :=
  ⟨ofArgs_eq_ok, fun is => is ▸ rfl⟩

/-- The arguments are those of a call before renaming just if they are after it. -/
theorem ofArgs_rename {call' : DpsCall} :
    ofArgs (args.map (Expr.rename r)) = .ok call' ↔ ∃ call, ofArgs args = .ok call ∧
      call' = { call with inputs := call.inputs.map (Expr.rename r) } := by
  simp only [ofArgs_eq_ok_iff]
  constructor
  · intro renamed
    simp only [List.map_eq_cons_iff, List.map_eq_nil_iff, Expr.rename_eq_shape,
      Expr.rename_eq_external, Expr.rename_eq_tuple] at renamed
    obtain ⟨_, _, rfl, rfl, _, _, rfl, rfl, _, _, rfl, ⟨inputs, rfl, same⟩, rfl⟩ := renamed
    exact ⟨⟨call'.shape, call'.kernel, inputs⟩, rfl, by rw [same]⟩
  · rintro ⟨call, rfl, rfl⟩
    simp [Expr.rename, Expr.renameAll_eq_map]

end DpsCall

/-- Two searches of a list end differently only if they differ at one of its members, and neither
has found anything before the first one. -/
theorem exists_of_findSome?_ne {α β : Type} {p q : α → Option β} {xs : List α}
    (differ : xs.findSome? p ≠ xs.findSome? q) : ∃ before x after, xs = before ++ x :: after ∧
      (∀ y ∈ before, p y = none ∧ q y = none) ∧ p x ≠ q x := by
  induction xs with
  | nil => exact absurd rfl differ
  | cons x xs ih =>
      by_cases same : p x = q x
      · rw [List.findSome?_cons, List.findSome?_cons, ← same] at differ
        cases found : p x with
        | some y =>
            rw [found] at differ
            exact absurd rfl differ
        | none =>
            rw [found] at differ same
            obtain ⟨before, y, after, rfl, unknown, other⟩ := ih differ
            exact ⟨x :: before, y, after, rfl,
              List.forall_mem_cons.2 ⟨⟨found, same.symm⟩, unknown⟩, other⟩
      · exact ⟨[], x, xs, rfl, List.forall_mem_nil _, same⟩

namespace Function

variable {f g : Function} {r : Var → Var}

theorem Replaces.kept (h : f.Replaces r g) {v : Var} (allocated : f.Allocates v) :
    g.vars[v.index]? = f.vars[v.index]? :=
  getElem?_of_prefix h.vars allocated

/-- An expression has the same element type in both functions if the variables that it reads do. -/
theorem Replaces.elem_input (h : f.Replaces r g) {e : Expr}
    (allocated : ∀ u ∈ e.reads, f.Allocates u)
    (similar : ∀ u ∈ e.reads, r u ≠ u → Option.Rel Ty.Similar (f.ty? u) (g.ty? (r u))) :
    g.elem? (e.rename r) = f.elem? e := by
  have types : Option.Rel Ty.Similar (e.inferTy? f.vars) ((e.rename r).inferTy? g.vars) := by
    refine Expr.rel_inferTy?_rename Ty.congruence_similar fun u read => ?_
    by_cases own : r u = u
    · rw [own, h.kept (allocated u read)]
      exact Ty.congruence_similar.refl? _
    · exact similar u read own
  exact (rel_eq_iff.1 (rel_bind types fun _ _ related =>
    rel_eq_iff.2 (Ty.congruence_similar.elem related))).symm

/-- Where the element types of an output differ, one of the inputs is to blame. -/
theorem Replaces.retypes (h : f.Replaces r g) (wellFormed : f.Scoped) {v : Var}
    {head : CallHead} {args : List Expr} {call : DpsCall} {info : VarInfo}
    (mem : .define v (.call head args) ∈ f.bindings) (callee : head.callee = .op .callDps)
    (read : DpsCall.ofArgs args = .ok call) (found : f.vars[v.index]? = some info)
    (differ : DpsCall.outputElem { call with inputs := call.inputs.map (Expr.rename r) } info
      g.vars ≠ call.outputElem info f.vars) : f.Retypes r g v := by
  have recorded : info.ty.bind Ty.elem? = none := by
    refine Option.eq_none_iff_forall_ne_some.2 fun elem isElem => differ ?_
    rw [DpsCall.outputElem_of_recorded isElem, DpsCall.outputElem_of_recorded isElem]
  have first : call.inputs.findSome? f.elem? ≠
      call.inputs.findSome? fun e => g.elem? (e.rename r) := by
    intro same
    refine differ ?_
    simp only [DpsCall.outputElem, recorded, List.findSome?_map]
    exact congrArg (fun ofInput : Option ElemType => (none <|> ofInput).getD .float32) same.symm
  obtain ⟨before, e, after, split, unknown, other⟩ := exists_of_findSome?_ne first
  refine ⟨by rw [ty?, found]; exact recorded, head, call.shape, call.kernel, before, e, after, ?_,
    callee, unknown, other, ?_⟩
  · rwa [← split, ← DpsCall.ofArgs_eq_ok read]
  · by_contra similar
    push Not at similar
    have input : e ∈ call.inputs := by simp [split]
    refine other (h.elem_input (fun u inInput => ?_) similar).symm
    exact wellFormed.reads _ mem u (DpsCall.mem_reads read input inInput)

theorem Replaces.output (h : f.Replaces r g) (wellFormed : f.Scoped) {v : Var} {args : List Expr}
    (mem : (v, args) ∈ f.dpsCalls) :
    Option.Rel (f.SameOutput r g) (DpsCall.output? f.vars (v, args))
      (DpsCall.output? g.vars (DpsCall.renamed r (v, args))) := by
  obtain ⟨head, inFunction, callee⟩ := mem_dpsCalls.1 mem
  have allocated : f.Allocates v := wellFormed.definitions v (mem_defined inFunction rfl)
  have found := List.getElem?_eq_getElem allocated
  have found' := (h.kept allocated).trans found
  cases read : DpsCall.ofArgs args with
  | error e =>
      have fails : (DpsCall.ofArgs (args.map (Expr.rename r))).toOption = none := by
        cases read' : DpsCall.ofArgs (args.map (Expr.rename r)) with
        | error e' => rfl
        | ok call' =>
            obtain ⟨call, isCall, -⟩ := DpsCall.ofArgs_rename.1 read'
            cases read.symm.trans isCall
      simp only [DpsCall.output?, DpsCall.renamed, read, fails]
      exact .none
  | ok call =>
      have read' := (DpsCall.ofArgs_rename (r := r)).2 ⟨call, read, rfl⟩
      simp only [DpsCall.output?, DpsCall.renamed, read, read', found, found']
      exact .some ⟨rfl, h.retypes wellFormed inFunction callee read found⟩

end Function

/-! ### What fusion keeps -/

/-- A variable is not read before its definition. -/
theorem not_read_before {f : Function} {done rest : List Binding} {x y : Binding} {v : Var}
    (wellFormed : f.Scoped) (dominated : f.Dominated) (split : f.bindings = done ++ x :: rest)
    (defines : v ∈ x.defined?) (before : y ∈ done) : v ∉ y.value.reads := by
  intro read
  obtain ⟨param, new⟩ := not_defined_before wellFormed split defines
  obtain ⟨earlier, later, rfl⟩ := List.append_of_mem before
  rw [List.append_assoc] at split
  have known := dominated.reads split v read
  rw [List.filterMap_append, List.mem_append, not_or] at new
  rcases List.mem_append.1 known with isParam | defined
  · exact param isParam
  · exact new.1 defined

namespace Fusion

variable {f g : Function} {x : Binding} {done rest : List Binding} {s s' : Fusion}
  {b b' : Builder} {v : Var}

theorem dpsCall?_keptBinding (x : Binding) (s : Fusion) (b : Builder) :
    (keptBinding x s b).dpsCall? = x.dpsCall?.map (DpsCall.renamed s.renames.apply) := by
  cases x with
  | matchShape _ _ _ => rfl
  | define v value =>
      cases value with
      | call head args =>
          show (if head.callee = _ then _ else _) = Option.map _ (if head.callee = _ then _ else _)
          split
          · rw [Expr.renameAll_eq_map]
            rfl
          · rfl
      | var _ | shape _ | tuple _ | item _ _ | const _ | external _ | global _ => rfl

theorem dpsCall?_fused (v : Var) (operands : List Expr) (vars : List VarInfo) :
    (Binding.define v ((Expr.ofOp .fma operands).annotate vars)).dpsCall? = none := rfl

/-- What becomes of a sum is a sum before. -/
theorem invokes_add_of_sum {value : Expr} {head : CallHead} {args : List Expr} {ρ : Renaming}
    (sum : value.substitute ρ = .call head args) (callee : head.callee = .op .add) :
    (Binding.define v value).Invokes .add := by
  obtain ⟨args, rfl, -⟩ := Expr.rename_eq_call sum
  exact ⟨v, head, args, rfl, callee⟩

theorem not_callDps_of_add (h : x.Invokes .add) : ¬ x.Invokes .callDps := by
  rintro ⟨v, head, args, rfl, callee⟩
  obtain ⟨_, _, _, is, callee'⟩ := h
  cases is
  rw [callee] at callee'
  cases callee'

/-- The calls so far are kept, their arguments renamed. -/
structure Calls (f : Function) (done : List Binding) (s : Fusion) (b : Builder) : Prop
    extends Renamed f done s b where
  vars : f.vars <+: b.vars
  calls : b.bindings.filterMap Binding.dpsCall? =
    (done.filterMap Binding.dpsCall?).map (DpsCall.renamed s.renames.apply)
  sums : ∀ v, s.renames.apply v ≠ v → ∃ x ∈ done, x.defined? = some v ∧ x.Invokes .add

theorem Calls.kept (h : Calls f done s b) (wellFormed : f.Scoped)
    (split : f.bindings = done ++ x :: rest) :
    Calls f (done ++ [x]) s (b.append (keptBinding x s b)) where
  toRenamed := renamed_append wellFormed split h.toRenamed (defined?_keptBinding x s b)
  vars := h.vars
  calls := by
    rw [Builder.bindings_append, List.filterMap_append, List.filterMap_append, List.map_append,
      h.calls]
    refine congrArg _ ?_
    rw [List.filterMap_cons, List.filterMap_cons, dpsCall?_keptBinding]
    cases x.dpsCall? <;> rfl
  sums v moved := by
    obtain ⟨y, mem, sum⟩ := h.sums v moved
    exact ⟨y, List.mem_append_left _ mem, sum⟩

theorem calls_step (wellFormed : f.Scoped) (dominated : f.Dominated)
    (split : f.bindings = done ++ x :: rest) (h : Calls f done s b) (step : Step x s b s' b') :
    Calls f (done ++ [x]) s' b' := by
  have names := renamed_step wellFormed split h.toRenamed step
  cases step with
  | kept => exact h.kept wellFormed split
  | product _ _ _ =>
      have kept := h.kept (b := b) wellFormed split
      exact ⟨names, kept.vars, kept.calls, kept.sums⟩
  | @inPlace v value _ _ _ _ _ is sum callee _ =>
      subst is
      have isSum := invokes_add_of_sum (v := v) sum callee
      have none := Binding.dpsCall?_eq_none (not_callDps_of_add isSum)
      refine ⟨names, h.vars, ?_, fun u moved => ?_⟩
      · rw [Builder.bindings_append, List.filterMap_append, List.filterMap_append, h.calls]
        simp [none, dpsCall?_fused]
      · obtain ⟨y, mem, isSum⟩ := h.sums u moved
        exact ⟨y, List.mem_append_left _ mem, isSum⟩
  | @renamed v value _ _ _ _ _ _ info is sum callee _ =>
      subst is
      have isSum := invokes_add_of_sum (v := v) sum callee
      have none := Binding.dpsCall?_eq_none (not_callDps_of_add isSum)
      -- No call so far reads the variable that gets a new name.
      have earlier : (done.filterMap Binding.dpsCall?).map
            (DpsCall.renamed (Renaming.apply ((v, ⟨b.vars.length⟩) :: s.renames))) =
          (done.filterMap Binding.dpsCall?).map (DpsCall.renamed s.renames.apply) := by
        refine List.map_congr_left fun p mem => ?_
        obtain ⟨y, before, call⟩ := List.mem_filterMap.1 mem
        obtain ⟨head, rfl, -⟩ := Binding.dpsCall?_eq_some.1 call
        refine congrArg (Prod.mk p.1) (List.map_congr_left fun e arg => ?_)
        refine Expr.rename_congr fun u read => ?_
        rw [Renaming.apply_cons, if_neg]
        rintro rfl
        exact not_read_before wellFormed dominated split rfl before (Expr.mem_readsAll arg read)
      refine ⟨names, h.vars.trans (List.prefix_append _ _), ?_, fun u moved => ?_⟩
      · rw [Builder.bindings_append, Builder.bindings_fresh, List.filterMap_append,
          List.filterMap_append, List.map_append, earlier, h.calls]
        simp [none, dpsCall?_fused]
      · by_cases same : u = v
        · exact ⟨_, List.mem_append_right _ List.mem_cons_self, congrArg some same.symm, isSum⟩
        · rw [Renaming.apply_cons, if_neg same] at moved
          obtain ⟨y, mem, isSum⟩ := h.sums u moved
          exact ⟨y, List.mem_append_left _ mem, isSum⟩

theorem calls_keeps (wellFormed : f.Scoped) (dominated : f.Dominated) :
    (emitter f).Keeps f.bindings (Calls f) :=
  fun split h emitted => calls_step wellFormed dominated split h (step_of_emitter emitted)

theorem calls_ignoresBlocks : Emitter.IgnoresBlocks (Calls f) :=
  fun bindings vars params h => ⟨renamed_ignoresBlocks bindings vars params h.toRenamed,
    vars ▸ h.vars, bindings ▸ h.calls, h.sums⟩

theorem Calls.enter (h : Calls f done s b) : Calls f done { s with products := [] } b :=
  ⟨renamed_enter h.toRenamed, h.vars, h.calls, h.sums⟩

theorem calls_start (f : Function) : Calls f [] {} (.reopen f) :=
  ⟨renamed_start f, List.prefix_rfl, rfl, fun _ moved => absurd rfl moved⟩

end Fusion

namespace Function

variable {f g : Function}

/-- Fusion keeps the calls in destination-passing style, with renamed arguments. -/
theorem replaces_of_fuse (wellFormed : f.check = .ok ()) (fused : f.fuse = .ok g) :
    ∃ r, f.Replaces r g ∧ g.dpsCalls = f.dpsCalls.map (DpsCall.renamed r) := by
  have wf := scoped_of_check wellFormed
  simp only [fuse] at fused
  obtain ⟨⟨s, b⟩, emitted, finished⟩ := bind_eq_ok.1 fused
  obtain ⟨bindings, -, vars, params, -⟩ := Builder.finish_eq_ok (building_eq_ok.1 finished)
  have last : Fusion.Calls f f.bindings s b :=
    Emitter.emitBlocks_invariant (Fusion.calls_keeps wf (dominated_of_check wellFormed))
      Fusion.calls_ignoresBlocks Fusion.Calls.enter (List.nil_append _).symm
      (Fusion.calls_start f) emitted
  refine ⟨s.renames.apply, ⟨vars ▸ last.vars, last.defined_eq wf bindings params, fun v moved => ?_,
    last.sums⟩, ?_⟩
  · obtain ⟨x, mem, defines, -⟩ := last.sums v moved
    rcases last.images v (wf.definitions v (mem_defined mem defines)) with own | fresh
    · exact absurd own moved
    · exact fresh.1
  · rw [dpsCalls, bindings]
    exact last.calls

/-- The outputs of a function are those of the fused one, one by one. -/
theorem Replaces.outputs {r : Var → Var} (h : f.Replaces r g) (wellFormed : f.Scoped)
    (calls : g.dpsCalls = f.dpsCalls.map (DpsCall.renamed r)) :
    List.Forall₂ (f.SameOutput r g) f.outputs g.outputs := by
  have paired : List.Forall₂ (fun p q => p ∈ f.dpsCalls ∧ q = DpsCall.renamed r p)
      f.dpsCalls g.dpsCalls := by
    rw [calls, List.forall₂_map_right_iff]
    exact List.forall₂_same.2 fun p mem => ⟨mem, rfl⟩
  refine List.rel_filterMap ?_ paired
  rintro ⟨v, args⟩ _ ⟨mem, rfl⟩
  exact h.output wellFormed mem

end Function

namespace Module

/-- With fusion before or without it, destinations allocate the same outputs in the same order, and
with the same element type wherever that is taken from types that fusion keeps. -/
theorem allocations_of_fused {m fused direct viaFused : Module}
    (wellFormed : ∀ f ∈ m.functions, f.check = .ok ()) (fusion : Pass.fusion.run m = .ok fused)
    (alone : Pass.destinations.run m = .ok direct)
    (after : Pass.destinations.run fused = .ok viaFused) {key : String} {f : Function}
    (found : m.get? key = some (.function f)) :
    ∃ g f' g' r, fused.get? key = some (.function g) ∧ direct.get? key = some (.function f') ∧
      viaFused.get? key = some (.function g') ∧ f.Replaces r g ∧
      List.Forall₂ (f.SameOutput r g) (f.newAllocations f') (g.newAllocations g') := by
  obtain ⟨g, foundFused, fuses⟩ := get?_mapFunctions fusion found
  obtain ⟨f', foundDirect, allocated⟩ := get?_mapFunctions alone found
  obtain ⟨g', foundVia, allocatedAfter⟩ := get?_mapFunctions after foundFused
  have checked := wellFormed f (mem_functions.2 ⟨key, found⟩)
  obtain ⟨r, replaces, calls⟩ := Function.replaces_of_fuse checked fuses
  refine ⟨g, f', g', r, foundFused, foundDirect, foundVia, replaces, ?_⟩
  rw [Function.newAllocations_eq_outputs checked allocated,
    Function.newAllocations_eq_outputs (Function.check_of_fuse fuses) allocatedAfter]
  exact replaces.outputs (Function.scoped_of_check checked) calls

/-- How to see that destinations can be allocated with fusion before and without it. -/
theorem exists_runs {m : Module} (alone : (Pass.destinations.run m).toOption.isSome)
    (both : ((Pass.fusion.run m).toOption.bind fun m =>
      (Pass.destinations.run m).toOption).isSome) :
    ∃ fused direct viaFused, Pass.fusion.run m = .ok fused ∧
      Pass.destinations.run m = .ok direct ∧ Pass.destinations.run fused = .ok viaFused := by
  obtain ⟨direct, alone⟩ := exists_eq_ok alone
  cases fusion : Pass.fusion.run m with
  | error e =>
      rw [fusion] at both
      cases both
  | ok fused =>
      rw [fusion] at both
      obtain ⟨viaFused, after⟩ := exists_eq_ok both
      exact ⟨fused, direct, viaFused, rfl, alone, after⟩

theorem newAllocations_of_run {m direct : Module} {key : String} {f f' : Function}
    {outputs : List (Var × ElemType)} (alone : Pass.destinations.run m = .ok direct)
    (found : m.get? key = some (.function f)) (there : direct.get? key = some (.function f'))
    (all : f.allocateOutputs.toOption.map f.newAllocations = some outputs) :
    f.newAllocations f' = outputs := by
  obtain ⟨_, foundDirect, allocated⟩ := get?_mapFunctions alone found
  cases there.symm.trans foundDirect
  rw [allocated] at all
  exact Option.some.inj all

end Module

namespace Builder

/-- The history of a function with a sum of which no type is recorded:

    fn main(x: (4), int32) {
      dataflow {
        lv0 = multiply(x, x)
        s = add(lv0, x)
        v = call_dps((4), extern("k"), (s,))
        gv0 = call_dps((4), extern("k"), (s,))
      }
      return (v, gv0)
    }

Nothing is recorded of `v` either, and `gv0` is recorded with the type that is inferred of it. -/
def retyping : List Action :=
  [.param "x" (some [.int 4]) (some (.tensor (some 1) .int32)), .openRegion,
    .emit (.ofOp .multiply [.var ⟨0⟩, .var ⟨0⟩]), .fresh ⟨"s", .dataflow, none, none⟩,
    .bind ⟨2⟩ (.ofOp .add [.var ⟨1⟩, .var ⟨0⟩]), .fresh ⟨"v", .plain, none, none⟩,
    .bind ⟨3⟩ (.ofOp .callDps [.shape [.int 4], .external "k", .tuple [.var ⟨2⟩]]),
    .emitOutput (.ofOp .callDps [.shape [.int 4], .external "k", .tuple [.var ⟨2⟩]]),
    .closeRegion]

/-- The function that the history builds. -/
def retyped : Function :=
  (({ name := "main" } : Builder).performAll retyping).toFunction (.tuple [.var ⟨3⟩, .var ⟨4⟩])

/-- The module of this function alone. -/
def retypedModule : Module := .ofEntries [("main", .function retyped)]

/-- The same function with one more output that nothing is recorded of, before the region ends:

    w = call_dps((4), extern("k"), (x, s))
-/
def retypedSecond : Function :=
  (({ name := "main" } : Builder).performAll (retyping.dropLast ++
    [.fresh ⟨"w", .plain, none, none⟩,
      .bind ⟨5⟩ (.ofOp .callDps [.shape [.int 4], .external "k", .tuple [.var ⟨0⟩, .var ⟨2⟩]]),
      .closeRegion])).toFunction (.tuple [.var ⟨3⟩, .var ⟨4⟩, .var ⟨5⟩])

/-- The module of this function alone. -/
def retypedSecondModule : Module := .ofEntries [("main", .function retypedSecond)]

end Builder

namespace Module

open Builder

theorem retypedSecond_found : retypedSecondModule.get? "main" = some (.function retypedSecond) := by
  decide +kernel

/-- The first input of the call for `w` is a parameter that is known to be a tensor, so that nothing
behind it matters, and no parameter is replaced. -/
theorem not_retypes_second {r : Var → Var} {g : Function} (replaces : retypedSecond.Replaces r g) :
    ¬ retypedSecond.Retypes r g ⟨5⟩ := by
  rintro ⟨-, head, shape, kernel, before, e, after, mem, callee, unknown, -, u, read, moved, -⟩
  have calls : retypedSecond.dpsCalls = [
      (⟨3⟩, [.shape [.int 4], .external "k", .tuple [.var ⟨2⟩]]),
      (⟨4⟩, [.shape [.int 4], .external "k", .tuple [.var ⟨2⟩]]),
      (⟨5⟩, [.shape [.int 4], .external "k", .tuple [.var ⟨0⟩, .var ⟨2⟩]])] := by decide +kernel
  have call := Function.mem_dpsCalls.2 ⟨head, mem, callee⟩
  rw [calls] at call
  obtain ⟨-, -, inputs⟩ : shape = [.int 4] ∧ kernel = "k" ∧
      before ++ e :: after = [.var ⟨0⟩, .var ⟨2⟩] := by simpa using call
  cases before with
  | nil =>
      obtain ⟨rfl, -⟩ := List.cons_eq_cons.1 inputs
      obtain rfl : u = ⟨0⟩ := by simpa [Expr.reads] using read
      obtain ⟨x, inFunction, defines, -⟩ := replaces.sums ⟨0⟩ moved
      exact absurd ⟨x, inFunction, defines⟩
        (show ¬ ∃ x ∈ retypedSecond.bindings, x.defined? = some ⟨0⟩ by decide +kernel)
  | cons input before =>
      obtain ⟨rfl, -⟩ := List.cons_eq_cons.1 inputs
      exact absurd (unknown _ List.mem_cons_self).1 (by decide +kernel)

/-- The output with a type of its own keeps that, and so its element type. The one whose first input
is a tensor of integers takes its element type from there, although fusion replaces the second. -/
theorem allocations_of_fused_retyped :
    ∃ fused direct viaFused g f' g' elem, Pass.fusion.run retypedSecondModule = .ok fused ∧
      Pass.destinations.run retypedSecondModule = .ok direct ∧
      Pass.destinations.run fused = .ok viaFused ∧ fused.get? "main" = some (.function g) ∧
      direct.get? "main" = some (.function f') ∧ viaFused.get? "main" = some (.function g') ∧
      retypedSecond.newAllocations f' =
        [(⟨3⟩, .float32), (⟨4⟩, .float32), (⟨5⟩, .int32)] ∧
      g.newAllocations g' = [(⟨3⟩, elem), (⟨4⟩, .float32), (⟨5⟩, .int32)] := by
  obtain ⟨fused, direct, viaFused, fusion, alone, after⟩ :=
    exists_runs (m := retypedSecondModule) (by decide +kernel) (by decide +kernel)
  obtain ⟨g, f', g', r, foundFused, foundDirect, foundVia, replaces, outputs⟩ :=
    allocations_of_fused (by decide +kernel) fusion alone after retypedSecond_found
  have three := newAllocations_of_run alone retypedSecond_found foundDirect
    (show _ = some [(⟨3⟩, .float32), (⟨4⟩, .float32), (⟨5⟩, .int32)] by decide +kernel)
  rw [three] at outputs
  obtain ⟨⟨v, elem⟩, _, first, outputs, isFirst⟩ := List.forall₂_cons_left_iff.1 outputs
  obtain ⟨⟨w, elem'⟩, _, second, outputs, isSecond⟩ := List.forall₂_cons_left_iff.1 outputs
  obtain ⟨⟨z, elem''⟩, _, third, last, isThird⟩ := List.forall₂_cons_left_iff.1 outputs
  cases List.forall₂_nil_left_iff.1 last
  obtain rfl : v = ⟨3⟩ := first.var
  obtain rfl : w = ⟨4⟩ := second.var
  obtain rfl : z = ⟨5⟩ := third.var
  obtain rfl : elem' = .float32 := by
    by_contra differ
    exact absurd (second.elem differ).1 (by decide +kernel)
  obtain rfl : elem'' = .int32 := by
    by_contra differ
    exact not_retypes_second replaces (third.elem differ)
  subst isThird isSecond
  exact ⟨fused, direct, viaFused, g, f', g', elem, fusion, alone, after, foundFused, foundDirect,
    foundVia, three, isFirst⟩

/-- Fusion replaces the sum by a variable of integers, and the output without a type follows. -/
theorem allocations_retyped :
    Regular { name := "main" } retyping ∧
      (performAll { name := "main" } retyping).finish (.tuple [.var ⟨3⟩, .var ⟨4⟩]) = .ok retyped ∧
      ∃ fused direct viaFused g f' g', Pass.fusion.run retypedModule = .ok fused ∧
        Pass.destinations.run retypedModule = .ok direct ∧
        Pass.destinations.run fused = .ok viaFused ∧ fused.get? "main" = some (.function g) ∧
        direct.get? "main" = some (.function f') ∧ viaFused.get? "main" = some (.function g') ∧
        retyped.newAllocations f' = [(⟨3⟩, .float32), (⟨4⟩, .float32)] ∧
        g.newAllocations g' = [(⟨3⟩, .int32), (⟨4⟩, .float32)] := by
  refine ⟨by decide +kernel, by decide +kernel, ?_⟩
  obtain ⟨fused, direct, viaFused, fusion, alone, after⟩ :=
    exists_runs (m := retypedModule) (by decide +kernel) (by decide +kernel)
  have found : retypedModule.get? "main" = some (.function retyped) := by decide +kernel
  obtain ⟨g, foundFused, fuses⟩ := get?_mapFunctions fusion found
  obtain ⟨f', foundDirect, -⟩ := get?_mapFunctions alone found
  obtain ⟨g', foundVia, -⟩ := get?_mapFunctions after foundFused
  have all : (retyped.fuse.toOption.bind fun g =>
      g.allocateOutputs.toOption.map g.newAllocations) =
        some [(⟨3⟩, .int32), (⟨4⟩, .float32)] := by decide +kernel
  rw [fuses] at all
  exact ⟨fused, direct, viaFused, g, f', g', fusion, alone, after, foundFused, foundDirect,
    foundVia, newAllocations_of_run alone found foundDirect (by decide +kernel),
    newAllocations_of_run after foundFused foundVia all⟩

end Module

end TensorIR
