import TensorIR.Proofs.ShapeHeap.Verdict

/-!
# Bound before use

What lowering to the heap says about a function that a builder has handed out, in terms of the
function alone. The parameters and the patterns of its bindings bind dimension variables, and its
symbolic shapes mention them. A variable that is mentioned has to be bound somewhere, and it has to
be bound before it is mentioned; a variable that the pattern of a binding binds is not bound yet
where the matched value mentions it.

There is one more reason to fail. A matched value may be given a name, and the builder has never
compared it with what is recorded of that name. Lowering makes the name an alias of the value, and
then the two are compared. Where they agree, the order of bindings and mentions decides (`Verdict`).
Where only the types are known to agree, a shape that is another than the recorded one can get in
the way (`Breaks`).
-/

namespace TensorIR

/-- A function that was handed out after a history of emissions, binds only plain variables, and has
no call inside of another expression. -/
structure Function.Flat (f : Function) : Prop where
  emitted : f.Emitted
  plain : ∀ x ∈ f.bindings, ∀ v ∈ x.defined?, f.kind? v = some .plain
  inner : ∀ x ∈ f.bindings, x.value.innerCalls = []
  result : f.body.calls = []

namespace Function

variable {f : Function} {d : DimVar} {e : BuildError} {n : Nat}

theorem Flat.lowerable (flat : f.Flat) : f.Lowerable :=
  ⟨flat.emitted.settled.1, flat.emitted.settled.2, flat.plain, flat.inner, flat.result⟩

/-! ### Bindings and mentions of dimension variables -/

/-- A dimension variable is bound before a position: it stands alone in the recorded shape of a
parameter, or in the pattern of an earlier binding. -/
inductive Binds (f : Function) (position : Nat) (d : DimVar) : Prop where
  | param {v info shape} (param : v ∈ f.params) (recorded : f.vars[v.index]? = some info)
      (known : info.shape = some shape) (alone : .var d ∈ shape)
  | pattern {i v? value pattern} (earlier : i < position)
      (at_ : f.bindings[i]? = some (.matchShape v? value pattern)) (alone : .var d ∈ pattern)

/-- The dimension variables in symbolic shapes in program order, each with the number of bindings
before it. -/
def mentions (f : Function) : List (Nat × DimVar) :=
  (f.bindings.zipIdx.flatMap fun (x, i) =>
      (x.value.symbolicShapes.flatMap Shape.vars).map (i, ·)) ++
    (f.body.symbolicShapes.flatMap Shape.vars).map (f.bindings.length, ·)

theorem mem_paramVars_iff : d ∈ (f.params.filterMap f.paramArrival?).flatMap Arrival.vars ↔
    ∃ v ∈ f.params, ∃ info, f.vars[v.index]? = some info ∧
      ∃ shape, info.shape = some shape ∧ .var d ∈ shape := by
  constructor
  · intro mem
    obtain ⟨a, mem, bare⟩ := List.mem_flatMap.1 mem
    obtain ⟨v, param, arrives⟩ := List.mem_filterMap.1 mem
    obtain ⟨shape, known, rfl⟩ := Option.map_eq_some_iff.1 arrives
    obtain ⟨info, recorded, known⟩ := Option.bind_eq_some_iff.1 known
    exact ⟨v, param, info, recorded, shape, known, mem_bound.1 bare⟩
  · rintro ⟨v, param, info, recorded, shape, known, alone⟩
    have arrives : f.paramArrival? v = some ⟨.param v, .var v, shape⟩ := by
      rw [paramArrival?, recorded, Option.bind_some, known, Option.map_some]
    exact List.mem_flatMap.2 ⟨_, List.mem_filterMap.2 ⟨v, param, arrives⟩, mem_bound.2 alone⟩

theorem mem_boundBefore_iff : d ∈ f.boundBefore n ↔ f.Binds n d := by
  rw [boundBefore, List.mem_append, mem_paramVars_iff]
  constructor
  · rintro (⟨v, param, info, recorded, shape, known, alone⟩ | inPatterns)
    · exact .param param recorded known alone
    · obtain ⟨x, mem, bare⟩ := List.mem_flatMap.1 inPatterns
      obtain ⟨i, at_⟩ := List.mem_iff_getElem?.1 mem
      rw [List.getElem?_take] at at_
      split at at_
      · next earlier =>
          cases x with
          | define _ _ => cases bare
          | matchShape v? value pattern => exact .pattern earlier at_ (mem_bound.1 bare)
      · cases at_
  · rintro (⟨param, recorded, known, alone⟩ | @⟨i, v?, value, pattern, earlier, at_, alone⟩)
    · exact .inl ⟨_, param, _, recorded, _, known, alone⟩
    · have mem : .matchShape v? value pattern ∈ f.bindings.take n :=
        List.mem_iff_getElem?.2 ⟨i, by rwa [List.getElem?_take_of_lt earlier]⟩
      exact .inr (List.mem_flatMap.2 ⟨_, mem, mem_bound.2 alone⟩)

/-! ### Matched values with a name -/

/-- Every variable that names a matched value has a type that is compatible with that of the
value, as far as both are known. -/
def NamesCompatible (f : Function) : Prop :=
  ∀ v value pattern info, .matchShape (some v) value pattern ∈ f.bindings →
    f.vars[v.index]? = some info → ∀ t ∈ info.ty, ∀ u ∈ value.inferTy? f.vars,
      t.compatible u = true

/-- Every variable that names a matched value has the shape of the value as well. -/
def NamesFit (f : Function) : Prop :=
  ∀ v value pattern info, .matchShape (some v) value pattern ∈ f.bindings →
    f.vars[v.index]? = some info → info.Fits f.vars value

theorem NamesFit.compatible (fit : f.NamesFit) : f.NamesCompatible :=
  fun v value pattern info mem recorded => (fit v value pattern info mem recorded).ty

/-- The binding at a position names a matched value whose shape is another than the recorded one. -/
inductive Clashes (f : Function) (position : Nat) : BuildError → Prop where
  | intro {v value pattern info s t}
      (at_ : f.bindings[position]? = some (.matchShape (some v) value pattern))
      (recorded : f.vars[v.index]? = some info) (known : info.shape = some s)
      (inferred : value.inferShape? f.vars = some t) (differ : s ≠ t) :
    Clashes f position (.shapeMismatch info.name (s.render f.dimNames) (t.render f.dimNames))

theorem Clashes.exists_binding (clash : f.Clashes n e) : ∃ x, f.bindings[n]? = some x := by
  cases clash with
  | intro at_ _ _ _ _ => exact ⟨_, at_⟩

theorem NamesFit.not_clashes (fit : f.NamesFit) : ¬ f.Clashes n e := by
  rintro ⟨at_, recorded, known, inferred, differ⟩
  exact differ ((fit _ _ _ _ (List.mem_of_getElem? at_) recorded).shape _ known _ inferred)

/-- A matched value that has a name fails to be an alias by its shape alone. -/
theorem bind_of_named (lowerable : f.Lowerable) (compatible : f.NamesCompatible) {v : Var}
    {value : Expr} {pattern : Shape} {info : VarInfo}
    (mem : .matchShape (some v) value pattern ∈ f.bindings)
    (recorded : f.vars[v.index]? = some info) :
    (Builder.reopen f).bind v value = ((Builder.reopen f).checkShape info value).map
      fun _ => (Builder.reopen f).append (.define v value) := by
  have annotated : value.annotate (Builder.reopen f).vars = value := by
    have same := congrArg Binding.value (lowerable.settled _ mem).annotated
    rwa [Binding.value_annotated] at same
  have plain : info.isDataflow = false := by
    obtain ⟨info', found, plain⟩ := Option.map_eq_some_iff.1 (lowerable.plain _ mem v rfl)
    rw [recorded] at found
    cases found
    rw [VarInfo.isDataflow, plain]
    rfl
  have bindable : (Builder.reopen f).bindable v = .ok info :=
    Builder.bindable_eq_ok.2 ⟨recorded, fun dataflow => by rw [plain] at dataflow; cases dataflow⟩
  have ty : (Builder.reopen f).checkTy info value = .ok () :=
    Builder.checkTy_eq_ok.2 (compatible v value pattern info mem recorded)
  simp only [Builder.bind, annotated, bindable, ty, ok_bind]
  cases (Builder.reopen f).checkShape info value <;> rfl

theorem fault?_named (lowerable : f.Lowerable) (compatible : f.NamesCompatible) {x : Binding}
    {fault : LoweringError} (at_ : f.bindings[n]? = some x) :
    x.naming?.toList.findSome? (Demand.fault? f) = some fault ↔
      ∃ e, f.Clashes n e ∧ fault = .build f.name e := by
  cases x with
  | define v value =>
      refine ⟨nofun, ?_⟩
      rintro ⟨_, ⟨at', _, _, _, _⟩, _⟩
      rw [at_] at at'
      cases at'
  | matchShape v? value pattern =>
      cases v? with
      | none =>
          refine ⟨nofun, ?_⟩
          rintro ⟨_, ⟨at', _, _, _, _⟩, _⟩
          rw [at_] at at'
          cases at'
      | some v =>
          have mem := List.mem_of_getElem? at_
          obtain ⟨info, recorded, -⟩ := Option.map_eq_some_iff.1 (lowerable.plain _ mem v rfl)
          rw [Binding.naming?, Option.toList_some, List.findSome?_singleton, Demand.fault?,
            bind_of_named lowerable compatible mem recorded]
          constructor
          · intro h
            cases checked : (Builder.reopen f).checkShape info value with
            | ok _ =>
                rw [checked] at h
                cases h
            | error e =>
                rw [checked] at h
                cases h
                obtain ⟨s, known, t, inferred, differ, rfl⟩ := Builder.checkShape_eq_error.1 checked
                exact ⟨_, .intro at_ recorded known inferred differ, rfl⟩
          · rintro ⟨_, ⟨at', recorded', known, inferred, differ⟩, rfl⟩
            rw [at_] at at'
            cases at'
            rw [recorded] at recorded'
            cases recorded'
            have refused : (Builder.reopen f).checkShape info value = .error _ :=
              Builder.checkShape_eq_error.2 ⟨_, known, _, inferred, differ, rfl⟩
            rw [refused]
            rfl

/-! ### The order of bindings and mentions -/

theorem findSome?_demands_eq_none {value : Expr} :
    (value.demands n).findSome? (Demand.fault? f) = none ↔
      ∀ d ∈ value.symbolicShapes.flatMap Shape.vars, f.Binds n d := by
  rw [findSome?_demands, Option.map_eq_none_iff, List.find?_eq_none]
  refine forall₂_congr fun d _ => ?_
  rw [decide_eq_true_eq, Classical.not_not, mem_boundBefore_iff]

theorem map_snd_mentions : f.mentions.map Prod.snd = f.symbolicShapes.flatMap Shape.vars := by
  have inBindings (k : Nat) : ((f.bindings.zipIdx k).flatMap fun (x, i) =>
      (x.value.symbolicShapes.flatMap Shape.vars).map (i, ·)).map Prod.snd =
      (f.bindings.flatMap fun x => x.value.symbolicShapes).flatMap Shape.vars := by
    induction f.bindings generalizing k with
    | nil => rfl
    | cons x xs ih =>
        rw [List.zipIdx_cons, List.flatMap_cons, List.map_append, ih, List.flatMap_cons,
          List.flatMap_append, List.map_map]
        exact congrArg (· ++ _) (List.map_id _)
  rw [mentions, List.map_append, inBindings, symbolicShapes, List.flatMap_append, List.map_map]
  exact congrArg (_ ++ ·) (List.map_id _)

theorem mem_mentions_iff : (n, d) ∈ f.mentions ↔
    (∃ x, f.bindings[n]? = some x ∧ d ∈ x.value.symbolicShapes.flatMap Shape.vars) ∨
      (n = f.bindings.length ∧ d ∈ f.body.symbolicShapes.flatMap Shape.vars) := by
  rw [mentions, List.mem_append]
  refine or_congr ?_ ?_
  · constructor
    · intro mem
      obtain ⟨⟨x, i⟩, at_, mem⟩ := List.mem_flatMap.1 mem
      obtain ⟨d, mem, same⟩ := List.mem_map.1 mem
      cases same
      exact ⟨x, List.mem_zipIdx_iff_getElem?.1 at_, mem⟩
    · rintro ⟨x, at_, mem⟩
      exact List.mem_flatMap.2 ⟨(x, n), List.mem_zipIdx_iff_getElem?.2 at_,
        List.mem_map.2 ⟨d, mem, rfl⟩⟩
  · constructor
    · intro mem
      obtain ⟨d, mem, same⟩ := List.mem_map.1 mem
      cases same
      exact ⟨rfl, mem⟩
    · rintro ⟨rfl, mem⟩
      exact List.mem_map.2 ⟨d, mem, rfl⟩

/-- The first fault of a list of bindings is that of the first binding with a fault. -/
theorem findSome?_zipIdx_eq_some {xs : List Binding} {k : Nat} {fault : LoweringError} :
    ((xs.zipIdx k).flatMap fun (x, i) => x.demands i).findSome? (Demand.fault? f) = some fault ↔
      ∃ (n : Nat) (x : Binding), xs[n]? = some x ∧
        (x.demands (k + n)).findSome? (Demand.fault? f) = some fault ∧
        ∀ (j : Nat) (y : Binding), j < n → xs[j]? = some y →
          (y.demands (k + j)).findSome? (Demand.fault? f) = none := by
  induction xs generalizing k with
  | nil => exact ⟨nofun, nofun⟩
  | cons x xs ih =>
      rw [List.zipIdx_cons, List.flatMap_cons, List.findSome?_append, Option.or_eq_some_iff, ih]
      constructor
      · rintro (here | ⟨none, n, y, at_, later, before⟩)
        · exact ⟨0, x, rfl, here, nofun⟩
        · refine ⟨n + 1, y, at_, by rwa [← Nat.add_assoc, Nat.add_right_comm], ?_⟩
          rintro (_ | j) z earlier at'
          · cases at'
            exact none
          · have := before j z (Nat.lt_of_succ_lt_succ earlier) at'
            rwa [← Nat.add_assoc, Nat.add_right_comm]
      · rintro ⟨_ | n, y, at_, here, before⟩
        · cases at_
          exact .inl here
        · refine .inr ⟨before 0 x (Nat.succ_pos n) rfl, n, y, at_, ?_, fun j z earlier at' => ?_⟩
          · rwa [← Nat.add_assoc, Nat.add_right_comm] at here
          · have := before (j + 1) z (Nat.succ_lt_succ earlier) at'
            rwa [← Nat.add_assoc, Nat.add_right_comm] at this

theorem findSome?_zipIdx_eq_none {xs : List Binding} :
    (xs.zipIdx.flatMap fun (x, i) => x.demands i).findSome? (Demand.fault? f) = none ↔
      ∀ (n : Nat) (x : Binding), xs[n]? = some x →
        (x.demands n).findSome? (Demand.fault? f) = none := by
  simp only [List.findSome?_eq_none_iff, List.mem_flatMap, Prod.exists,
    List.mem_zipIdx_iff_getElem?]
  exact ⟨fun none n x at_ a mem => none a ⟨x, n, at_, mem⟩,
    fun none a ⟨x, n, at_, mem⟩ => none n x at_ a mem⟩

section Faults

variable (lowerable : f.Lowerable) (compatible : f.NamesCompatible)
include lowerable compatible

theorem fault_of_binding_eq_none {x : Binding} (at_ : f.bindings[n]? = some x) :
    (x.demands n).findSome? (Demand.fault? f) = none ↔
      (∀ d ∈ x.value.symbolicShapes.flatMap Shape.vars, f.Binds n d) ∧ ∀ e, ¬ f.Clashes n e := by
  rw [Binding.demands, List.findSome?_append, Option.or_eq_none_iff, findSome?_demands_eq_none]
  refine and_congr_right fun _ => ?_
  rw [Option.eq_none_iff_forall_ne_some]
  constructor
  · intro none e clash
    exact none _ ((fault?_named lowerable compatible at_).2 ⟨e, clash, rfl⟩)
  · intro none fault named
    obtain ⟨e, clash, -⟩ := (fault?_named lowerable compatible at_).1 named
    exact none e clash

theorem fault_of_binding_eq_build {x : Binding} (at_ : f.bindings[n]? = some x) {name : String} :
    (x.demands n).findSome? (Demand.fault? f) = some (.build name e) ↔
      (∀ d ∈ x.value.symbolicShapes.flatMap Shape.vars, f.Binds n d) ∧ name = f.name ∧
        f.Clashes n e := by
  rw [Binding.demands, List.findSome?_append, Option.or_eq_some_iff, findSome?_demands_eq_none,
    findSome?_demands, fault?_named lowerable compatible at_]
  constructor
  · rintro (unready | ⟨ready, e', clash, same⟩)
    · obtain ⟨d, -, same⟩ := Option.map_eq_some_iff.1 unready
      cases same
    · cases same
      exact ⟨ready, rfl, clash⟩
  · rintro ⟨ready, rfl, clash⟩
    exact .inr ⟨ready, e, clash, rfl⟩

theorem faults_eq_none : f.demands.findSome? (Demand.fault? f) = none ↔
    (∀ m ∈ f.mentions, f.Binds m.1 m.2) ∧ ∀ n e, ¬ f.Clashes n e := by
  rw [demands, List.findSome?_append, Option.or_eq_none_iff, findSome?_zipIdx_eq_none,
    findSome?_demands_eq_none]
  constructor
  · rintro ⟨none, ready⟩
    refine ⟨?_, fun n e clash => ?_⟩
    · rintro ⟨n, d⟩ mem
      obtain ⟨x, at_, named⟩ | ⟨rfl, named⟩ := mem_mentions_iff.1 mem
      · exact ((fault_of_binding_eq_none lowerable compatible at_).1 (none n x at_)).1 d named
      · exact ready d named
    · obtain ⟨x, at_⟩ := clash.exists_binding
      exact ((fault_of_binding_eq_none lowerable compatible at_).1 (none n x at_)).2 e clash
  · rintro ⟨ready, fits⟩
    refine ⟨fun n x at_ => ?_, fun d mem => ?_⟩
    · exact (fault_of_binding_eq_none lowerable compatible at_).2
        ⟨fun d mem => ready (n, d) (mem_mentions_iff.2 (.inl ⟨x, at_, mem⟩)), fits n⟩
    · exact ready (_, d) (mem_mentions_iff.2 (.inr ⟨rfl, mem⟩))

theorem faults_eq_build {name : String} :
    f.demands.findSome? (Demand.fault? f) = some (.build name e) ↔ name = f.name ∧
      ∃ n, f.Clashes n e ∧ (∀ m ∈ f.mentions, m.1 ≤ n → f.Binds m.1 m.2) ∧
        ∀ j < n, ∀ e', ¬ f.Clashes j e' := by
  have inBody : (f.body.demands f.bindings.length).findSome? (Demand.fault? f) ≠
      some (.build name e) := by
    rw [findSome?_demands]
    intro same
    obtain ⟨d, -, same⟩ := Option.map_eq_some_iff.1 same
    cases same
  rw [demands, List.findSome?_append, Option.or_eq_some_iff, findSome?_zipIdx_eq_some]
  simp only [Nat.zero_add]
  constructor
  · rintro (⟨n, x, at_, here, before⟩ | ⟨-, body⟩)
    · obtain ⟨ready, rfl, clash⟩ := (fault_of_binding_eq_build lowerable compatible at_).1 here
      have earlier (j : Nat) (y : Binding) (lt : j < n) (at' : f.bindings[j]? = some y) :=
        (fault_of_binding_eq_none lowerable compatible at').1 (before j y lt at')
      refine ⟨rfl, n, clash, ?_, fun j lt e' clash' => ?_⟩
      · rintro ⟨j, d⟩ mem le
        obtain ⟨y, at', named⟩ | ⟨rfl, -⟩ := mem_mentions_iff.1 mem
        · rcases Nat.lt_or_eq_of_le le with lt | rfl
          · exact (earlier j y lt at').1 d named
          · rw [at_] at at'
            cases at'
            exact ready d named
        · exact absurd (List.getElem?_eq_some_iff.1 at_).1 (Nat.not_lt.2 le)
      · obtain ⟨y, at'⟩ := clash'.exists_binding
        exact (earlier j y lt at').2 e' clash'
    · exact absurd body inBody
  · rintro ⟨rfl, n, clash, ready, fits⟩
    obtain ⟨x, at_⟩ := clash.exists_binding
    refine .inl ⟨n, x, at_, ?_, fun j y lt at' => ?_⟩
    · exact (fault_of_binding_eq_build lowerable compatible at_).2
        ⟨fun d mem => ready (n, d) (mem_mentions_iff.2 (.inl ⟨x, at_, mem⟩)) (Nat.le_refl n),
          rfl, clash⟩
    · exact (fault_of_binding_eq_none lowerable compatible at').2
        ⟨fun d mem => ready (j, d) (mem_mentions_iff.2 (.inl ⟨y, at', mem⟩)) (Nat.le_of_lt lt),
          fits j lt⟩

end Faults

/-! ### The verdict -/

theorem Binds.mono {k : Nat} (binds : f.Binds n d) (le : n ≤ k) : f.Binds k d := by
  obtain ⟨param, recorded, known, alone⟩ | ⟨earlier, at_, alone⟩ := binds
  · exact .param param recorded known alone
  · exact .pattern (Nat.lt_of_lt_of_le earlier le) at_ alone

theorem le_of_mem_mentions (mem : (n, d) ∈ f.mentions) : n ≤ f.bindings.length := by
  obtain ⟨x, at_, -⟩ | ⟨rfl, -⟩ := mem_mentions_iff.1 mem
  · exact Nat.le_of_lt (List.getElem?_eq_some_iff.1 at_).1
  · exact Nat.le_refl _

theorem unboundDimVar?_eq : f.unboundDimVar? =
    (f.mentions.find? fun m => m.2 ∉ f.boundBefore f.bindings.length).map Prod.snd := by
  rw [unboundDimVar?, ← map_snd_mentions, List.find?_map]
  rfl

theorem unboundDimVar?_eq_none :
    f.unboundDimVar? = none ↔ ∀ m ∈ f.mentions, f.Binds f.bindings.length m.2 := by
  rw [unboundDimVar?_eq, Option.map_eq_none_iff, List.find?_eq_none]
  refine forall₂_congr fun m _ => ?_
  rw [decide_eq_true_eq, Classical.not_not, mem_boundBefore_iff]

/-- Every mention comes after a binding, and where there is a mention at all no matched value
clashes with its name. -/
structure Passes (f : Function) : Prop where
  ready : ∀ m ∈ f.mentions, f.Binds m.1 m.2
  fits : f.symbolicShapes ≠ [] → ∀ n e, ¬ f.Clashes n e

/-- All that is mentioned is bound, and the first thing to go wrong is that a matched value clashes
with its name. -/
structure Breaks (f : Function) (e : BuildError) : Prop where
  symbolic : f.symbolicShapes ≠ []
  bound : ∀ m ∈ f.mentions, f.Binds f.bindings.length m.2
  first : ∃ n, f.Clashes n e ∧ (∀ m ∈ f.mentions, m.1 ≤ n → f.Binds m.1 m.2) ∧
    ∀ j < n, ∀ e', ¬ f.Clashes j e'

theorem ready_of_literal (literal : f.symbolicShapes = []) : ∀ m ∈ f.mentions, f.Binds m.1 m.2 := by
  have none : f.mentions.map Prod.snd = [] := by
    rw [map_snd_mentions, literal, List.flatMap_nil]
  rw [List.map_eq_nil_iff.1 none]
  exact List.forall_mem_nil _

section Verdict

variable (lowerable : f.Lowerable) (compatible : f.NamesCompatible)
include lowerable compatible

theorem heapFault?_eq_none : f.heapFault? = none ↔ f.Passes := by
  rw [heapFault?]
  by_cases literal : f.symbolicShapes = []
  · rw [if_pos literal]
    exact iff_of_true rfl ⟨ready_of_literal literal, fun symbolic => absurd literal symbolic⟩
  · rw [if_neg literal, Option.or_eq_none_iff, Option.map_eq_none_iff, unboundDimVar?_eq_none,
      faults_eq_none lowerable compatible]
    constructor
    · rintro ⟨-, ready, fits⟩
      exact ⟨ready, fun _ => fits⟩
    · rintro ⟨ready, fits⟩
      exact ⟨fun m mem => (ready m mem).mono (le_of_mem_mentions mem), ready, fits literal⟩

theorem heapFault?_eq_build {name : String} :
    f.heapFault? = some (.build name e) ↔ name = f.name ∧ f.Breaks e := by
  rw [heapFault?]
  by_cases literal : f.symbolicShapes = []
  · rw [if_pos literal]
    exact iff_of_false (by simp) fun breaks => breaks.2.symbolic literal
  · rw [if_neg literal, Option.or_eq_some_iff, Option.map_eq_none_iff, unboundDimVar?_eq_none,
      faults_eq_build lowerable compatible]
    constructor
    · rintro (unbound | ⟨bound, same, first⟩)
      · obtain ⟨d, -, same⟩ := Option.map_eq_some_iff.1 unbound
        cases same
      · exact ⟨same, literal, bound, first⟩
    · rintro ⟨same, breaks⟩
      exact .inr ⟨breaks.bound, same, breaks.first⟩

end Verdict

/-- Lowering fails for one of three reasons. -/
theorem heapFault?_kind {fault : LoweringError} (h : f.heapFault? = some fault) :
    (∃ name e, fault = .build name e) ∨ (∃ name d, fault = .unboundDimVar name d) ∨
      ∃ name d, fault = .dimVarNotReady name d := by
  rw [heapFault?] at h
  split at h
  · cases h
  · rcases Option.or_eq_some_iff.1 h with unbound | ⟨-, met⟩
    · obtain ⟨d, -, rfl⟩ := Option.map_eq_some_iff.1 unbound
      exact .inr (.inl ⟨_, _, rfl⟩)
    · obtain ⟨_, demand, _, -, fails, -⟩ := List.findSome?_eq_some_iff.1 met
      cases demand with
      | dim position d =>
          rw [Demand.fault?] at fails
          split at fails
          · cases fails
          · cases fails
            exact .inr (.inr ⟨_, _, rfl⟩)
      | naming v value =>
          rw [Demand.fault?] at fails
          split at fails
          · cases fails
          · cases fails
            exact .inl ⟨_, _, rfl⟩

/-! ### Names that fit -/

/-- What the order of bindings and mentions says about a function. -/
inductive Verdict (f : Function) : Option LoweringError → Prop where
  /-- A variable is mentioned that is bound nowhere. -/
  | unbound {before n d after} (mentions : f.mentions = before ++ (n, d) :: after)
      (first : ∀ m ∈ before, f.Binds f.bindings.length m.2)
      (fails : ¬ f.Binds f.bindings.length d) :
    f.Verdict (some (.unboundDimVar f.name (Dim.varName f.dimNames d)))
  /-- All that is mentioned is bound, but a variable too late. -/
  | notReady {before n d after} (bound : ∀ m ∈ f.mentions, f.Binds f.bindings.length m.2)
      (mentions : f.mentions = before ++ (n, d) :: after)
      (first : ∀ m ∈ before, f.Binds m.1 m.2) (fails : ¬ f.Binds n d) :
    f.Verdict (some (.dimVarNotReady f.name (Dim.varName f.dimNames d)))
  /-- Everything is bound before it is mentioned. -/
  | ready (all : ∀ m ∈ f.mentions, f.Binds m.1 m.2) : f.Verdict none

/-- The first mention of a variable that is not bound before some position. -/
theorem find?_mentions_eq_some {position : Nat × DimVar → Nat} {m : Nat × DimVar} :
    (f.mentions.find? fun m => m.2 ∉ f.boundBefore (position m)) = some m ↔
      ¬ f.Binds (position m) m.2 ∧ ∃ before after, f.mentions = before ++ m :: after ∧
        ∀ m' ∈ before, f.Binds (position m') m'.2 := by
  simp only [List.find?_eq_some_iff_append, decide_eq_true_eq, mem_boundBefore_iff,
    Bool.not_eq_true', decide_eq_false_iff_not, Classical.not_not]

theorem find?_mentions_eq_none {position : Nat × DimVar → Nat} :
    (f.mentions.find? fun m => m.2 ∉ f.boundBefore (position m)) = none ↔
      ∀ m ∈ f.mentions, f.Binds (position m) m.2 := by
  simp only [List.find?_eq_none, decide_eq_true_eq, mem_boundBefore_iff, Classical.not_not]

theorem faults_of_met {xs : List Binding} {k : Nat}
    (met : ∀ x ∈ xs, x.naming?.toList.findSome? (Demand.fault? f) = none) :
    ((xs.zipIdx k).flatMap fun (x, i) => x.demands i).findSome? (Demand.fault? f) =
      (((xs.zipIdx k).flatMap fun (x, i) =>
        (x.value.symbolicShapes.flatMap Shape.vars).map (i, ·)).map
          fun m => Demand.dim m.1 m.2).findSome? (Demand.fault? f) := by
  induction xs generalizing k with
  | nil => rfl
  | cons x xs ih =>
      obtain ⟨here, later⟩ := List.forall_mem_cons.1 met
      have head : (x.demands k).findSome? (Demand.fault? f) =
          (x.value.demands k).findSome? (Demand.fault? f) := by
        rw [Binding.demands, List.findSome?_append, here, Option.or_none]
      rw [List.zipIdx_cons, List.flatMap_cons, List.flatMap_cons, List.map_append,
        List.findSome?_append, List.findSome?_append, ih later, List.map_map]
      exact congrArg (Option.or · _) head

/-- Where names fit, only the mentions can be at fault. -/
theorem faults_of_fit (lowerable : f.Lowerable) (fit : f.NamesFit) :
    f.demands.findSome? (Demand.fault? f) =
      (f.mentions.find? fun m => m.2 ∉ f.boundBefore m.1).map fun m => f.notReady m.2 := by
  have met : ∀ x ∈ f.bindings, x.naming?.toList.findSome? (Demand.fault? f) = none := by
    intro x mem
    obtain ⟨n, at_⟩ := List.mem_iff_getElem?.1 mem
    rw [Option.eq_none_iff_forall_ne_some]
    intro fault named
    obtain ⟨e, clash, -⟩ := (fault?_named lowerable fit.compatible at_).1 named
    exact fit.not_clashes clash
  rw [demands, List.findSome?_append, faults_of_met met, ← findSome?_dims, mentions,
    List.map_append, List.findSome?_append, List.map_map]
  rfl

theorem verdict_iff (lowerable : f.Lowerable) (fit : f.NamesFit) {fault : Option LoweringError} :
    f.Verdict fault ↔ f.heapFault? = fault := by
  have same : f.heapFault? =
      ((f.mentions.find? fun m => m.2 ∉ f.boundBefore f.bindings.length).map
        fun m => f.unbound m.2).or
      ((f.mentions.find? fun m => m.2 ∉ f.boundBefore m.1).map fun m => f.notReady m.2) := by
    rw [heapFault?, faults_of_fit lowerable fit, unboundDimVar?_eq, Option.map_map]
    split
    · next literal =>
        have ready := ready_of_literal literal
        rw [find?_mentions_eq_none.2 ready, find?_mentions_eq_none.2 fun m mem =>
          (ready m mem).mono (le_of_mem_mentions mem)]
        rfl
    · rfl
  rw [same]
  constructor
  · rintro (⟨mentions, first, fails⟩ | ⟨bound, mentions, first, fails⟩ | all)
    · rw [find?_mentions_eq_some.2 ⟨fails, _, _, mentions, first⟩]
      rfl
    · rw [find?_mentions_eq_none.2 bound, find?_mentions_eq_some.2 ⟨fails, _, _, mentions, first⟩]
      rfl
    · rw [find?_mentions_eq_none.2 all, find?_mentions_eq_none.2 fun m mem =>
        (all m mem).mono (le_of_mem_mentions mem)]
      rfl
  · rintro rfl
    cases unbound : f.mentions.find? fun m => m.2 ∉ f.boundBefore f.bindings.length with
    | some m =>
        obtain ⟨fails, before, after, mentions, first⟩ := find?_mentions_eq_some.1 unbound
        exact .unbound mentions first fails
    | none =>
        cases unready : f.mentions.find? fun m => m.2 ∉ f.boundBefore m.1 with
        | some m =>
            obtain ⟨fails, before, after, mentions, first⟩ := find?_mentions_eq_some.1 unready
            exact .notReady (find?_mentions_eq_none.1 unbound) mentions first fails
        | none => exact .ready (find?_mentions_eq_none.1 unready)

instance : Decidable (f.Binds n d) := decidable_of_iff _ mem_boundBefore_iff

end Function

end TensorIR
