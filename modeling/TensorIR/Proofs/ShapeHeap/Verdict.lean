import TensorIR.Proofs.Emissions
import TensorIR.Proofs.ShapeHeap.Calls
import TensorIR.Proofs.ShapeHeap.Progress

/-!
# The verdict of lowering

Whether the shapes of a function can be put on a heap is decided by what its parameters and patterns
bind, and in which order. Lowering finds out in two walks: it first plans slots for what is bound
anywhere, and then goes through the bindings with a list of what has been stored so far.

What a function asks for on the way is its list of demands. Each of them is met or is at fault in
the function itself, whatever has been emitted by then, and the verdict is the first fault. So every
step of the second walk answers with the first fault among its own demands, or goes on in a state
that is `Reached` (`Answers`).
-/

namespace TensorIR

/-! ### Demands -/

/-- What lowering has to get at a place in a function. -/
inductive Demand where
  /-- The value of a dimension variable at the binding of the position, or past them all. -/
  | dim (position : Nat) (d : DimVar)
  /-- That a matched value can be bound to a variable. -/
  | naming (v : Var) (value : Expr)

/-- The demands of the symbolic shapes of an expression. -/
def Expr.demands (position : Nat) (e : Expr) : List Demand :=
  (e.symbolicShapes.flatMap Shape.vars).map (.dim position)

/-- The demand of a matched value that is also named. -/
def Binding.naming? : Binding → Option Demand
  | .matchShape (some v) value _ => some (.naming v value)
  | .define .. | .matchShape none .. => none

/-- The demands of a binding. The shapes of its value come first, its variable last. -/
def Binding.demands (position : Nat) (x : Binding) : List Demand :=
  x.value.demands position ++ x.naming?.toList

/-- All demands of a function in program order. -/
def Function.demands (f : Function) : List Demand :=
  (f.bindings.zipIdx.flatMap fun (x, i) => x.demands i) ++ f.body.demands f.bindings.length

/-- The error where a demand is not met. A dimension variable has to be bound before, and a value to
be one that a builder with the variables of the function takes. -/
def Demand.fault? (f : Function) : Demand → Option LoweringError
  | dim position d => if d ∈ f.boundBefore position then none else some (f.notReady d)
  | naming v value =>
    match (Builder.reopen f).bind v value with
    | .ok _ => none
    | .error e => some (.build f.name e)

namespace Function

/-- The error for a dimension variable that is bound nowhere. -/
def unbound (f : Function) (d : DimVar) : LoweringError :=
  .unboundDimVar f.name (Dim.varName f.dimNames d)

/-- The first dimension variable of a symbolic shape that nothing binds. -/
def unboundDimVar? (f : Function) : Option DimVar :=
  (f.symbolicShapes.flatMap Shape.vars).find? fun d => d ∉ f.boundBefore f.bindings.length

/-- The error of lowering, if there is one. Without symbolic shapes nothing is done at all. -/
def heapFault? (f : Function) : Option LoweringError :=
  if f.symbolicShapes = [] then none
  else (f.unboundDimVar?.map f.unbound).or (f.demands.findSome? (Demand.fault? f))

variable {f : Function} {x : Binding} {n : Nat}

theorem findSome?_dims (ms : List (Nat × DimVar)) :
    (ms.map fun m => Demand.dim m.1 m.2).findSome? (Demand.fault? f) =
      (ms.find? fun m => m.2 ∉ f.boundBefore m.1).map fun m => f.notReady m.2 := by
  rw [List.findSome?_map]
  induction ms with
  | nil => rfl
  | cons m ms ih =>
      rw [List.findSome?_cons, List.find?_cons]
      by_cases bound : m.2 ∈ f.boundBefore m.1
      · simp [Demand.fault?, bound, ih]
      · simp [Demand.fault?, bound]

theorem findSome?_demands (e : Expr) (n : Nat) : (e.demands n).findSome? (Demand.fault? f) =
    ((e.symbolicShapes.flatMap Shape.vars).find? fun d => d ∉ f.boundBefore n).map f.notReady := by
  have dims := findSome?_dims (f := f) ((e.symbolicShapes.flatMap Shape.vars).map (n, ·))
  rwa [List.map_map, List.find?_map, Option.map_map] at dims

theorem boundBefore_succ (at_ : f.bindings[n]? = some x) :
    f.boundBefore (n + 1) =
      f.boundBefore n ++ (x.pattern?.map HeapLayout.bound).getD [] := by
  rw [boundBefore, boundBefore, List.take_add_one, at_, List.flatMap_append, Option.toList_some,
    List.flatMap_singleton, List.append_assoc]

end Function

theorem Expr.mem_dimVars_of_symbolic {e : Expr} {d : DimVar} :
    d ∈ e.symbolicShapes.flatMap Shape.vars → d ∈ e.dimVars := by
  induction e using Expr.induction with
  | var _ | const _ | external _ | global _ => exact nofun
  | shape s =>
      rw [symbolicShapes, dimVars]
      split
      · simp
      · exact nofun
  | item t i ih =>
      rw [symbolicShapes, dimVars]
      exact ih
  | tuple es ih =>
      rw [symbolicShapes, dimVars, symbolicShapesAll_eq_flatMap, dimVarsAll_eq_flatMap,
        List.flatMap_assoc, List.mem_flatMap, List.mem_flatMap]
      rintro ⟨e, mem, named⟩
      exact ⟨e, mem, ih e mem named⟩
  | call head es ih =>
      rw [symbolicShapes, dimVars, symbolicShapesAll_eq_flatMap, dimVarsAll_eq_flatMap,
        List.flatMap_assoc, List.mem_flatMap, List.mem_append, List.mem_flatMap]
      rintro ⟨e, mem, named⟩
      exact .inr ⟨e, mem, ih e mem named⟩

theorem Function.named_of_symbolic {f : Function} {d : DimVar} (wellFormed : f.WellFormed)
    (mem : d ∈ f.symbolicShapes.flatMap Shape.vars) : d.index < f.dimNames.length := by
  rw [symbolicShapes, List.flatMap_append, List.flatMap_assoc] at mem
  rcases List.mem_append.1 mem with inBindings | inBody
  · obtain ⟨x, inBindings, named⟩ := List.mem_flatMap.1 inBindings
    exact wellFormed.shapes x inBindings d (Expr.mem_dimVars_of_symbolic named)
  · exact wellFormed.resultShapes d (Expr.mem_dimVars_of_symbolic inBody)

/-- What a function defines a builder with its variables would define again. -/
theorem Function.Lowerable.takes {f : Function} (lowerable : f.Lowerable) {v : Var} {value : Expr}
    (mem : .define v value ∈ f.bindings) : ∃ b, (Builder.reopen f).bind v value = .ok b := by
  obtain ⟨info, ⟨found, -⟩, fits⟩ := (lowerable.settled _ mem).accepted
  obtain ⟨info', found', plain⟩ := Option.map_eq_some_iff.1 (lowerable.plain _ mem v rfl)
  rw [found] at found'
  cases found'
  have accepted : (Binding.define v value).Accepted (Builder.reopen f).vars
      (Builder.reopen f).inDataflow :=
    ⟨info, ⟨found, fun dataflow => by rw [VarInfo.isDataflow, plain] at dataflow; cases dataflow⟩,
      fits⟩
  exact ⟨_, Builder.push_eq_ok_iff.2 ⟨accepted, rfl⟩⟩

namespace ShapeHeap

variable {cx : Context} {st : State} {done rest : List Binding} {x : Binding}

/-! ### The walk -/

namespace Reached

theorem lowerExpr_answers {n : Nat} {e : Expr}
    (h : Reached cx (cx.function.boundBefore n) done st)
    (named : ∀ d ∈ e.dimVars, d.index < cx.function.dimNames.length) :
    Answers ((e.demands n).findSome? (Demand.fault? cx.function))
      (fun r => ∃ vs, r.2 = e.fill vs ∧
        Loaded cx (cx.function.boundBefore n) done st e.symbolicShapes r.1 vs)
      (State.lowerExpr cx e st) := by
  rw [Function.findSome?_demands]
  cases first : (e.symbolicShapes.flatMap Shape.vars).find?
      fun d => d ∉ cx.function.boundBefore n with
  | some d =>
      exact h.lowerExpr_of_unready first
        (named d (Expr.mem_dimVars_of_symbolic (List.mem_of_find?_eq_some first)))
  | none =>
      obtain ⟨st', vs, lowered, loaded⟩ :=
        h.lowerExpr_of_ready (by simpa using List.find?_eq_none.1 first)
      exact ⟨_, lowered, vs, rfl, loaded⟩

section Step

variable (lowerable : cx.function.Lowerable) (split : cx.function.bindings = done ++ x :: rest)
include lowerable split

theorem bind_answers {bound : List DimVar} {vs : List Var} {v : Var}
    (h : Reached cx bound done st) (defines : x.defined? = some v)
    (admits : st.builder.Admits (x.value.fill vs))
    (loads : LoadsAll st.builder.vars vs x.value.symbolicShapes) :
    Answers ((Demand.naming v x.value).fault? cx.function) (Reached cx bound (done ++ [x]))
      (st.bind cx v (x.value.fill vs)) := by
  rw [Demand.fault?]
  cases taken : (Builder.reopen cx.function).bind v x.value with
  | error e => exact h.bind_of_refused lowerable split defines loads taken
  | ok b => exact h.bind_of_taken lowerable split defines admits loads taken

theorem lowerBinding_answers (h : Reached cx (cx.function.boundBefore done.length) done st) :
    Answers ((x.demands done.length).findSome? (Demand.fault? cx.function))
      (Reached cx (cx.function.boundBefore (done ++ [x]).length) (done ++ [x]))
      (st.lowerBinding cx x) := by
  have mem := Function.mem_of_split split
  have named := (Function.wellFormed_of_check lowerable.checked).shapes x mem
  have bound : cx.function.boundBefore (done ++ [x]).length =
      cx.function.boundBefore done.length ++ (x.pattern?.map HeapLayout.bound).getD [] := by
    rw [List.length_append, List.length_singleton, Function.boundBefore_succ]
    rw [split, List.getElem?_append_right (Nat.le_refl _), Nat.sub_self, List.getElem?_cons_zero]
  rw [Binding.demands, List.findSome?_append, bound, State.lowerBinding,
    h.checkDefined lowerable split, ok_bind]
  refine (h.lowerExpr_answers named).bind ?_
  rintro ⟨st', filled⟩ ⟨vs, same, loaded⟩
  cases same
  have reached := loaded.reached
  have admits := loaded.admits (h.admits_value lowerable split)
  cases x with
  | define v value =>
      obtain ⟨b, taken⟩ := lowerable.takes mem
      obtain ⟨last, bound, next⟩ :=
        reached.bind_of_taken lowerable split rfl admits loaded.loads taken
      exact ⟨last, bound, by simpa [Binding.pattern?] using next⟩
  | matchShape v? value pattern =>
      obtain ⟨stored, grows⟩ := reached.storePattern admits pattern
      cases v? with
      | none => exact ⟨_, rfl, stored.next_undefined rfl⟩
      | some v =>
          rw [Binding.naming?, Option.toList_some, List.findSome?_singleton]
          exact stored.bind_answers lowerable split rfl (grows.admits admits)
            (loaded.loads.mono grows.vars)

end Step

theorem lowerBindings_answers (lowerable : cx.function.Lowerable)
    (h : Reached cx (cx.function.boundBefore done.length) done st)
    (split : cx.function.bindings = done ++ rest) :
    Answers (((rest.zipIdx done.length).flatMap fun (x, i) => x.demands i).findSome?
        (Demand.fault? cx.function))
      (Reached cx (cx.function.boundBefore cx.function.bindings.length) cx.function.bindings)
      (rest.foldlM (State.lowerBinding cx) st) := by
  induction rest generalizing done st with
  | nil =>
      rw [List.append_nil] at split
      rw [split]
      exact ⟨st, rfl, h⟩
  | cons x rest ih =>
      rw [List.zipIdx_cons, List.flatMap_cons, List.findSome?_append, List.foldlM_cons]
      refine (h.lowerBinding_answers lowerable split).bind fun st' next => ?_
      have later := ih next (by simpa using split)
      rwa [List.length_append, List.length_singleton] at later

theorem storeParams_ok {bound : List DimVar} {params : List Var} (h : Reached cx bound [] st)
    (wellFormed : cx.function.WellFormed) (known : ∀ v ∈ params, v ∈ cx.function.params) :
    ∃ st', params.foldlM (State.storeParam cx) st = .ok st' ∧
      Reached cx (bound ++ (params.filterMap cx.function.paramArrival?).flatMap Arrival.vars) []
        st' := by
  induction params generalizing bound st with
  | nil => exact ⟨st, rfl, by simpa using h⟩
  | cons v params ih =>
      obtain ⟨here, later⟩ := List.forall_mem_cons.1 known
      obtain ⟨mid, stored, reached⟩ := h.storeParam wellFormed here
      obtain ⟨last, rest, reached⟩ := ih reached later
      refine ⟨last, foldlM_cons_eq_ok.2 ⟨mid, stored, rest⟩, ?_⟩
      rw [List.append_assoc, ← List.flatMap_append] at reached
      rw [List.filterMap_cons]
      cases arrival : cx.function.paramArrival? v <;> simpa [arrival] using reached

/-- The result is lowered after the last block. -/
theorem lowerBody_answers (lowerable : cx.function.Lowerable)
    (h : Reached cx (cx.function.boundBefore cx.function.bindings.length) cx.function.bindings
      st) :
    Answers ((cx.function.body.demands cx.function.bindings.length).findSome?
        (Demand.fault? cx.function)) (fun r => ∃ g, r.1.builder.finish r.2 = .ok g)
      (State.lowerExpr cx cx.function.body st) := by
  have wellFormed := Function.wellFormed_of_check lowerable.checked
  have reads := (Function.dominated_of_check lowerable.checked).body
  refine (h.lowerExpr_answers wellFormed.resultShapes).imp ?_
  rintro ⟨st', filled⟩ ⟨vs, same, loaded⟩
  cases same
  exact loaded.reached.orderly.finish (loaded.admits (h.admits reads wellFormed.resultShapes))

end Reached

/-- The heap is allocated, and nothing is stored yet. -/
theorem reached_start {f : Function} (wellFormed : f.WellFormed) (layout : HeapLayout)
    (shapeFunction : Option String) :
    Reached ⟨f, layout, shapeFunction, (start f layout).2⟩ [] [] (start f layout).1 := by
  have defined : (start f layout).1.builder.defined = f.params ++ [(start f layout).2] := by
    simp only [start]
    rw [Builder.defined_sealBlock, Builder.defined_emitNamed, Builder.defined, Builder.emitNamed_var,
      Builder.bindings_reopen, List.filterMap_nil, List.append_nil]
    rfl
  refine ⟨?_, ?_, ?_, ?_, ?_, fun d => Iff.rfl⟩
  · refine ((Builder.orderly_reopen wellFormed).emitNamed "shape_heap" ⟨?_, ?_⟩ ?_).sealBlock
    · exact List.forall_mem_nil _
    · exact List.forall_mem_nil _
    · rw [Expr.ofCallee, Expr.inferShape?, Callee.resultShape?, if_pos rfl]
      exact List.forall_mem_nil _
  · exact ((Builder.kept_extends f).emitNamed _ _ (Builder.extends_reopen f)).sealBlock
  · rw [defined]
    exact List.mem_append_right _ List.mem_cons_self
  · rw [defined]
    intro v mem
    rw [List.filterMap_nil, List.append_nil] at mem
    exact List.mem_append_left _ mem
  · rw [defined]
    intro v mem allocated
    rcases List.mem_append.1 mem with param | heap
    · exact List.mem_append_left _ param
    · cases List.mem_singleton.1 heap
      exact absurd allocated (Nat.lt_irrefl _)

variable {f : Function}

/-- Whatever the layout, lowering fails at the first demand that is not met, and only then. -/
theorem lower_answers (lowerable : f.Lowerable) (layout : HeapLayout)
    (shapeFunction : Option String) :
    Answers (f.demands.findSome? (Demand.fault? f)) (fun _ => True)
      (lower f layout shapeFunction) := by
  have wellFormed := Function.wellFormed_of_check lowerable.checked
  let cx : Context := ⟨f, layout, shapeFunction, (start f layout).2⟩
  obtain ⟨st, params, reached⟩ :=
    (reached_start wellFormed layout shapeFunction).storeParams_ok wellFormed fun _ => id
  have entry : [] ++ (f.params.filterMap f.paramArrival?).flatMap Arrival.vars =
      f.boundBefore 0 := by
    rw [Function.boundBefore, List.take_zero, List.flatMap_nil, List.append_nil, List.nil_append]
  have reached : Reached cx (cx.function.boundBefore 0) [] st := by
    rwa [entry] at reached
  have split : cx.function.bindings = [] ++ f.bindings := rfl
  have walk := reached.lowerBindings_answers lowerable split
  simp only [lower]
  rw [params, ok_bind, Function.demands, List.findSome?_append]
  refine walk.bind fun st' reached => ?_
  refine (reached.sealBlock.lowerBody_answers lowerable).bind_ok ?_
  rintro ⟨st'', body⟩ ⟨g, finished⟩
  exact ⟨g, building_eq_ok.2 finished, trivial⟩

/-! ### The plan -/

theorem exists_paramShapes {vs : List Var} (allocated : ∀ v ∈ vs, f.Allocates v) :
    ∃ shapes, HeapLayout.paramShapes f vs = .ok shapes := by
  induction vs with
  | nil => exact ⟨[], rfl⟩
  | cons v vs ih =>
      obtain ⟨here, later⟩ := List.forall_mem_cons.1 allocated
      obtain ⟨shapes, rest⟩ := ih later
      have found := List.getElem?_eq_getElem here
      refine ⟨_, bind_eq_ok.2 ⟨f.vars[v.index], ?_, bind_eq_ok.2 ⟨shapes, rest, rfl⟩⟩⟩
      rw [looking_eq_ok, Function.info, found]

theorem mem_boundDimVars_iff {d : DimVar} :
    d ∈ f.boundDimVars ↔ d ∈ f.boundBefore f.bindings.length := by
  rw [Function.boundDimVars, List.mem_eraseDups, Function.arrivals, List.flatMap_append,
    ← patterns_bound _ 0, Function.boundBefore, List.take_length, List.mem_append, List.mem_append]
  refine or_congr_right ?_
  rw [List.mem_flatMap, List.mem_flatMap]
  constructor
  · rintro ⟨pattern, mem, bare⟩
    obtain ⟨x, inBindings, matched⟩ := List.mem_filterMap.1 mem
    refine ⟨x, inBindings, ?_⟩
    rwa [matched]
  · rintro ⟨x, inBindings, bare⟩
    cases matched : x.pattern? with
    | none =>
        rw [matched] at bare
        cases bare
    | some pattern =>
        rw [matched] at bare
        exact ⟨pattern, List.mem_filterMap.2 ⟨x, inBindings, matched⟩, bare⟩

theorem plan_answers (wellFormed : f.WellFormed) :
    Answers (f.unboundDimVar?.map f.unbound) (· = f.layout)
      (HeapLayout.plan f f.symbolicShapes) := by
  obtain ⟨shapes, found⟩ := exists_paramShapes fun v mem =>
    wellFormed.definitions v (List.mem_append_left _ mem)
  have same : (fun d => !f.boundDimVars.contains d) =
      fun d => decide (d ∉ f.boundBefore f.bindings.length) := by
    funext d
    rw [decide_not, List.contains_eq_mem]
    exact congrArg _ (decide_eq_decide.2 mem_boundDimVars_iff)
  rw [plan_eq found, same, Function.unboundDimVar?]
  cases first : (f.symbolicShapes.flatMap Shape.vars).find?
      fun d => d ∉ f.boundBefore f.bindings.length with
  | none => exact ⟨_, rfl, rfl⟩
  | some d =>
      have named := Function.named_of_symbolic wellFormed (List.mem_of_find?_eq_some first)
      simp only [Function.dimName_eq_ok named, ok_bind]
      rfl

/-! ### Functions and modules -/

theorem lowerFunction_answers (lowerable : f.Lowerable) (base : String) (taken : List String) :
    Answers f.heapFault? (fun _ => True) (lowerFunction base taken f) := by
  rw [lowerFunction, Function.heapFault?]
  by_cases symbolic : f.symbolicShapes = []
  · rw [if_pos symbolic, symbolic]
    exact ⟨_, rfl, trivial⟩
  · rw [if_neg symbolic]
    split
    · contradiction
    · refine (plan_answers (Function.wellFormed_of_check lowerable.checked)).bind fun layout _ => ?_
      split
      all_goals
        refine (lower_answers lowerable _ _).bind_ok fun g _ => ?_
        exact ⟨_, rfl, trivial⟩

theorem lowerEntries_answers {base : String} {taken : List String} {entries : List (String × Item)}
    (lowerable : ∀ key f, (key, .function f) ∈ entries → Function.Lowerable f) :
    Answers ((entries.filterMap fun entry => entry.2.function?).findSome? Function.heapFault?)
      (fun _ => True) (lowerEntries base taken entries) := by
  induction entries generalizing taken with
  | nil => exact ⟨_, rfl, trivial⟩
  | cons entry entries ih =>
      obtain ⟨key, item⟩ := entry
      have later : ∀ key f, (key, .function f) ∈ entries → Function.Lowerable f :=
        fun key f mem => lowerable key f (List.mem_cons_of_mem _ mem)
      cases item with
      | function f =>
          have here := lowerFunction_answers (lowerable key f List.mem_cons_self) base taken
          have functions : ((key, Item.function f) :: entries).filterMap
              (fun entry => entry.2.function?) =
              [f] ++ entries.filterMap fun entry => entry.2.function? := rfl
          rw [lowerEntries, functions, List.findSome?_append, List.findSome?_singleton]
          refine here.bind ?_
          rintro ⟨g, needed⟩ -
          refine (ih later).bind_ok fun _ _ => ?_
          exact ⟨_, rfl, trivial⟩
      | heapFunction fn =>
          rw [lowerEntries]
          refine (ih later).bind_ok fun _ _ => ?_
          exact ⟨_, rfl, trivial⟩

end ShapeHeap

/-- The verdict on a module is that on the first of its functions that cannot be lowered. -/
theorem Module.heapShapes_answers (base : String) {m : Module}
    (lowerable : ∀ f ∈ m.functions, f.Lowerable) :
    Answers (m.functions.findSome? Function.heapFault?) (fun _ => True) (m.heapShapes base) := by
  rw [heapShapes]
  refine (ShapeHeap.lowerEntries_answers fun key f mem => lowerable f ?_).bind_ok fun _ _ => ?_
  · exact List.mem_filterMap.2 ⟨_, mem, rfl⟩
  · exact ⟨_, rfl, trivial⟩

end TensorIR
