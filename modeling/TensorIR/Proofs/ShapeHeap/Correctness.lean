import TensorIR.Proofs.ShapeHeap.Naming
import TensorIR.Proofs.ShapeHeap.Simulation

/-!
# Lowered shapes have their symbolic values

The theorems about a lowered module. Each function with symbolic shapes reads back from its lowered
form, and running what is read, from any content of the heap and with any run-time shapes that fit,
either loads the value of every symbolic shape or ends with the failure of a call.

The failure is possible even where every symbolic shape has a value. A call computes all computed
dimensions, and one whose variables are stored later is computed from what is on the heap. What
that leaves in its slot is not loaded before it is computed again, but where the arithmetic has no
value on it, the call fails. `heapShapes_calls` has the exact condition and `lateDivisor` is a
function that meets it with a divisor that is bound too late.
-/

namespace TensorIR

namespace Function

variable {f : Function}

theorem mem_boundDimVars {v : DimVar} : v ∈ f.boundDimVars ↔ ∃ a ∈ f.arrivals, v ∈ a.vars := by
  rw [boundDimVars, List.mem_eraseDups, List.mem_flatMap]

theorem mem_computedDims {d : Dim} :
    d ∈ f.computedDims ↔ (∃ s ∈ f.symbolicShapes, d ∈ s) ∧ d.asVar? = none := by
  rw [computedDims, List.mem_eraseDups, List.mem_filter, List.mem_flatten,
    Option.isNone_iff_eq_none]

theorem exists_computed (h : f.computedDims ≠ []) :
    ∃ s ∈ f.symbolicShapes, ∃ d ∈ s, d.asVar? = none := by
  obtain ⟨d, mem⟩ := List.exists_mem_of_ne_nil _ h
  obtain ⟨⟨s, symbolic, inShape⟩, notVar⟩ := mem_computedDims.1 mem
  exact ⟨s, symbolic, d, inShape, notVar⟩

theorem wellFormed_layout (bound : ∀ s ∈ f.symbolicShapes, ∀ v ∈ s.vars, v ∈ f.boundDimVars) :
    f.layout.WellFormed := by
  intro d hd
  obtain ⟨⟨s, hs, inShape⟩, notVar⟩ := mem_computedDims.1 hd
  exact ⟨notVar, fun v hv => bound s hs v (List.mem_flatMap.2 ⟨d, inShape, hv⟩)⟩

end Function

namespace ShapeHeap

theorem lowerFunction_eq_ok {base : String} {taken : List String} {f g : Function}
    {needed : Option HeapFunction} (symbolic : f.symbolicShapes ≠ [])
    (h : lowerFunction base taken f = .ok (g, needed)) :
    (∀ s ∈ f.symbolicShapes, ∀ v ∈ s.vars, v ∈ f.boundDimVars) ∧
    ∃ shapeFunction, lower f f.layout shapeFunction = .ok g ∧
      (shapeFunction = none ↔ f.computedDims = []) ∧
      needed = shapeFunction.map f.layout.heapFunction := by
  rw [lowerFunction] at h
  split at h
  · next none => exact absurd none symbolic
  · next shapes =>
      obtain ⟨layout, planned, h⟩ := bind_eq_ok.1 h
      obtain ⟨rfl, bound⟩ := plan_eq_ok planned
      refine ⟨bound, ?_⟩
      split at h
      · next empty =>
          obtain ⟨g', lowered, h⟩ := bind_eq_ok.1 h
          cases h
          exact ⟨none, lowered, iff_of_true rfl (List.isEmpty_iff.1 empty), rfl⟩
      · next nonempty =>
          obtain ⟨g', lowered, h⟩ := bind_eq_ok.1 h
          cases h
          refine ⟨some _, lowered, iff_of_false (Option.some_ne_none _) fun empty => ?_, rfl⟩
          exact nonempty (List.isEmpty_iff.2 empty)

end ShapeHeap

/-! ### A divisor that is bound late -/

/-- A function of two tensors. A dimension of the second is a divisor, and a shape that does not
depend on it is needed before it is bound:

    _: (n,) = match_shape(x)
    s = (n * 2,)
    _: (m,) = match_shape(y)
    (100 // m,)
-/
def lateDivisor : Function where
  name := "main"
  params := [⟨0⟩, ⟨1⟩]
  blocks := [⟨.plain, [
    .matchShape none (.var ⟨0⟩) [.var ⟨0⟩],
    .define ⟨2⟩ (.shape [.binary .mul (.var ⟨0⟩) (.int 2)]),
    .matchShape none (.var ⟨1⟩) [.var ⟨1⟩]]⟩]
  body := .shape [.binary .floorDiv (.int 100) (.var ⟨1⟩)]
  retTy := none
  vars := [⟨"x", .plain, none, some (.tensor none .float32)⟩,
    ⟨"y", .plain, none, some (.tensor none .float32)⟩,
    ⟨"s", .plain, none, some (.shape (some 1))⟩]
  dimNames := ["n", "m"]

/-- The module of this function alone. -/
def lateDivisorModule : Module := .ofEntries [("main", .function lateDivisor)]

theorem lateDivisor_lowers : ∃ m', lateDivisorModule.heapShapes "shape_func" = .ok m' := by
  exact exists_eq_ok (by decide +kernel)

theorem lateDivisor_mem : lateDivisorModule.get? "main" = some (.function lateDivisor) := by
  decide +kernel

/-- Run-time shapes that fit: `n` is five and `m` is four. -/
def lateDivisorShapes : RunTimeShapes
  | .binding 0 => [5]
  | .binding _ => [4]
  | .param _ => []

namespace Module

variable {base key : String} {m m' : Module} {f : Function}

/-- A function with symbolic shapes reads back from its lowered form, what is read performs its
tasks, and the heap function that is called is the one for its layout. -/
theorem heapShapes_performed (lowered : m.heapShapes base = .ok m')
    (mem : m.get? key = some (.function f)) (wellFormed : f.check = .ok ())
    (symbolic : f.symbolicShapes ≠ []) :
    ∃ g c events shapeFunction last, m'.get? key = some (.function g) ∧
      f.ReadsAs g c (.alloc (heapShape f.layout.size) :: events) ∧
      Performed f.layout shapeFunction {} f.tasks events last ∧
      (∀ name, shapeFunction = some name →
        m'.heapFunction? name = some (f.layout.heapFunction name)) ∧
      (shapeFunction = none → f.computedDims = []) ∧ f.layout.WellFormed := by
  obtain ⟨taken, g, needed, plan, found, kept⟩ := heapShapes_function lowered mem
  obtain ⟨bound, shapeFunction, lowering, ungenerated, rfl⟩ :=
    ShapeHeap.lowerFunction_eq_ok symbolic plan
  obtain ⟨c, events, last, reads, performed⟩ :=
    ShapeHeap.readsAs_lower (Function.scoped_of_check wellFormed) lowering
  refine ⟨g, c, events, shapeFunction, last, found, reads, performed, ?_, ungenerated.1,
    Function.wellFormed_layout bound⟩
  rintro name rfl
  exact kept (f.layout.heapFunction name) rfl

/-- What is read runs to one of the two ends. -/
theorem heapShapes_outcome (lowered : m.heapShapes base = .ok m')
    (mem : m.get? key = some (.function f)) (wellFormed : f.check = .ok ())
    (symbolic : f.symbolicShapes ≠ []) :
    ∃ g c events, m'.get? key = some (.function g) ∧ f.ReadsAs g c events ∧
      ∀ shapes initial, f.Fits shapes → initial.length = f.layout.size →
        ShapeMachine.Outcome ⟨m'.heapFunction?, shapes⟩ f.layout (f.dimValue shapes) initial []
          f.symbolicShapes events ⟨initial, []⟩ := by
  obtain ⟨g, c, events, shapeFunction, last, found, reads, performed, generated, ungenerated,
    layout⟩ := heapShapes_performed lowered mem wellFormed symbolic
  refine ⟨g, c, _, found, reads, fun shapes initial fits size => ?_⟩
  have runs : ShapeMachine.Runs ⟨m'.heapFunction?, shapes⟩ f.layout shapeFunction f.arrivals :=
    { wellFormed := layout
      generated
      ungenerated
      bound := fun a ha v hv => Function.mem_boundDimVars.2 ⟨a, ha, hv⟩
      fits }
  have split : f.arrivals = [] ++ f.tasks.filterMap Task.arrival? := by
    rw [Function.arrivals_tasks]
    rfl
  have computed : ∀ s ∈ f.tasks.filterMap Task.shape?, ∀ d ∈ s, d.asVar? = none →
      d ∈ f.layout.computed := by
    intro s hs d hd notVar
    rw [Function.shapes_tasks] at hs
    exact Function.mem_computedDims.2 ⟨⟨s, hs, hd⟩, notVar⟩
  have outcome : ShapeMachine.Outcome ⟨m'.heapFunction?, shapes⟩ f.layout (f.dimValue shapes)
      initial [] (f.tasks.filterMap Task.shape?) events ⟨initial, []⟩ :=
    runs.outcome performed split (fun v => by simp) computed (.start size)
  rw [Function.shapes_tasks] at outcome
  refine .step rfl ?_ outcome
  rw [ShapeMachine.step, if_pos (by rw [size])]

/-- The run of the lowered form of a function. -/
def runLowered (base key : String) (m : Module) (f : Function) (shapes : RunTimeShapes)
    (initial : List Int64) : Option (Except HeapFault ShapeMemory) := do
  let m' ← (m.heapShapes base).toOption
  let g ← m'.function? key
  let (_, events) ← f.trace g
  return ShapeMachine.run ⟨m'.heapFunction?, shapes⟩ events ⟨initial, []⟩

theorem runLowered_eq {g : Function} {c : Cursor} {events : List Event}
    (lowered : m.heapShapes base = .ok m') (found : m'.get? key = some (.function g))
    (reads : f.ReadsAs g c events) (shapes : RunTimeShapes) (initial : List Int64) :
    m.runLowered base key f shapes initial =
      some (ShapeMachine.run ⟨m'.heapFunction?, shapes⟩ events ⟨initial, []⟩) := by
  have function : m'.function? key = some g := by
    rw [function?, found]
    rfl
  simp only [runLowered, lowered, Except.toOption, Option.bind_eq_bind, Option.bind_some, function,
    reads.trace]
  rfl

/-- Lowered shapes have their symbolic values: if no call of a heap function fails, every load gives
what the symbolic shape that it stands for evaluates to. -/
theorem heapShapes_loads (lowered : m.heapShapes base = .ok m')
    (mem : m.get? key = some (.function f)) (wellFormed : f.check = .ok ())
    (symbolic : f.symbolicShapes ≠ []) :
    ∃ g c events, m'.get? key = some (.function g) ∧ f.ReadsAs g c events ∧
      ∀ shapes initial, f.Fits shapes → initial.length = f.layout.size →
        (∃ e, ShapeMachine.run ⟨m'.heapFunction?, shapes⟩ events ⟨initial, []⟩ =
          .error (.call e)) ∨
        ∃ memory, ShapeMachine.run ⟨m'.heapFunction?, shapes⟩ events ⟨initial, []⟩ =
            .ok memory ∧
          memory.loaded.map Prod.fst = f.symbolicShapes ∧
          ∀ load ∈ memory.loaded, load.1.mapM (Dim.eval (f.dimValue shapes)) = some load.2 := by
  obtain ⟨g, c, events, found, reads, outcomes⟩ :=
    heapShapes_outcome lowered mem wellFormed symbolic
  refine ⟨g, c, events, found, reads, fun shapes initial fits size => ?_⟩
  rcases outcomes shapes initial fits size with
    ⟨-, cells, loads, ran, names, values⟩ | ⟨-, failed⟩
  · right
    rw [List.nil_append] at ran
    exact ⟨_, ran, names, values⟩
  · exact .inl failed

/-- From a heap where the slot of the late divisor holds one, the lowered function runs to its
end. -/
theorem lateDivisor_runs {g : Function} {c : Cursor} {events : List Event}
    (lowered : lateDivisorModule.heapShapes "shape_func" = .ok m')
    (found : m'.get? "main" = some (.function g)) (reads : lateDivisor.ReadsAs g c events) :
    ∃ memory, ShapeMachine.run ⟨m'.heapFunction?, lateDivisorShapes⟩ events ⟨[0, 1, 0, 0], []⟩ =
      .ok memory := by
  have runs : (lateDivisorModule.runLowered "shape_func" "main" lateDivisor
      lateDivisorShapes [0, 1, 0, 0]).any (·.toOption.isSome) := by decide +kernel
  rw [runLowered_eq lowered found reads, Option.any_some] at runs
  obtain ⟨memory, ran⟩ := Option.isSome_iff_exists.1 runs
  exact ⟨memory, toOption_eq_some.1 ran⟩

theorem heapShapes_loads_lateDivisor :
    ∃ m' g c events, lateDivisorModule.heapShapes "shape_func" = .ok m' ∧
      m'.get? "main" = some (.function g) ∧ lateDivisor.ReadsAs g c events ∧
      ∃ memory, ShapeMachine.run ⟨m'.heapFunction?, lateDivisorShapes⟩ events
            ⟨[0, 1, 0, 0], []⟩ = .ok memory ∧
          memory.loaded.map Prod.fst = lateDivisor.symbolicShapes ∧
          ∀ load ∈ memory.loaded,
            load.1.mapM (Dim.eval (lateDivisor.dimValue lateDivisorShapes)) = some load.2 := by
  obtain ⟨m', lowered⟩ := lateDivisor_lowers
  obtain ⟨g, c, events, found, reads, ends⟩ :=
    heapShapes_loads lowered lateDivisor_mem (by decide +kernel) (by decide +kernel)
  refine ⟨m', g, c, events, lowered, found, reads, ?_⟩
  rcases ends lateDivisorShapes [0, 1, 0, 0] (by decide +kernel) (by decide +kernel) with
    ⟨e, failed⟩ | ran
  · obtain ⟨memory, runs⟩ := lateDivisor_runs lowered found reads
    rw [failed] at runs
    cases runs
  · exact ran

/-- Where every symbolic shape has a value, all calls of heap functions succeed if and only if at
each call every computed dimension that has a variable not stored so far has a value, computed with
the initial content of the heap for such variables. -/
theorem heapShapes_calls (lowered : m.heapShapes base = .ok m')
    (mem : m.get? key = some (.function f)) (wellFormed : f.check = .ok ())
    (symbolic : f.symbolicShapes ≠ []) :
    ∃ g c events, m'.get? key = some (.function g) ∧ f.ReadsAs g c events ∧
      ∀ shapes initial, f.Fits shapes → initial.length = f.layout.size →
        (∀ s ∈ f.symbolicShapes, ∀ d ∈ s, (d.eval (f.dimValue shapes)).isSome) →
        ((∃ memory, ShapeMachine.run ⟨m'.heapFunction?, shapes⟩ events ⟨initial, []⟩ =
            .ok memory) ↔
          ∀ stored ∈ storedAtCalls [] events, ∀ d ∈ f.computedDims,
            (∃ v ∈ d.vars, f.layout.varSlot v ∉ stored) →
              (d.eval (f.layout.known (f.dimValue shapes) initial stored)).isSome) := by
  obtain ⟨g, c, events, found, reads, outcomes⟩ :=
    heapShapes_outcome lowered mem wellFormed symbolic
  refine ⟨g, c, events, found, reads, fun shapes initial fits size defined => ?_⟩
  -- A dimension with all variables stored is computed from the final values, so it has one.
  have same : f.layout.CallsDefined (f.dimValue shapes) initial [] events ↔
      ∀ stored ∈ storedAtCalls [] events, ∀ d ∈ f.computedDims,
        (∃ v ∈ d.vars, f.layout.varSlot v ∉ stored) →
          (d.eval (f.layout.known (f.dimValue shapes) initial stored)).isSome := by
    refine forall₂_congr fun stored _ => forall₂_congr fun d hd => ?_
    constructor
    · intro isSome _
      exact isSome
    · intro late
      by_cases all : ∃ v ∈ d.vars, f.layout.varSlot v ∉ stored
      · exact late all
      · simp only [not_exists, not_and, Classical.not_not] at all
        obtain ⟨⟨s, hs, inShape⟩, -⟩ := Function.mem_computedDims.1 hd
        have known : d.eval (f.layout.known (f.dimValue shapes) initial stored) =
            d.eval (f.dimValue shapes) :=
          Dim.eval_congr fun v hv => by rw [HeapLayout.known, if_pos (all v hv)]
        rw [known]
        exact defined s hs d inShape
  rw [← same]
  rcases outcomes shapes initial fits size with ⟨calls, cells, loads, ran, -⟩ | ⟨calls, e, ran⟩
  · exact iff_of_true ⟨_, ran⟩ calls
  · refine iff_of_false ?_ calls
    rintro ⟨memory, ok⟩
    rw [ran] at ok
    cases ok

/-- The condition at work: from a heap where the slot of the late divisor holds one, every call
succeeds, and at each of them the dimensions that are ahead of their variables have values. -/
theorem heapShapes_calls_lateDivisor :
    ∃ m' g c events, lateDivisorModule.heapShapes "shape_func" = .ok m' ∧
      m'.get? "main" = some (.function g) ∧ lateDivisor.ReadsAs g c events ∧
      (∃ memory, ShapeMachine.run ⟨m'.heapFunction?, lateDivisorShapes⟩ events
          ⟨[0, 1, 0, 0], []⟩ = .ok memory) ∧
      ∀ stored ∈ storedAtCalls [] events, ∀ d ∈ lateDivisor.computedDims,
        (∃ v ∈ d.vars, lateDivisor.layout.varSlot v ∉ stored) →
          (d.eval (lateDivisor.layout.known (lateDivisor.dimValue lateDivisorShapes)
            [0, 1, 0, 0] stored)).isSome := by
  obtain ⟨m', lowered⟩ := lateDivisor_lowers
  obtain ⟨g, c, events, found, reads, condition⟩ :=
    heapShapes_calls lowered lateDivisor_mem (by decide +kernel) (by decide +kernel)
  have runs := lateDivisor_runs lowered found reads
  have known := (condition lateDivisorShapes [0, 1, 0, 0] (by decide +kernel) (by decide +kernel)
    (by decide +kernel)).1 runs
  exact ⟨m', g, c, events, lowered, found, reads, runs, known⟩

/-- From a heap of zeros a call fails, although every symbolic shape has a value: the first call
divides by the dimension that is bound after it. -/
theorem lateDivisor_call_fails :
    ∃ m' g c events, lateDivisorModule.heapShapes "shape_func" = .ok m' ∧
      m'.get? "main" = some (.function g) ∧ lateDivisor.check = .ok () ∧
      lateDivisor.ReadsAs g c events ∧ lateDivisor.Fits lateDivisorShapes ∧
      (∀ s ∈ lateDivisor.symbolicShapes, ∀ d ∈ s,
        (d.eval (lateDivisor.dimValue lateDivisorShapes)).isSome) ∧
      ∃ e, ShapeMachine.run ⟨m'.heapFunction?, lateDivisorShapes⟩ events ⟨[0, 0, 0, 0], []⟩ =
        .error (.call e) := by
  obtain ⟨m', lowered⟩ := lateDivisor_lowers
  obtain ⟨g, c, events, found, reads, outcomes⟩ :=
    heapShapes_outcome lowered lateDivisor_mem (by decide +kernel) (by decide +kernel)
  refine ⟨m', g, c, events, lowered, found, by decide +kernel, reads, by decide +kernel,
    by decide +kernel, ?_⟩
  rcases outcomes lateDivisorShapes [0, 0, 0, 0] (by decide +kernel) (by decide +kernel) with
    ⟨-, cells, loads, ran, -⟩ | ⟨-, failed⟩
  · have computed := runLowered_eq lowered found reads lateDivisorShapes [0, 0, 0, 0]
    have fails : ¬ (lateDivisorModule.runLowered "shape_func" "main" lateDivisor
        lateDivisorShapes [0, 0, 0, 0]).any (·.toOption.isSome) := by decide +kernel
    rw [computed, ran] at fails
    exact absurd rfl fails
  · exact failed

end Module

end TensorIR
