import TensorIR.Proofs.ShapeHeap.Schedule

/-!
# Executing a lowered function

The events of a lowered function run on a heap: an allocation takes the heap as it is found, a store
copies dimensions of the run-time shape of its value, a call runs the heap function of the module,
and a load reads its slots. A run that does not fail records what was loaded.

Execution simulates the symbolic shapes of the function. `Holds` is the invariant: a stored
variable has its final value in its slot, a variable that is not stored has what was in its slot
initially, and a current dimension has in its slot the value under the final values. So a load, of
which every dimension is stored or current, reads what the symbolic shape evaluates to.

A call computes all computed dimensions, those with a variable that is not stored included, and for
these it computes with the initial content. It is there that a call can fail. The condition for
that is exact: every call succeeds if and only if at each call all computed dimensions have a value
under what is known of their variables at that point, `CallsDefined`.
-/

namespace TensorIR

/-- Why a run of a lowered function fails. -/
inductive HeapFault where
  /-- An operation does not fit the heap or the module. -/
  | stuck
  /-- A call of a heap function fails. -/
  | call (e : HeapError)
deriving DecidableEq, Repr

/-- The heap, and the shapes loaded from it so far with their values. -/
structure ShapeMemory where
  cells : List Int64
  loaded : List (Shape × List Int64) := []
deriving DecidableEq, Repr

/-- What a run depends on besides its memory. -/
structure ShapeMachine where
  functions : String → Option HeapFunction
  shapes : RunTimeShapes

namespace ShapeMachine

/-- What an event does to the memory; an event that does not fit the machine leaves it stuck. -/
def step (machine : ShapeMachine) (memory : ShapeMemory) : Event → Except HeapFault ShapeMemory
  | .alloc size => if size = heapShape memory.cells.length then .ok memory else .error .stuck
  | .query _ | .keep .. => .ok memory
  | .store a entries | .storeValue a entries =>
    match storeDims (machine.shapes a.source) entries memory.cells with
    | some cells => .ok { memory with cells }
    | none => .error .stuck
  | .invoke name =>
    match machine.functions name with
    | some f =>
      match f.run memory.cells with
      | (cells, none) => .ok { memory with cells }
      | (_, some e) => .error (.call e)
    | none => .error .stuck
  | .load s slots =>
    match slots.mapM fun slot => memory.cells[slot]? with
    | some ns => .ok { memory with loaded := memory.loaded ++ [(s, ns)] }
    | none => .error .stuck

/-- The memory after a list of events; the first failure ends the run. -/
def run (machine : ShapeMachine) (events : List Event) (memory : ShapeMemory) :
    Except HeapFault ShapeMemory :=
  events.foldlM machine.step memory

end ShapeMachine

/-! ### What is known at a call -/

/-- The slots that have been stored at each call of a heap function. -/
def storedAtCalls (slots : List Nat) : List Event → List (List Nat)
  | [] => []
  | .store _ entries :: events | .storeValue _ entries :: events =>
    storedAtCalls (entries.map ShapeSlot.slot ++ slots) events
  | .invoke _ :: events => slots :: storedAtCalls slots events
  | .alloc _ :: events | .query _ :: events | .load .. :: events | .keep .. :: events =>
    storedAtCalls slots events

/-- The value that a call finds for a variable: the final one if its slot has been stored, and the
initial content of its slot if not. -/
def HeapLayout.known (layout : HeapLayout) (value : DimVar → Option Int64) (initial : List Int64)
    (slots : List Nat) (v : DimVar) : Option Int64 :=
  if layout.varSlot v ∈ slots then value v else layout.read initial v

/-- Every computed dimension has a value at every call. -/
def HeapLayout.CallsDefined (layout : HeapLayout) (value : DimVar → Option Int64)
    (initial : List Int64) (slots : List Nat) (events : List Event) : Prop :=
  ∀ known ∈ storedAtCalls slots events, ∀ d ∈ layout.computed,
    (d.eval (layout.known value initial known)).isSome

/-! ### The invariant -/

/-- What the cells of the heap hold at a stage. -/
structure Holds (layout : HeapLayout) (value : DimVar → Option Int64) (initial : List Int64)
    (stage : Stage) (slots : List Nat) (cells : List Int64) : Prop where
  size : cells.length = layout.size
  slots : ∀ v ∈ layout.vars, layout.varSlot v ∈ slots ↔ v ∈ stage.stored
  stored : ∀ v ∈ stage.stored, v ∈ layout.vars ∧ (value v).isSome ∧ layout.read cells v = value v
  waiting : ∀ v ∈ layout.vars, v ∉ stage.stored → layout.read cells v = layout.read initial v
  current : ∀ d ∈ stage.current, d ∈ layout.computed ∧ (d.eval value).isSome ∧
    cells[layout.slot d]? = d.eval value

namespace Holds

variable {layout : HeapLayout} {value : DimVar → Option Int64} {initial cells : List Int64}
  {stage : Stage} {slots : List Nat}

theorem start (size : initial.length = layout.size) :
    Holds layout value initial {} [] initial where
  size := size
  slots v _ := by simp
  stored := nofun
  waiting _ _ _ := rfl
  current := nofun

theorem vars_le (h : Holds layout value initial stage slots cells) :
    layout.vars.length ≤ cells.length := by
  rw [h.size, HeapLayout.size]
  exact Nat.le_add_right _ _

theorem read_eq_known (h : Holds layout value initial stage slots cells) {v : DimVar}
    (hv : v ∈ layout.vars) : layout.read cells v = layout.known value initial slots v := by
  rw [HeapLayout.known]
  split
  · next stored => exact (h.stored v ((h.slots v hv).1 stored)).2.2
  · next waiting => exact h.waiting v hv fun stored => waiting ((h.slots v hv).2 stored)

theorem eval_read (h : Holds layout value initial stage slots cells) {d : Dim}
    (stored : ∀ v ∈ d.vars, v ∈ stage.stored) : d.eval (layout.read cells) = d.eval value :=
  Dim.eval_congr fun v hv => (h.stored v (stored v hv)).2.2

theorem store (wf : layout.WellFormed) (h : Holds layout value initial stage slots cells)
    {new : List (Nat × DimVar)} {dims : List Int64}
    (bound : ∀ p v, (p, v) ∈ new → v ∈ layout.vars)
    (given : ∀ p v, (p, v) ∈ new → ∃ n, dims[p]? = some n ∧ value v = some n) :
    ∃ cells', storeDims dims (layout.entries new) cells = some cells' ∧
      Holds layout value initial { stage with stored := new.map Prod.snd ++ stage.stored }
        ((layout.entries new).map ShapeSlot.slot ++ slots) cells' := by
  obtain ⟨cells', ran, length, values, others⟩ :=
    HeapLayout.storeDims_entries h.vars_le bound given
  have inVars : ∀ v ∈ new.map Prod.snd, v ∈ layout.vars := by
    intro v hv
    obtain ⟨⟨p, u⟩, mem, rfl⟩ := List.mem_map.1 hv
    exact bound p u mem
  have written : (layout.entries new).map ShapeSlot.slot =
      (new.map Prod.snd).map layout.varSlot := by
    rw [HeapLayout.entries, List.map_map, List.map_map]
    rfl
  -- A variable that is not new keeps its cell, since slots tell variables apart.
  have kept : ∀ v ∈ layout.vars, v ∉ new.map Prod.snd →
      layout.read cells' v = layout.read cells v := by
    intro v hv old
    refine others _ fun u hu same => old ?_
    rw [HeapLayout.varSlot_inj (inVars u hu)] at same
    exact same ▸ hu
  refine ⟨cells', ran, ⟨length.trans h.size, ?_, ?_, ?_, ?_⟩⟩
  · intro v hv
    rw [written, List.mem_append, List.mem_append, h.slots v hv]
    refine or_congr_left ⟨fun mem => ?_, List.mem_map_of_mem⟩
    obtain ⟨u, hu, same⟩ := List.mem_map.1 mem
    rw [HeapLayout.varSlot_inj (inVars u hu)] at same
    exact same ▸ hu
  · intro v hv
    by_cases isNew : v ∈ new.map Prod.snd
    · obtain ⟨⟨p, u⟩, mem, rfl⟩ := List.mem_map.1 isNew
      obtain ⟨n, -, known⟩ := given p u mem
      exact ⟨bound p u mem, by rw [known]; rfl, values u isNew⟩
    · rcases List.mem_append.1 hv with mem | mem
      · exact absurd mem isNew
      · obtain ⟨inLayout, isSome, same⟩ := h.stored v mem
        exact ⟨inLayout, isSome, (kept v inLayout isNew).trans same⟩
  · intro v hv old
    rw [List.mem_append, not_or] at old
    rw [kept v hv old.1]
    exact h.waiting v hv old.2
  · intro d hd
    obtain ⟨inLayout, isSome, same⟩ := h.current d hd
    refine ⟨inLayout, isSome, ?_⟩
    rw [others, same]
    exact fun v hv => HeapLayout.varSlot_ne_slot wf (inVars v hv) inLayout

/-- A call of the heap function makes the dimensions current of which all variables are stored, or
it fails because a computed dimension has no value under what is known. -/
theorem refresh (wf : layout.WellFormed) (h : Holds layout value initial stage slots cells)
    (name : String) :
    ((∀ d ∈ layout.computed, (d.eval (layout.known value initial slots)).isSome) ∧
      ∃ cells', (layout.heapFunction name).run cells = (cells', none) ∧
        Holds layout value initial
          { stage with current := layout.computed.filter (ShapeHeap.ready stage.stored) }
          slots cells') ∨
    ((¬ ∀ d ∈ layout.computed, (d.eval (layout.known value initial slots)).isSome) ∧
      ∃ cells' e, (layout.heapFunction name).run cells = (cells', some e)) := by
  have sameEval : ∀ d ∈ layout.computed,
      d.eval (layout.read cells) = d.eval (layout.known value initial slots) := fun d hd =>
    Dim.eval_congr fun v hv => h.read_eq_known ((wf d hd).2 v hv)
  rcases HeapLayout.runAll_computed wf h.size.ge (fun d hd => hd) with
    ⟨all, cells', ran, length, values, others⟩ | ⟨d, first, cells', ran⟩
  · left
    have kept : ∀ v ∈ layout.vars, layout.read cells' v = layout.read cells v := fun v hv =>
      others _ fun d hd => (HeapLayout.varSlot_ne_slot wf hv hd).symm
    refine ⟨fun d hd => sameEval d hd ▸ all d hd, cells', ran,
      ⟨length.trans h.size, h.slots, ?_, ?_, ?_⟩⟩
    · intro v hv
      obtain ⟨inLayout, isSome, same⟩ := h.stored v hv
      exact ⟨inLayout, isSome, (kept v inLayout).trans same⟩
    · intro v hv old
      rw [kept v hv]
      exact h.waiting v hv old
    · intro d hd
      obtain ⟨inLayout, isReady⟩ := List.mem_filter.1 hd
      have stored : ∀ v ∈ d.vars, v ∈ stage.stored := by
        simpa [ShapeHeap.ready] using isReady
      rw [← h.eval_read stored]
      exact ⟨inLayout, all d inLayout, values d inLayout⟩
  · right
    refine ⟨fun all => ?_, cells', _, ran⟩
    have inLayout := List.mem_of_find?_eq_some first
    have undefined := List.find?_some first
    have defined := all d inLayout
    rw [← sameEval d inLayout] at defined
    rw [Option.isNone_iff_eq_none.1 undefined] at defined
    cases defined

theorem load (h : Holds layout value initial stage slots cells) {s : Shape}
    (ready : ∀ v ∈ s.vars, v ∈ stage.stored) (fresh : ¬ stage.Stale s) :
    ∃ ns, ((s.map layout.slot).mapM fun slot => cells[slot]?) = some ns ∧
      s.mapM (Dim.eval value) = some ns := by
  induction s with
  | nil => exact ⟨[], rfl, rfl⟩
  | cons d s ih =>
      rw [Shape.vars, List.flatMap_cons] at ready
      obtain ⟨ns, read, eval⟩ := ih (fun v hv => ready v (List.mem_append_right _ hv))
        (fun ⟨e, he, stale⟩ => fresh ⟨e, List.mem_cons_of_mem d he, stale⟩)
      have head : ∃ n, cells[layout.slot d]? = some n ∧ d.eval value = some n := by
        cases isVar : d.asVar? with
        | none =>
            have isCurrent : d ∈ stage.current := Classical.not_not.1 fun stale =>
              fresh ⟨d, List.mem_cons_self, isVar, stale⟩
            obtain ⟨-, isSome, same⟩ := h.current d isCurrent
            obtain ⟨n, known⟩ := Option.isSome_iff_exists.1 isSome
            exact ⟨n, same.trans known, known⟩
        | some v =>
            obtain rfl : d = .var v := by
              cases d with
              | var u => exact congrArg Dim.var (Option.some.inj isVar)
              | int _ | binary _ _ _ => cases isVar
            obtain ⟨-, isSome, same⟩ :=
              h.stored v (ready v (List.mem_append_left _ (List.mem_singleton_self v)))
            obtain ⟨n, known⟩ := Option.isSome_iff_exists.1 isSome
            exact ⟨n, same.trans known, known⟩
      obtain ⟨n, cell, known⟩ := head
      refine ⟨n :: ns, ?_, ?_⟩
      · rw [List.map_cons, List.mapM_cons, cell, read]
        rfl
      · rw [List.mapM_cons, known, eval]
        rfl

end Holds

/-! ### Runs -/

namespace ShapeMachine

/-- The two ways in which a run ends. Either every call is defined, and the given shapes are loaded
with the values that they evaluate to, or a call is not, and the run ends with its failure. -/
def Outcome (machine : ShapeMachine) (layout : HeapLayout) (value : DimVar → Option Int64)
    (initial : List Int64) (slots : List Nat) (shapes : List Shape) (events : List Event)
    (memory : ShapeMemory) : Prop :=
  (layout.CallsDefined value initial slots events ∧
    ∃ cells loads, machine.run events memory = .ok ⟨cells, memory.loaded ++ loads⟩ ∧
      loads.map Prod.fst = shapes ∧
      ∀ load ∈ loads, load.1.mapM (Dim.eval value) = some load.2) ∨
  (¬ layout.CallsDefined value initial slots events ∧
    ∃ e, machine.run events memory = .error (.call e))

/-- What a run of a lowered function relies on. -/
structure Runs (machine : ShapeMachine) (layout : HeapLayout) (shapeFunction : Option String)
    (arrivals : List Arrival) : Prop where
  wellFormed : layout.WellFormed
  generated : ∀ name, shapeFunction = some name →
    machine.functions name = some (layout.heapFunction name)
  ungenerated : shapeFunction = none → layout.computed = []
  bound : ∀ a ∈ arrivals, ∀ v ∈ a.vars, v ∈ layout.vars
  fits : ∀ a ∈ arrivals, (machine.shapes a.source).length = a.pattern.length

namespace Outcome

variable {machine : ShapeMachine} {layout : HeapLayout} {value : DimVar → Option Int64}
  {initial cells cells' : List Int64} {slots slots' : List Nat} {shapes : List Shape}
  {events : List Event} {loaded : List (Shape × List Int64)}

theorem nil : Outcome machine layout value initial slots [] [] ⟨cells, loaded⟩ := by
  refine .inl ⟨nofun, cells, [], ?_, rfl, nofun⟩
  rw [List.append_nil]
  rfl

/-- An event that is neither a load nor a call. -/
theorem step {e : Event}
    (calls : storedAtCalls slots (e :: events) = storedAtCalls slots' events)
    (ran : machine.step ⟨cells, loaded⟩ e = .ok ⟨cells', loaded⟩)
    (rest : Outcome machine layout value initial slots' shapes events ⟨cells', loaded⟩) :
    Outcome machine layout value initial slots shapes (e :: events) ⟨cells, loaded⟩ := by
  rw [Outcome, HeapLayout.CallsDefined, calls, run, List.foldlM_cons, ran, ok_bind]
  exact rest

theorem load {s : Shape} {read : List Nat} {ns : List Int64}
    (cellsRead : (read.mapM fun slot => cells[slot]?) = some ns)
    (eval : s.mapM (Dim.eval value) = some ns)
    (rest : Outcome machine layout value initial slots shapes events
      ⟨cells, loaded ++ [(s, ns)]⟩) :
    Outcome machine layout value initial slots (s :: shapes) (.load s read :: events)
      ⟨cells, loaded⟩ := by
  have ran : machine.step ⟨cells, loaded⟩ (.load s read) =
      .ok ⟨cells, loaded ++ [(s, ns)]⟩ := by
    simp only [ShapeMachine.step, cellsRead]
  rw [Outcome, HeapLayout.CallsDefined, storedAtCalls, run, List.foldlM_cons, ran, ok_bind]
  rcases rest with ⟨defined, cells', loads, ran, names, values⟩ | undefined
  · refine .inl ⟨defined, cells', (s, ns) :: loads, ?_, ?_, ?_⟩
    · rw [List.append_assoc] at ran
      exact ran
    · rw [List.map_cons, names]
    · exact List.forall_mem_cons.2 ⟨eval, values⟩
  · exact .inr undefined

theorem invoke {name : String} {f : HeapFunction} (found : machine.functions name = some f)
    (ran : f.run cells = (cells', none))
    (defined : ∀ d ∈ layout.computed, (d.eval (layout.known value initial slots)).isSome)
    (rest : Outcome machine layout value initial slots shapes events ⟨cells', loaded⟩) :
    Outcome machine layout value initial slots shapes (.invoke name :: events)
      ⟨cells, loaded⟩ := by
  have stepped : machine.step ⟨cells, loaded⟩ (.invoke name) = .ok ⟨cells', loaded⟩ := by
    simp only [ShapeMachine.step, found, ran]
  have calls : layout.CallsDefined value initial slots (.invoke name :: events) ↔
      layout.CallsDefined value initial slots events := by
    rw [HeapLayout.CallsDefined, storedAtCalls, List.forall_mem_cons]
    exact and_iff_right defined
  rw [Outcome, calls, run, List.foldlM_cons, stepped, ok_bind]
  exact rest

theorem invoke_failed {name : String} {f : HeapFunction} {e : HeapError}
    (found : machine.functions name = some f) (ran : f.run cells = (cells', some e))
    (undefined :
      ¬ ∀ d ∈ layout.computed, (d.eval (layout.known value initial slots)).isSome) :
    Outcome machine layout value initial slots shapes (.invoke name :: events)
      ⟨cells, loaded⟩ := by
  have stepped : machine.step ⟨cells, loaded⟩ (.invoke name) = .error (.call e) := by
    simp only [ShapeMachine.step, found, ran]
  refine .inr ⟨fun defined => undefined (defined slots ?_), e, ?_⟩
  · rw [storedAtCalls]
    exact List.mem_cons_self
  · rw [run, List.foldlM_cons, stepped, error_bind]

end Outcome

/-- All variables of an arrival are stored once its new ones are. -/
theorem complete_snoc {stored : List DimVar} {before : List Arrival} {a : Arrival}
    (complete : ∀ v, v ∈ stored ↔ ∃ b ∈ before, v ∈ b.vars) (v : DimVar) :
    v ∈ (ShapeHeap.newVars stored 0 a.pattern).map Prod.snd ++ stored ↔
      ∃ b ∈ before ++ [a], v ∈ b.vars := by
  rw [List.mem_append, ShapeHeap.mem_newVars_snd]
  constructor
  · rintro (⟨bound, -⟩ | old)
    · exact ⟨a, List.mem_append_right _ (List.mem_singleton_self a), bound⟩
    · obtain ⟨b, hb, bound⟩ := (complete v).1 old
      exact ⟨b, List.mem_append_left _ hb, bound⟩
  · rintro ⟨b, hb, bound⟩
    by_cases old : v ∈ stored
    · exact .inr old
    · rcases List.mem_append.1 hb with hb | hb
      · exact absurd ((complete v).2 ⟨b, hb, bound⟩) old
      · rw [List.mem_singleton] at hb
        exact .inl ⟨hb ▸ bound, old⟩

namespace Runs

variable {machine : ShapeMachine} {layout : HeapLayout} {shapeFunction : Option String}
  {arrivals before after : List Arrival} {initial cells : List Int64} {stage last : Stage}
  {slots : List Nat}

theorem store {a : Arrival} (runs : machine.Runs layout shapeFunction arrivals)
    (split : arrivals = before ++ a :: after)
    (complete : ∀ v, v ∈ stage.stored ↔ ∃ b ∈ before, v ∈ b.vars)
    (holds : Holds layout (firstDim machine.shapes arrivals) initial stage slots cells) :
    ∃ cells', storeDims (machine.shapes a.source)
        (layout.entries (ShapeHeap.newVars stage.stored 0 a.pattern)) cells = some cells' ∧
      Holds layout (firstDim machine.shapes arrivals) initial
        { stage with
          stored := (ShapeHeap.newVars stage.stored 0 a.pattern).map Prod.snd ++ stage.stored }
        ((layout.entries (ShapeHeap.newVars stage.stored 0 a.pattern)).map ShapeSlot.slot ++ slots)
        cells' := by
  subst split
  have mem : a ∈ before ++ a :: after := List.mem_append_right _ List.mem_cons_self
  refine holds.store runs.wellFormed (fun p v hv => ?_) (fun p v hv => ?_)
  · exact runs.bound a mem v (ShapeHeap.mem_newVars_snd.1 (List.mem_map.2 ⟨_, hv, rfl⟩)).1
  · exact firstDim_newVars complete (runs.fits a mem) hv

/-- The run of what performs a list of tasks, from a heap that holds what it should. The induction
is on the tasks; `before` are the arrivals of those that are done. -/
theorem outcome {tasks : List Task} {events : List Event} {loaded : List (Shape × List Int64)}
    (runs : machine.Runs layout shapeFunction arrivals)
    (performed : Performed layout shapeFunction stage tasks events last)
    (split : arrivals = before ++ tasks.filterMap Task.arrival?)
    (complete : ∀ v, v ∈ stage.stored ↔ ∃ a ∈ before, v ∈ a.vars)
    (computed : ∀ s ∈ tasks.filterMap Task.shape?, ∀ d ∈ s, d.asVar? = none →
      d ∈ layout.computed)
    (holds : Holds layout (firstDim machine.shapes arrivals) initial stage slots cells) :
    machine.Outcome layout (firstDim machine.shapes arrivals) initial slots
      (tasks.filterMap Task.shape?) events ⟨cells, loaded⟩ := by
  induction performed generalizing before slots cells loaded with
  | done => exact .nil
  | @seen stage a tasks events last known _ ih =>
      have split' : arrivals = (before ++ [a]) ++ tasks.filterMap Task.arrival? :=
        split.trans (List.append_cons before a _)
      refine ih split' (fun v => ?_) computed holds
      rw [← complete_snoc complete, ShapeHeap.newVars_eq_nil_iff.2 known]
      rfl
  | @queried stage a new tasks events last first _ _ ih =>
      subst first
      have split' : arrivals = (before ++ [a]) ++ tasks.filterMap Task.arrival? :=
        split.trans (List.append_cons before a _)
      obtain ⟨cells', stored, holds'⟩ := runs.store split complete holds
      refine .step rfl rfl (.step rfl ?_ (ih split' (complete_snoc complete) computed holds'))
      simp only [step, stored]
  | @direct stage a new tasks events last first _ _ ih =>
      subst first
      have split' : arrivals = (before ++ [a]) ++ tasks.filterMap Task.arrival? :=
        split.trans (List.append_cons before a _)
      obtain ⟨cells', stored, holds'⟩ := runs.store split complete holds
      refine .step rfl ?_ (ih split' (complete_snoc complete) computed holds')
      simp only [step, stored]
  | @load stage s tasks events last ready fresh _ ih =>
      have notStale : ¬ stage.Stale s := by
        intro stale
        have noneComputed := runs.ungenerated (fresh stale)
        obtain ⟨d, hd, isComputed, -⟩ := stale
        have mem := computed s List.mem_cons_self d hd isComputed
        rw [noneComputed] at mem
        cases mem
      obtain ⟨ns, read, eval⟩ := holds.load ready notStale
      exact .load read eval
        (ih split complete (fun t ht => computed t (List.mem_cons_of_mem s ht)) holds)
  | @refreshed stage s name tasks events last ready stale named _ ih =>
      have found := runs.generated name named
      rcases holds.refresh runs.wellFormed name with
        ⟨defined, cells', ran, holds'⟩ | ⟨undefined, cells', e, ran⟩
      · -- Every computed dimension of the shape has all its variables stored, so it is current now.
        have notStale : ¬ Stage.Stale
            ⟨stage.stored, layout.computed.filter (ShapeHeap.ready stage.stored)⟩ s := by
          rintro ⟨d, hd, isComputed, old⟩
          refine old (List.mem_filter.2 ⟨computed s List.mem_cons_self d hd isComputed, ?_⟩)
          have stored : ∀ v ∈ d.vars, v ∈ stage.stored := fun v hv =>
            ready v (List.mem_flatMap.2 ⟨d, hd, hv⟩)
          simpa [ShapeHeap.ready] using stored
        obtain ⟨ns, read, eval⟩ := holds'.load ready notStale
        exact .invoke found ran defined (.load read eval
          (ih split complete (fun t ht => computed t (List.mem_cons_of_mem s ht)) holds'))
      · exact .invoke_failed found ran undefined
  | @keep stage v value tasks events last _ ih =>
      exact .step rfl rfl (ih split complete computed holds)

end Runs

end ShapeMachine

end TensorIR
