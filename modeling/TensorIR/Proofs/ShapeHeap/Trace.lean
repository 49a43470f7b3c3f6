import TensorIR.Proofs.Emission
import TensorIR.Proofs.ShapeHeap.Arrival
import TensorIR.Proofs.ShapeHeap.Loads
import TensorIR.Proofs.ShapeHeap.Machine

/-!
# Reading a lowered function

Lowering keeps the variables of a function and defines new ones for all that it inserts. So a
binding of the lowered function is one of two things: it defines an old variable, and then its
value is the old value with loads in the place of shapes, or it defines a new one, and then it is
one of the five operations on the heap.

`Function.trace` reads a lowered function back in that sense. It goes through the bindings in order
and says of each what it does in terms of the function from before, an `Event`. On the way it holds
the lowered function to the old one: the `n`-th value whose shape is queried or stored has to be the
`n`-th arrival that binds a new dimension variable, the `n`-th load stands for the `n`-th symbolic
shape, and every operation works on the one heap. A function that does not read so has no trace.
Nothing is executed here; what the events do to the cells of a heap is said elsewhere.
-/

namespace TensorIR

/-- The shape of a heap with a number of cells. -/
def heapShape (size : Nat) : Shape := .ofInts [(int64? size).getD Int64.maxValue]

/-- What a binding of a lowered function does. -/
inductive Event where
  /-- Allocates the heap with the number of cells that the shape says. -/
  | alloc (size : Shape)
  | query (a : Arrival)
  /-- Stores dimensions of an arriving value whose shape was queried. -/
  | store (a : Arrival) (entries : List ShapeSlot)
  /-- Stores dimensions of an arriving value that is itself a shape. -/
  | storeValue (a : Arrival) (entries : List ShapeSlot)
  | invoke (function : String)
  /-- Loads the cells that stand for a symbolic shape. -/
  | load (s : Shape) (slots : List Nat)
  /-- Defines an old variable as the value that it had before, up to loads and annotations. -/
  | keep (v : Var) (value : Expr)
deriving DecidableEq, Repr

/-- The definition that an event keeps, if it keeps one. -/
def Event.kept? : Event → Option (Var × Expr)
  | keep v value => some (v, value)
  | alloc _ | query _ | store .. | storeValue .. | invoke _ | load .. => none

/-- The arrivals that bind a variable that no earlier one binds. -/
def introducing (stored : List DimVar) : List Arrival → List Arrival
  | [] => []
  | a :: rest =>
    if a.vars.all stored.contains then introducing stored rest
    else a :: introducing (a.vars ++ stored) rest

/-- How far a lowered function has been read. -/
structure Cursor where
  heap : Option Var := none
  /-- The arrivals that have not been queried or stored yet. -/
  arriving : List Arrival
  /-- The symbolic shapes that have not been loaded yet. -/
  shapes : List Shape
  /-- The variables that name the queried shape of an arriving value. -/
  queried : List (Var × Arrival) := []
  /-- The variables that name a load, with the shape that is loaded. -/
  loads : List (Var × Shape) := []
deriving DecidableEq, Repr

namespace Cursor

/-- Takes the next arrival, which has to be of the value that the expression stands for. -/
def arrive? (c : Cursor) (e : Expr) : Option (Cursor × Arrival) :=
  match c.arriving with
  | a :: rest => if e.restore c.loads = a.value then some ({ c with arriving := rest }, a) else none
  | [] => none

/-- Reads the store of a shape: of a queried one, or of an arriving value that is a shape. -/
def readStore (c : Cursor) (shape : Expr) (entries : List ShapeSlot) : Option (Cursor × Event) :=
  match shape.asVar?.bind fun v => c.queried.lookup v with
  | some a => some (c, .store a entries)
  | none => (c.arrive? shape).map fun (c, a) => (c, .storeValue a entries)

/-- Reads the allocation of the heap, of which there is one. -/
def readAlloc (c : Cursor) (w : Var) (size : Expr) : Option (Cursor × Event) :=
  match size, c.heap with
  | .shape size, none => some ({ c with heap := some w }, .alloc size)
  | _, _ => none

/-- Reads the query for the shape of the next arrival. -/
def readQuery (c : Cursor) (w : Var) (e : Expr) : Option (Cursor × Event) :=
  (c.arrive? e).map fun (c, a) => ({ c with queried := (w, a) :: c.queried }, .query a)

/-- Reads an inserted call whose result is named by `w`. -/
def readCall (c : Cursor) (w : Var) : Callee → Attrs → List Expr → Option (Cursor × Event)
  | .external symbol, .none, [e] =>
    if symbol = Builtin.shapeOf then c.readQuery w e
    else if symbol = Builtin.allocShapeHeap then c.readAlloc w e
    else none
  | .op .vmStoreShape, .storeShape entries, [shape, .var heap] =>
    if c.heap = some heap then c.readStore shape entries else none
  | .global name, .none, [.var heap] => if c.heap = some heap then some (c, .invoke name) else none
  | .op .vmLoadShape, .loadShape slots, [.var heap] =>
    match c.shapes with
    | s :: rest =>
      if c.heap = some heap then
        some ({ c with shapes := rest, loads := (w, s) :: c.loads }, .load s slots)
      else none
    | [] => none
  | _, _, _ => none

/-- Reads the definition of a new variable, which has to be one of the inserted calls. -/
def readNew (c : Cursor) (w : Var) : Expr → Option (Cursor × Event)
  | .call head args => c.readCall w head.callee head.attrs args
  | .var _ | .shape _ | .tuple _ | .item .. | .const _ | .external _ | .global _ => none

/-- Reads a binding. The variables of the function from before are those below `arena`. -/
def read (arena : Nat) (c : Cursor) : Binding → Option (Cursor × Event)
  | .define v value =>
    if v.index < arena then some (c, .keep v (value.restore c.loads).bare) else c.readNew v value
  | .matchShape .. => none

/-- Reads bindings in order, if each of them can be read after those before it. -/
def readAll (arena : Nat) : Cursor → List Binding → Option (Cursor × List Event)
  | c, [] => some (c, [])
  | c, b :: bs =>
    match c.read arena b with
    | none => none
    | some (c, e) => (readAll arena c bs).map fun (c, es) => (c, e :: es)

end Cursor

/-- The cursor with which the reading of a lowered form of `f` begins. -/
def Function.cursor (f : Function) : Cursor :=
  { arriving := introducing [] f.arrivals, shapes := f.symbolicShapes }

/-- What the bindings of `g` do, where `g` is a lowered form of `f`. -/
def Function.trace (f g : Function) : Option (Cursor × List Event) :=
  f.cursor.readAll f.vars.length g.bindings

/-- The definitions of a function, with the annotations of their outermost calls left out. -/
def Function.definitions (f : Function) : List (Var × Expr) :=
  f.bindings.filterMap fun b => b.defined?.map fun v => (v, b.value.bare)

/-- What is read of a lowered form `g` of `f` when nothing of `f` is left to read: all values that
bind a new dimension variable have arrived, all symbolic shapes are loaded, and the definitions and
the body are those of `f` with loads in the place of shapes. -/
structure Function.ReadsAs (f g : Function) (c : Cursor) (events : List Event) : Prop where
  trace : f.trace g = some (c, events)
  arriving : c.arriving = []
  shapes : c.shapes = []
  definitions : events.filterMap Event.kept? = f.definitions
  body : g.body.restore c.loads = f.body

/-! ### Reading in parts -/

namespace Cursor

variable {arena : Nat} {c c' c'' : Cursor}

theorem readAll_append {bs bs' : List Binding} {es es' : List Event}
    (h : c.readAll arena bs = some (c', es)) (h' : c'.readAll arena bs' = some (c'', es')) :
    c.readAll arena (bs ++ bs') = some (c'', es ++ es') := by
  induction bs generalizing c es with
  | nil =>
      cases h
      exact h'
  | cons b bs ih =>
      rw [readAll] at h
      rw [List.cons_append, readAll]
      split at h
      · cases h
      · next mid e first =>
          obtain ⟨⟨last, rest⟩, tail, same⟩ := Option.map_eq_some_iff.1 h
          cases same
          rw [ih tail]
          rfl

theorem readAll_singleton {b : Binding} {e : Event} (h : c.read arena b = some (c', e)) :
    c.readAll arena [b] = some (c', [e]) := by
  rw [readAll, h]
  rfl

/-- An annotated call that is inserted reads as the call. -/
theorem read_inserted {vars : List VarInfo} {w : Var} {callee : Callee} {attrs : Attrs}
    {args : List Expr} (new : arena ≤ w.index) :
    c.read arena (.define w ((Expr.call ⟨callee, attrs, none, none⟩ args).annotate vars)) =
      c.readCall w callee attrs args := by
  obtain ⟨shape, ty, annotated⟩ := Expr.annotate_call vars ⟨callee, attrs, none, none⟩ args
  rw [annotated, read, if_neg (by omega), readNew]

end Cursor

/-! ### First bindings -/

theorem introducing_congr {stored stored' : List DimVar} {as : List Arrival}
    (h : ∀ v, v ∈ stored ↔ v ∈ stored') : introducing stored as = introducing stored' as := by
  induction as generalizing stored stored' with
  | nil => rfl
  | cons a as ih =>
      have covered : a.vars.all stored.contains = a.vars.all stored'.contains := by
        rw [Bool.eq_iff_iff]
        simp [h]
      have later : introducing (a.vars ++ stored) as = introducing (a.vars ++ stored') as :=
        ih fun v => by rw [List.mem_append, List.mem_append, h]
      rw [introducing, introducing, covered, ih h, later]

theorem introducing_of_seen {stored : List DimVar} {a : Arrival} {as : List Arrival}
    (h : ∀ v ∈ a.vars, v ∈ stored) : introducing stored (a :: as) = introducing stored as := by
  rw [introducing, if_pos]
  simpa using h

theorem introducing_of_new {stored : List DimVar} {a : Arrival} {as : List Arrival}
    (h : ¬ ∀ v ∈ a.vars, v ∈ stored) :
    introducing stored (a :: as) =
      a :: introducing ((ShapeHeap.newVars stored 0 a.pattern).map Prod.snd ++ stored) as := by
  rw [introducing, if_neg]
  · refine congrArg (a :: ·) (introducing_congr fun v => ?_)
    rw [List.mem_append, List.mem_append, ShapeHeap.mem_newVars_snd, Arrival.vars]
    by_cases old : v ∈ stored <;> simp [old]
  · simpa using h

/-! ### The program of loads, stores and definitions

What a function asks of its lowering, in program order: arrivals whose dimensions are to be known,
symbolic shapes whose values are to be had, and definitions to be kept. `Performed` says what
happens at each, given what is stored and current so far. It is all that the proofs about the heap
need to know of lowering. -/

/-- What a function asks of its lowering at one point. -/
inductive Task where
  | arrive (a : Arrival)
  | load (s : Shape)
  | keep (v : Var) (value : Expr)
deriving DecidableEq, Repr

/-- The arrival that a task is about, if it is about one. -/
def Task.arrival? : Task → Option Arrival
  | arrive a => some a
  | load _ | keep .. => none

/-- The shape that a task has loaded, if it has one loaded. -/
def Task.shape? : Task → Option Shape
  | load s => some s
  | arrive _ | keep .. => none

/-- The definition that a task keeps, if it keeps one. -/
def Task.kept? : Task → Option (Var × Expr)
  | keep v value => some (v, value)
  | arrive _ | load _ => none

/-- The tasks of a binding: its symbolic shapes, then its pattern, then its variable. -/
def Binding.tasks (position : Nat) (b : Binding) : List Task :=
  b.value.symbolicShapes.map .load ++ (b.arrival? position).toList.map .arrive ++
    b.defined?.toList.map fun v => .keep v b.value.bare

/-- All tasks of a function in program order: those of its parameters, its bindings and its body. -/
def Function.tasks (f : Function) : List Task :=
  (f.params.filterMap f.paramArrival?).map .arrive ++
    f.bindings.zipIdx.flatMap (fun (b, i) => b.tasks i) ++ f.body.symbolicShapes.map .load

/-- The dimension variables whose values are on the heap, and the computed dimensions that are. -/
structure Stage where
  stored : List DimVar := []
  current : List Dim := []
deriving DecidableEq, Repr

/-- Whether a computed dimension of a shape is not on the heap. -/
def Stage.Stale (stage : Stage) (s : Shape) : Prop :=
  ∃ d ∈ s, d.asVar? = none ∧ d ∉ stage.current

/-- The events of a list of tasks, and the stage before and after. -/
inductive Performed (layout : HeapLayout) (shapeFunction : Option String) :
    Stage → List Task → List Event → Stage → Prop where
  | done {stage} : Performed layout shapeFunction stage [] [] stage
  | seen {stage a tasks events last} (known : ∀ v ∈ a.vars, v ∈ stage.stored)
    (rest : Performed layout shapeFunction stage tasks events last) :
    Performed layout shapeFunction stage (.arrive a :: tasks) events last
  | queried {stage a new tasks events last}
    (first : ShapeHeap.newVars stage.stored 0 a.pattern = new) (nonempty : new ≠ [])
    (rest : Performed layout shapeFunction
      { stage with stored := new.map Prod.snd ++ stage.stored } tasks events last) :
    Performed layout shapeFunction stage (.arrive a :: tasks)
      (.query a :: .store a (layout.entries new) :: events) last
  | direct {stage a new tasks events last}
    (first : ShapeHeap.newVars stage.stored 0 a.pattern = new) (nonempty : new ≠ [])
    (rest : Performed layout shapeFunction
      { stage with stored := new.map Prod.snd ++ stage.stored } tasks events last) :
    Performed layout shapeFunction stage (.arrive a :: tasks)
      (.storeValue a (layout.entries new) :: events) last
  | load {stage s tasks events last} (ready : ∀ v ∈ s.vars, v ∈ stage.stored)
    (fresh : stage.Stale s → shapeFunction = none)
    (rest : Performed layout shapeFunction stage tasks events last) :
    Performed layout shapeFunction stage (.load s :: tasks)
      (.load s (s.map layout.slot) :: events) last
  | refreshed {stage s name tasks events last} (ready : ∀ v ∈ s.vars, v ∈ stage.stored)
    (stale : stage.Stale s) (named : shapeFunction = some name)
    (rest : Performed layout shapeFunction
      { stage with current := layout.computed.filter (ShapeHeap.ready stage.stored) }
      tasks events last) :
    Performed layout shapeFunction stage (.load s :: tasks)
      (.invoke name :: .load s (s.map layout.slot) :: events) last
  | keep {stage v value tasks events last}
    (rest : Performed layout shapeFunction stage tasks events last) :
    Performed layout shapeFunction stage (.keep v value :: tasks) (.keep v value :: events) last

namespace Performed

variable {layout : HeapLayout} {shapeFunction : Option String} {stage mid last : Stage}

theorem append {tasks tasks' : List Task} {events events' : List Event}
    (h : Performed layout shapeFunction stage tasks events mid)
    (h' : Performed layout shapeFunction mid tasks' events' last) :
    Performed layout shapeFunction stage (tasks ++ tasks') (events ++ events') last := by
  induction h with
  | done => exact h'
  | seen known _ ih => exact seen known (ih h')
  | queried first nonempty _ ih => exact queried first nonempty (ih h')
  | direct first nonempty _ ih => exact direct first nonempty (ih h')
  | load ready fresh _ ih => exact load ready fresh (ih h')
  | refreshed ready stale named _ ih => exact refreshed ready stale named (ih h')
  | keep _ ih => exact keep (ih h')

theorem kept {tasks : List Task} {events : List Event}
    (h : Performed layout shapeFunction stage tasks events last) :
    events.filterMap Event.kept? = tasks.filterMap Task.kept? := by
  induction h with
  | done => rfl
  | seen _ _ ih => exact ih
  | queried _ _ _ ih | direct _ _ _ ih | load _ _ _ ih => exact ih
  | refreshed _ _ _ _ ih => exact ih
  | keep _ ih => exact congrArg (_ :: ·) ih

end Performed

/-! ### The tasks of a function -/

theorem selected_tasks {α : Type} (select : Task → Option α) (f : Function) :
    f.tasks.filterMap select =
      (f.params.filterMap f.paramArrival?).filterMap (select ∘ .arrive) ++
        f.bindings.zipIdx.flatMap (fun (b, i) => (b.tasks i).filterMap select) ++
        f.body.symbolicShapes.filterMap (select ∘ .load) := by
  rw [Function.tasks, List.filterMap_append, List.filterMap_append, List.filterMap_flatMap,
    List.filterMap_map, List.filterMap_map]

theorem selected_binding {α : Type} (select : Task → Option α) (position : Nat) (b : Binding) :
    (b.tasks position).filterMap select =
      b.value.symbolicShapes.filterMap (select ∘ .load) ++
        (b.arrival? position).toList.filterMap (select ∘ .arrive) ++
        b.defined?.toList.filterMap (fun v => select (.keep v b.value.bare)) := by
  rw [Binding.tasks, List.filterMap_append, List.filterMap_append, List.filterMap_map,
    List.filterMap_map, List.filterMap_map]
  rfl

theorem flatMap_zipIdx {α β : Type} (h : α → List β) (xs : List α) :
    (xs.zipIdx.flatMap fun (x, _) => h x) = xs.flatMap h := by
  have split : (xs.zipIdx.flatMap fun (x, _) => h x) = (xs.zipIdx.map Prod.fst).flatMap h :=
    (List.flatMap_map ..).symm
  rw [split, List.zipIdx_map_fst]

namespace Function

theorem arrivals_tasks (f : Function) : f.tasks.filterMap Task.arrival? = f.arrivals := by
  have ofBinding (entry : Binding × Nat) :
      (entry.1.tasks entry.2).filterMap Task.arrival? = (entry.1.arrival? entry.2).toList := by
    rw [selected_binding]
    simp [Function.comp_def, Task.arrival?]
  rw [selected_tasks, arrivals, List.filterMap_eq_flatMap_toList _ f.bindings.zipIdx]
  simp [ofBinding, Function.comp_def, Task.arrival?]

theorem shapes_tasks (f : Function) : f.tasks.filterMap Task.shape? = f.symbolicShapes := by
  have ofBinding (entry : Binding × Nat) :
      (entry.1.tasks entry.2).filterMap Task.shape? = entry.1.value.symbolicShapes := by
    rw [selected_binding]
    simp [Function.comp_def, Task.shape?]
  rw [selected_tasks, symbolicShapes, ← flatMap_zipIdx fun b : Binding => b.value.symbolicShapes]
  simp [ofBinding, Function.comp_def, Task.shape?]

theorem kept_tasks (f : Function) : f.tasks.filterMap Task.kept? = f.definitions := by
  have ofBinding (entry : Binding × Nat) :
      (entry.1.tasks entry.2).filterMap Task.kept? =
        (entry.1.defined?.map fun v => (v, entry.1.value.bare)).toList := by
    rw [selected_binding]
    cases entry.1.defined? <;> simp [Function.comp_def, Task.kept?]
  rw [selected_tasks, definitions, List.filterMap_eq_flatMap_toList _ f.bindings,
    ← flatMap_zipIdx fun b : Binding => (b.defined?.map fun v => (v, b.value.bare)).toList]
  simp [ofBinding, Function.comp_def, Task.kept?]

end Function

end TensorIR
