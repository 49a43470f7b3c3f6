import TensorIR.Proofs.ShapeHeap.Calls

/-!
# Heap operations of a lowered function

A binding of a lowered function that defines a variable of the function from before is that
function's own. Every other one is an operation on the heap, a `HeapOp`, and says on its face which
slots it stores or loads and which function it calls. `Function.heapOps` lists the operations in the
order of the bindings. It is what the trace of the function has when its arrivals and shapes are
forgotten (`heapOps_of_readAll`), so what holds of the events of a run of tasks holds of it.

Two things are counted along a run. The stores take each variable once, when it is first bound, and
so each slot of a variable is the target of one entry. And a call makes every dimension current that
can be computed at that point: nothing is stale after it until the next store, so before the next
call there is one.
-/

namespace TensorIR

/-- An operation on the shape heap, as it can be read off a binding. -/
inductive HeapOp where
  /-- Allocates a heap with the number of cells that the shape says. -/
  | alloc (size : Shape)
  /-- Queries the run-time shape of a value. -/
  | query
  | store (entries : List ShapeSlot)
  | load (slots : List Nat)
  | call (function : String)
deriving DecidableEq, Repr

namespace HeapOp

/-- The operation that a call performs. -/
def ofCall? (callee : Callee) (attrs : Attrs) (args : List Expr) : Option HeapOp :=
  match callee, attrs, args with
  | .external symbol, .none, [arg] =>
    if symbol = Builtin.shapeOf then some query
    else if symbol = Builtin.allocShapeHeap then arg.shapeLiteral?.map alloc
    else none
  | .op .vmStoreShape, .storeShape entries, [_, _] => some (store entries)
  | .op .vmLoadShape, .loadShape slots, [_] => some (load slots)
  | .global name, .none, [_] => some (call name)
  | _, _, _ => none

/-- The cells that an operation writes on its own, apart from what a heap function computes. -/
def storedSlots : HeapOp → List Nat
  | store entries => entries.map ShapeSlot.slot
  | alloc _ | query | load _ | call _ => []

/-- The cells that an operation reads to make a shape. -/
def loadedSlots : HeapOp → List Nat
  | load slots => slots
  | alloc _ | query | store _ | call _ => []

end HeapOp

namespace Function

/-- The operation on the heap that a binding performs, if it defines a variable that `f` does not
have. -/
def heapOp? (f : Function) : Binding → Option HeapOp
  | .define v (.call head args) =>
    if f.vars.length ≤ v.index then HeapOp.ofCall? head.callee head.attrs args else none
  | .define .. | .matchShape .. => none

/-- The operations on the heap in a lowered form `g` of `f`. -/
def heapOps (f g : Function) : List HeapOp := g.bindings.filterMap f.heapOp?

end Function

/-- The operation on the heap that an event is. -/
def Event.op? : Event → Option HeapOp
  | alloc size => some (.alloc size)
  | query _ => some .query
  | store _ entries | storeValue _ entries => some (.store entries)
  | invoke name => some (.call name)
  | load _ slots => some (.load slots)
  | keep .. => none

/-! ### Reading operations -/

namespace Cursor

variable {f : Function} {c c' : Cursor} {e : Event}

theorem ofCall?_of_readCall {w : Var} {callee : Callee} {attrs : Attrs} {args : List Expr}
    (h : c.readCall w callee attrs args = some (c', e)) :
    HeapOp.ofCall? callee attrs args = e.op? := by
  unfold readCall at h
  split at h
  · next symbol arg =>
      rw [HeapOp.ofCall?]
      split at h
      · next isQuery =>
          rw [if_pos isQuery]
          obtain ⟨⟨c₁, a⟩, -, same⟩ := Option.map_eq_some_iff.1 h
          cases same
          rfl
      · next notQuery =>
          rw [if_neg notQuery]
          split at h
          · next isAlloc =>
              rw [if_pos isAlloc]
              unfold readAlloc at h
              split at h
              · cases h
                rfl
              · cases h
          · cases h
  · next entries shape heap =>
      split at h
      · unfold readStore at h
        split at h
        · cases h
          rfl
        · obtain ⟨⟨c₁, a⟩, -, same⟩ := Option.map_eq_some_iff.1 h
          cases same
          rfl
      · cases h
  · next name heap =>
      split at h
      · cases h
        rfl
      · cases h
  · next slots heap =>
      split at h
      · split at h
        · cases h
          rfl
        · cases h
      · cases h
  · cases h

theorem isSome_of_inserted {callee : Callee} (h : Inserted e callee) : e.op?.isSome := by
  cases h <;> rfl

/-- A binding that reads is one of the old function, or the operation that is read. -/
theorem heapOp?_of_read {b : Binding} (h : c.read f.vars.length b = some (c', e)) :
    f.heapOp? b = e.op? ∧
      ((f.heapOp? b).isSome ∨ ∃ v value, b = .define v value ∧ v.index < f.vars.length) := by
  cases b with
  | matchShape v? value pattern => cases h
  | define v value =>
      rw [read] at h
      split at h
      · next old =>
          cases h
          refine ⟨?_, .inr ⟨v, value, rfl, old⟩⟩
          cases value with
          | call head args =>
              rw [Function.heapOp?, if_neg (by omega)]
              rfl
          | var _ | shape _ | tuple _ | item _ _ | const _ | external _ | global _ => rfl
      · next new =>
          cases value with
          | call head args =>
              have same := ofCall?_of_readCall h
              rw [Function.heapOp?, if_pos (by omega), same]
              refine ⟨rfl, .inl ?_⟩
              rw [readNew] at h
              exact isSome_of_inserted (readCall_eq_some h).1
          | var _ | shape _ | tuple _ | item _ _ | const _ | external _ | global _ => cases h

theorem heapOps_of_readAll {bs : List Binding} {events : List Event}
    (h : c.readAll f.vars.length bs = some (c', events)) :
    bs.filterMap f.heapOp? = events.filterMap Event.op? := by
  induction bs generalizing c events with
  | nil =>
      cases h
      rfl
  | cons b bs ih =>
      rw [readAll] at h
      split at h
      · cases h
      · next mid e first =>
          obtain ⟨⟨last, rest⟩, tail, same⟩ := Option.map_eq_some_iff.1 h
          cases same
          rw [List.filterMap_cons, List.filterMap_cons, (heapOp?_of_read first).1, ih tail]

end Cursor

/-! ### Operations along a run of tasks -/

namespace ShapeHeap

theorem nodup_newVars (stored : List DimVar) (offset : Nat) (s : Shape) :
    ((newVars stored offset s).map Prod.snd).Nodup := by
  fun_induction newVars stored offset s with
  | case1 => exact List.nodup_nil
  | case2 stored offset u dims seen ih => exact ih
  | case3 stored offset u dims new ih =>
      rw [List.map_cons, List.nodup_cons]
      refine ⟨fun mem => ?_, ih⟩
      exact (mem_newVars_snd.1 mem).2 List.mem_cons_self
  | case4 stored offset n dims ih => exact ih
  | case5 stored offset op lhs rhs dims ih => exact ih

end ShapeHeap

/-- No call comes before the first store. -/
def Awaiting (ops : List HeapOp) : Prop :=
  ∀ front name back, ops = front ++ .call name :: back → ∃ entries, .store entries ∈ front

/-- Between any two calls there is a store. -/
def Spaced (ops : List HeapOp) : Prop :=
  ∀ front name mid name' back, ops = front ++ .call name :: (mid ++ .call name' :: back) →
    ∃ entries, .store entries ∈ mid

theorem awaiting_store (entries : List ShapeSlot) (ops : List HeapOp) :
    Awaiting (.store entries :: ops) := by
  intro front name back split
  cases front with
  | nil => cases split
  | cons op front =>
      cases split
      exact ⟨entries, List.mem_cons_self⟩

theorem Awaiting.cons {op : HeapOp} {ops : List HeapOp} (h : Awaiting ops)
    (notCall : ∀ name, op ≠ .call name) : Awaiting (op :: ops) := by
  intro front name back split
  cases front with
  | nil =>
      cases split
      exact absurd rfl (notCall name)
  | cons first front =>
      cases split
      obtain ⟨entries, mem⟩ := h front name back rfl
      exact ⟨entries, List.mem_cons_of_mem _ mem⟩

theorem Spaced.cons {op : HeapOp} {ops : List HeapOp} (h : Spaced ops)
    (notCall : ∀ name, op ≠ .call name) : Spaced (op :: ops) := by
  intro front name mid name' back split
  cases front with
  | nil =>
      cases split
      exact absurd rfl (notCall name)
  | cons first front =>
      cases split
      exact h front name mid name' back rfl

theorem Spaced.call {name : String} {ops : List HeapOp} (h : Spaced ops) (awaits : Awaiting ops) :
    Spaced (.call name :: ops) := by
  intro front name mid name' back split
  cases front with
  | nil =>
      cases split
      exact awaits mid name' back rfl
  | cons first front =>
      cases split
      exact h front name mid name' back rfl

/-- The slots that a run stores, from a stage where the given variables are stored and over the
given arrivals: that of each other variable of an arrival, once. -/
def StoresNew (layout : HeapLayout) (stored : List DimVar) (arrivals : List Arrival)
    (slots : List Nat) : Prop :=
  ∃ vs : List DimVar, slots = vs.map layout.varSlot ∧ vs.Nodup ∧
    ∀ v, v ∈ vs ↔ v ∉ stored ∧ ∃ a ∈ arrivals, v ∈ a.vars

namespace StoresNew

variable {layout : HeapLayout} {stored : List DimVar} {a : Arrival} {arrivals : List Arrival}
  {slots : List Nat}

theorem seen (h : StoresNew layout stored arrivals slots) (known : ∀ v ∈ a.vars, v ∈ stored) :
    StoresNew layout stored (a :: arrivals) slots := by
  obtain ⟨vs, same, distinct, mem⟩ := h
  refine ⟨vs, same, distinct, fun v => ?_⟩
  rw [mem, List.exists_mem_cons_iff]
  refine and_congr_right fun new => ?_
  have notHere : v ∉ a.vars := fun inArrival => new (known v inArrival)
  simp [notHere]

theorem arrive {new : List (Nat × DimVar)} (first : ShapeHeap.newVars stored 0 a.pattern = new)
    (h : StoresNew layout (new.map Prod.snd ++ stored) arrivals slots) :
    StoresNew layout stored (a :: arrivals)
      ((layout.entries new).map ShapeSlot.slot ++ slots) := by
  obtain ⟨vs, rfl, distinct, mem⟩ := h
  have here (v : DimVar) : v ∈ new.map Prod.snd ↔ v ∈ a.vars ∧ v ∉ stored := by
    rw [← first]
    exact ShapeHeap.mem_newVars_snd
  refine ⟨new.map Prod.snd ++ vs, ?_, ?_, fun v => ?_⟩
  · simp [HeapLayout.entries, Function.comp_def]
  · refine List.nodup_append.2 ⟨?_, distinct, ?_⟩
    · rw [← first]
      exact ShapeHeap.nodup_newVars stored 0 a.pattern
    · intro v now u later same
      subst same
      exact ((mem v).1 later).1 (List.mem_append_left _ now)
  · rw [List.mem_append, here, mem, List.mem_append, here, List.exists_mem_cons_iff]
    by_cases old : v ∈ stored <;> by_cases inArrival : v ∈ a.vars <;> simp [old, inArrival]

end StoresNew

namespace Performed

variable {layout : HeapLayout} {shapeFunction : Option String} {stage last : Stage}
  {tasks : List Task} {events : List Event}

theorem storesNew (h : Performed layout shapeFunction stage tasks events last) :
    StoresNew layout stage.stored (tasks.filterMap Task.arrival?)
      ((events.filterMap Event.op?).flatMap HeapOp.storedSlots) := by
  induction h with
  | done => exact ⟨[], rfl, List.nodup_nil, by simp⟩
  | seen known _ ih => exact ih.seen known
  | queried first _ _ ih | direct first _ _ ih => exact ih.arrive first
  | load _ _ _ ih | refreshed _ _ _ _ ih | keep _ ih => exact ih

theorem mem_load (h : Performed layout shapeFunction stage tasks events last) {slots : List Nat}
    (mem : .load slots ∈ events.filterMap Event.op?) :
    ∃ s ∈ tasks.filterMap Task.shape?, slots = s.map layout.slot := by
  induction h with
  | done => cases mem
  | seen _ _ ih => exact ih mem
  | queried _ _ _ ih | direct _ _ _ ih =>
      simp only [List.filterMap_cons, Event.op?, List.mem_cons, reduceCtorEq, false_or] at mem
      exact ih mem
  | load _ _ _ ih | refreshed _ _ _ _ ih =>
      simp only [List.filterMap_cons, Event.op?, List.mem_cons, HeapOp.load.injEq, reduceCtorEq,
        false_or] at mem
      rcases mem with rfl | mem
      · exact ⟨_, List.mem_cons_self, rfl⟩
      · obtain ⟨s, inTasks, same⟩ := ih mem
        exact ⟨s, List.mem_cons_of_mem _ inTasks, same⟩
  | keep _ ih => exact ih mem

theorem not_alloc (h : Performed layout shapeFunction stage tasks events last) (size : Shape) :
    .alloc size ∉ events.filterMap Event.op? := by
  induction h with
  | done => simp
  | seen _ _ ih => exact ih
  | queried _ _ _ ih | direct _ _ _ ih | load _ _ _ ih | refreshed _ _ _ _ ih | keep _ ih =>
      simpa [Event.op?] using ih

/-- From a stage where everything that can be computed is current, nothing is stale until the next
store. -/
theorem awaiting (h : Performed layout shapeFunction stage tasks events last)
    (computed : ∀ s ∈ tasks.filterMap Task.shape?, ∀ d ∈ s, d.asVar? = none → d ∈ layout.computed)
    (current : ∀ d ∈ layout.computed, ShapeHeap.ready stage.stored d → d ∈ stage.current) :
    Awaiting (events.filterMap Event.op?) := by
  induction h with
  | done =>
      intro front name back split
      cases front <;> cases split
  | seen _ _ ih => exact ih computed current
  | queried _ _ _ _ => exact (awaiting_store _ _).cons nofun
  | direct _ _ _ _ => exact awaiting_store _ _
  | load _ _ _ ih =>
      refine (ih (fun s hs => ?_) current).cons nofun
      exact computed s (List.mem_cons_of_mem _ hs)
  | @refreshed stage s _ _ _ _ ready stale _ _ _ =>
      obtain ⟨d, hd, notVar, notCurrent⟩ := stale
      have inLayout := computed s List.mem_cons_self d hd notVar
      have isReady : ShapeHeap.ready stage.stored d := by
        rw [ShapeHeap.ready, List.all_eq_true]
        intro v hv
        simpa using ready v (List.mem_flatMap.2 ⟨d, hd, hv⟩)
      exact absurd (current d inLayout isReady) notCurrent
  | keep _ ih => exact ih computed current

theorem spaced (h : Performed layout shapeFunction stage tasks events last)
    (computed : ∀ s ∈ tasks.filterMap Task.shape?, ∀ d ∈ s, d.asVar? = none → d ∈ layout.computed) :
    Spaced (events.filterMap Event.op?) := by
  induction h with
  | done =>
      intro front name mid name' back split
      cases front <;> cases split
  | seen _ _ ih => exact ih computed
  | queried _ _ _ ih => exact ((ih computed).cons (by nofun)).cons (by nofun)
  | direct _ _ _ ih => exact (ih computed).cons nofun
  | load _ _ _ ih =>
      refine (ih fun s hs => ?_).cons nofun
      exact computed s (List.mem_cons_of_mem _ hs)
  | refreshed _ _ _ rest ih =>
      have later : ∀ s ∈ _, ∀ d ∈ s, d.asVar? = none → d ∈ layout.computed := fun s hs =>
        computed s (List.mem_cons_of_mem _ hs)
      -- The call has made everything current whose variables are stored.
      have awaits := rest.awaiting later fun d hd isReady => List.mem_filter.2 ⟨hd, isReady⟩
      exact ((ih later).cons (by nofun)).call (awaits.cons (by nofun))
  | keep _ ih => exact ih computed

end Performed

end TensorIR
