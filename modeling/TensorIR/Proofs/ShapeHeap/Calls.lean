import TensorIR.Proofs.CallNodes
import TensorIR.Proofs.ShapeHeap.Correctness

/-!
# Calls through lowering

Calls are the only expressions with an effect, so it matters how often a call of a function stands
in its lowered form, and in which order. `Function.callSites` lists the calls of a function, each
with the binding or body it stands in; `Function.loweredCalls` lists those of a lowered form that
lowering has not made itself, each with the place it comes from and with the loads in its arguments
undone.

The value of a definition is emitted once. The value of a matched shape is emitted once for a store,
if the pattern binds a new dimension variable, and once for the alias, if there is one: twice, once
or never. `heapShapes_callSites` says that the calls stay as they are if and only if no value with a
call in it falls under twice or never, and `matchedCall` is a function where one is made twice.
-/

namespace TensorIR

/-- The call with shapes in the place of the variables that name their loads. -/
def CallNode.restore (loads : List (Var × Shape)) (node : CallNode) : CallNode :=
  { node with args := node.args.map (Expr.restore loads) }

theorem Expr.calls_restore (loads : List (Var × Shape)) (e : Expr) :
    (e.restore loads).calls = e.calls.map (CallNode.restore loads) := by
  induction e using Expr.induction with
  | var v =>
      rw [restore]
      cases loads.lookup v with
      | none => rfl
      | some s => rfl
  | shape _ | const _ | external _ | global _ => rfl
  | item t i ih => rw [restore, calls_item, calls_item, ih]
  | tuple es ih =>
      rw [restore, restoreAll_eq_map, calls_tuple, calls_tuple, List.flatMap_map, List.map_flatMap,
        List.flatMap_congr ih]
  | call head es ih =>
      rw [restore, restoreAll_eq_map, calls_call, calls_call, List.flatMap_map, List.map_append,
        List.map_flatMap, List.flatMap_congr ih]
      rfl

/-! ### Call sites -/

namespace Function

/-- The calls of a function in post-order, each with the binding that it stands in, or none for the
body. -/
def callSites (f : Function) : List (Option Source × CallNode) :=
  f.bindings.zipIdx.flatMap (fun (b, i) => b.value.calls.map (some (.binding i), ·)) ++
    f.body.calls.map (none, ·)

/-- The binding that defines a variable. -/
def definer (f : Function) (v : Var) : Source :=
  .binding (f.bindings.findIdx fun b => b.defined? = some v)

/-- Where the value that an event handles comes from. -/
def source? (f : Function) : Event → Option Source
  | .query a | .store a _ | .storeValue a _ => some a.source
  | .keep v _ => some (f.definer v)
  | .alloc _ | .invoke _ | .load .. => none

end Function

/-- The calls of a binding that lowering has not made: all but the outermost one if the binding
defines a new variable. -/
def Binding.ownCalls (arena : Nat) : Binding → List CallNode
  | .define v value => if v.index < arena then value.calls else value.calls.dropLast
  | .matchShape _ value _ => value.calls

/-- The calls of the bindings of a lowered form of `f` that lowering has not made, each with where
it comes from, and with the loads known when it is made undone. -/
def Cursor.ownCalls (f : Function) : Cursor → List Binding → List (Option Source × CallNode)
  | _, [] => []
  | c, b :: bs =>
    match c.read f.vars.length b with
    | some (c', e) =>
      (b.ownCalls f.vars.length).map (fun call => (f.source? e, call.restore c.loads)) ++
        ownCalls f c' bs
    | none => []

/-- The calls of a lowered form `g` of `f` that lowering has not made. -/
def Function.loweredCalls (f g : Function) (c : Cursor) : List (Option Source × CallNode) :=
  f.cursor.ownCalls f g.bindings ++ g.body.calls.map fun call => (none, call.restore c.loads)

namespace Function

/-- The dimension variables that are bound before a binding. -/
def boundBefore (f : Function) (position : Nat) : List DimVar :=
  (f.params.filterMap f.paramArrival?).flatMap Arrival.vars ++
    (f.bindings.take position).flatMap fun b => (b.pattern?.map HeapLayout.bound).getD []

/-- How often the value of the binding at a position is emitted. -/
def copies (f : Function) (position : Nat) : Binding → Nat
  | .define .. => 1
  | .matchShape v? _ pattern =>
    (if ∀ v ∈ HeapLayout.bound pattern, v ∈ f.boundBefore position then 0 else 1) +
      v?.toList.length

end Function

/-! ### Calls of events -/

/-- The calls in the value that an event handles. -/
def Event.calls : Event → List CallNode
  | query a | storeValue a _ => a.value.calls
  | keep _ value => value.calls
  | alloc _ | store .. | invoke _ | load .. => []

namespace Cursor

variable {f : Function} {c c' : Cursor} {e : Event}

theorem arrive?_calls {value : Expr} {a : Arrival} (h : c.arrive? value = some (c', a)) :
    a.value.calls = value.calls.map (CallNode.restore c.loads) := by
  rw [arrive?] at h
  split at h
  · split at h
    · next same =>
        cases h
        rw [← same, Expr.calls_restore]
    · cases h
  · cases h

/-- The callee of the call that lowering inserts for an event. -/
inductive Inserted : Event → Callee → Prop where
  | alloc {size} : Inserted (.alloc size) (.external Builtin.allocShapeHeap)
  | query {a} : Inserted (.query a) (.external Builtin.shapeOf)
  | store {a entries} : Inserted (.store a entries) (.op .vmStoreShape)
  | storeValue {a entries} : Inserted (.storeValue a entries) (.op .vmStoreShape)
  | invoke {name} : Inserted (.invoke name) (.global name)
  | load {s slots} : Inserted (.load s slots) (.op .vmLoadShape)

/-- What reading an inserted call says of it: its callee is one of five, and its arguments have the
calls of the event. -/
theorem readCall_eq_some {w : Var} {callee : Callee} {attrs : Attrs} {args : List Expr}
    (h : c.readCall w callee attrs args = some (c', e)) :
    Inserted e callee ∧
      (args.flatMap Expr.calls).map (CallNode.restore c.loads) = e.calls := by
  unfold readCall at h
  split at h
  · next symbol value =>
      rw [List.flatMap_cons, List.flatMap_nil, List.append_nil]
      split at h
      · next isQuery =>
          subst isQuery
          obtain ⟨⟨c₁, a⟩, arrived, same⟩ := Option.map_eq_some_iff.1 h
          cases same
          exact ⟨.query, (arrive?_calls arrived).symm⟩
      · split at h
        · next isAlloc =>
            subst isAlloc
            unfold readAlloc at h
            split at h
            · cases h
              exact ⟨.alloc, rfl⟩
            · cases h
        · cases h
  · next entries shape heap =>
      split at h
      · rw [readStore] at h
        split at h
        · next a found =>
            cases h
            obtain ⟨v, isVar, -⟩ := Option.bind_eq_some_iff.1 found
            refine ⟨.store, ?_⟩
            cases shape with
            | var _ => rfl
            | shape _ | tuple _ | item _ _ | const _ | external _ | global _ | call _ _ =>
                cases isVar
        · obtain ⟨⟨c₁, a⟩, arrived, same⟩ := Option.map_eq_some_iff.1 h
          cases same
          refine ⟨.storeValue, ?_⟩
          rw [Event.calls, arrive?_calls arrived]
          simp
      · cases h
  · split at h
    · cases h
      exact ⟨.invoke, rfl⟩
    · cases h
  · split at h
    · split at h
      · cases h
        exact ⟨.load, rfl⟩
      · cases h
    · cases h
  · cases h

/-- The calls of a binding that lowering has not made are those of its event. -/
theorem ownCalls_of_read {arena : Nat} {b : Binding} (h : c.read arena b = some (c', e)) :
    (b.ownCalls arena).map (CallNode.restore c.loads) = e.calls := by
  cases b with
  | matchShape _ _ _ => cases h
  | define v value =>
      rw [read] at h
      rw [Binding.ownCalls]
      split at h
      · next old =>
          cases h
          rw [if_pos old, Event.calls, Expr.calls_bare, Expr.calls_restore]
      · next new =>
          rw [if_neg new]
          cases value with
          | call head args =>
              rw [Expr.calls_call, List.dropLast_concat]
              exact (readCall_eq_some h).2
          | var _ | shape _ | tuple _ | item _ _ | const _ | external _ | global _ => cases h

theorem ownCalls_of_readAll {bs : List Binding} {events : List Event}
    (h : c.readAll f.vars.length bs = some (c', events)) :
    c.ownCalls f bs = events.flatMap fun e => e.calls.map (f.source? e, ·) := by
  induction bs generalizing c events with
  | nil =>
      cases h
      rfl
  | cons b bs ih =>
      rw [readAll] at h
      split at h
      · cases h
      · next mid e first =>
          obtain ⟨⟨last, rest⟩, tail, same⟩ := Option.map_eq_some_iff.1 h
          cases same
          rw [ownCalls, first, List.flatMap_cons, ← ih tail, ← ownCalls_of_read first,
            List.map_map]
          rfl

end Cursor

/-! ### Calls of tasks -/

namespace Function

variable {f : Function} {stored stored' : List DimVar} {tasks : List Task}

/-- The calls in the values that a list of tasks handles, if the given variables are stored. -/
def handled (f : Function) (stored : List DimVar) : List Task → List (Option Source × CallNode)
  | [] => []
  | .arrive a :: tasks =>
    if ∀ v ∈ a.vars, v ∈ stored then handled f stored tasks
    else a.value.calls.map (some a.source, ·) ++ handled f (a.vars ++ stored) tasks
  | .keep v value :: tasks => value.calls.map (some (f.definer v), ·) ++ handled f stored tasks
  | .load _ :: tasks => handled f stored tasks

theorem handled_congr (h : ∀ v, v ∈ stored ↔ v ∈ stored') :
    f.handled stored tasks = f.handled stored' tasks := by
  induction tasks generalizing stored stored' with
  | nil => rfl
  | cons task tasks ih =>
      cases task with
      | arrive a =>
          have later : f.handled (a.vars ++ stored) tasks = f.handled (a.vars ++ stored') tasks :=
            ih fun v => by rw [List.mem_append, List.mem_append, h]
          rw [handled, handled, ih h, later]
          simp only [h]
      | keep v value => rw [handled, handled, ih h]
      | load s => exact ih h

/-- An arrival handles its value if it binds a new variable, and its variables are stored then. -/
theorem handled_arrive (a : Arrival) :
    f.handled stored (.arrive a :: tasks) =
      (if ∀ v ∈ a.vars, v ∈ stored then [] else a.value.calls.map (some a.source, ·)) ++
        f.handled (a.vars ++ stored) tasks := by
  rw [handled]
  split
  · next all =>
      rw [List.nil_append]
      refine handled_congr fun v => ?_
      rw [List.mem_append]
      exact ⟨.inr, fun h => h.elim (all v) id⟩
  · rfl

theorem handled_new {a : Arrival} {new : List (Nat × DimVar)}
    (first : ShapeHeap.newVars stored 0 a.pattern = new) (nonempty : new ≠ []) :
    f.handled stored (.arrive a :: tasks) =
      a.value.calls.map (some a.source, ·) ++ f.handled (new.map Prod.snd ++ stored) tasks := by
  subst first
  have isNew : ¬ ∀ v ∈ a.vars, v ∈ stored := fun all =>
    nonempty (ShapeHeap.newVars_eq_nil_iff.2 all)
  rw [handled, if_neg isNew]
  refine congrArg (_ ++ ·) (handled_congr fun v => ?_)
  rw [List.mem_append, List.mem_append, ShapeHeap.mem_newVars_snd, Arrival.vars]
  tauto

theorem handled_loads (ss : List Shape) :
    f.handled stored (ss.map .load ++ tasks) = f.handled stored tasks := by
  induction ss with
  | nil => rfl
  | cons s ss ih => exact ih

theorem handled_params (vs : List Var) :
    f.handled stored ((vs.filterMap f.paramArrival?).map .arrive ++ tasks) =
      f.handled ((vs.filterMap f.paramArrival?).flatMap Arrival.vars ++ stored) tasks := by
  induction vs generalizing stored with
  | nil => rfl
  | cons v vs ih =>
      rw [List.filterMap_cons]
      cases arrival : f.paramArrival? v with
      | none => exact ih
      | some a =>
          obtain ⟨s, -, rfl⟩ := Option.map_eq_some_iff.1 arrival
          simp only [List.map_cons, List.cons_append, List.flatMap_cons]
          rw [handled_arrive, ih]
          simp only [Expr.calls_var, List.map_nil, ite_self, List.nil_append]
          refine handled_congr fun u => ?_
          simp only [List.mem_append]
          tauto

theorem handled_keeps (v? : Option Var) {e : Expr} {source : Source}
    (defined : ∀ v ∈ v?, f.definer v = source) :
    f.handled stored (v?.toList.map (fun v => .keep v e.bare) ++ tasks) =
      (List.replicate v?.toList.length e.calls).flatten.map (some source, ·) ++
        f.handled stored tasks := by
  cases v? with
  | none => rfl
  | some v =>
      show f.handled stored (.keep v e.bare :: tasks) = _
      rw [handled, Expr.calls_bare, defined v rfl]
      simp

/-- A binding handles its value as often as it is emitted. -/
theorem handled_binding {b : Binding} {position : Nat}
    (known : ∀ v, v ∈ stored ↔ v ∈ f.boundBefore position)
    (defined : ∀ v ∈ b.defined?, f.definer v = .binding position) :
    f.handled stored (b.tasks position ++ tasks) =
      (List.replicate (f.copies position b) b.value.calls).flatten.map
          (some (.binding position), ·) ++
      f.handled ((b.pattern?.map HeapLayout.bound).getD [] ++ stored) tasks := by
  rw [Binding.tasks, List.append_assoc, List.append_assoc, handled_loads]
  cases b with
  | define v e => exact handled_keeps (some v) defined
  | matchShape v? e pattern =>
      show f.handled stored (.arrive ⟨.binding position, e, pattern⟩ :: _) = _
      have introduces : (∀ v ∈ HeapLayout.bound pattern, v ∈ stored) ↔
          ∀ v ∈ HeapLayout.bound pattern, v ∈ f.boundBefore position :=
        forall₂_congr fun v _ => known v
      rw [handled_arrive]
      refine (congrArg _ (handled_keeps v? defined)).trans ?_
      rw [← List.append_assoc, copies, List.replicate_add, List.flatten_append, List.map_append]
      refine congrArg₂ _ (congrArg₂ _ ?_ rfl) rfl
      show (if ∀ v ∈ HeapLayout.bound pattern, v ∈ stored then [] else _) = _
      simp only [introduces]
      split
      · rfl
      · simp [Binding.value]

theorem mem_boundBefore_succ {position : Nat} {b : Binding}
    (at_ : f.bindings[position]? = some b) (v : DimVar) :
    v ∈ f.boundBefore (position + 1) ↔
      v ∈ (b.pattern?.map HeapLayout.bound).getD [] ++ f.boundBefore position := by
  rw [boundBefore, boundBefore, List.take_add_one, at_, List.flatMap_append]
  simp only [List.mem_append, Option.toList_some, List.flatMap_cons, List.flatMap_nil,
    List.append_nil]
  tauto

theorem definer_eq {position : Nat} {b : Binding} {v : Var} (wellFormed : f.Scoped)
    (at_ : f.bindings[position]? = some b) (defined : v ∈ b.defined?) :
    f.definer v = .binding position := by
  obtain ⟨inRange, same⟩ := List.getElem?_eq_some_iff.1 at_
  refine congrArg Source.binding ((List.findIdx_eq inRange).2 ⟨?_, fun j before => ?_⟩)
  · rw [same, decide_eq_true_iff]
    exact defined
  · -- An earlier definition would be a second one.
    rw [decide_eq_false_iff_not]
    intro earlier
    have distinct := (List.nodup_append.1 wellFormed.nodup).2.1
    rw [← List.take_append_drop position f.bindings, List.filterMap_append,
      List.nodup_append] at distinct
    refine distinct.2.2 v (List.mem_filterMap.2 ⟨_, ?_, earlier⟩) v
      (List.mem_filterMap.2 ⟨b, ?_, defined⟩) rfl
    · exact List.mem_take_iff_getElem.2 ⟨j, by omega, rfl⟩
    · rw [List.drop_eq_getElem_cons inRange, same]
      exact List.mem_cons_self

theorem handled_bindings (wellFormed : f.Scoped) {done bs : List Binding}
    (split : f.bindings = done ++ bs) (known : ∀ v, v ∈ stored ↔ v ∈ f.boundBefore done.length) :
    f.handled stored ((bs.zipIdx done.length).flatMap (fun (b, i) => b.tasks i) ++ tasks) =
      (bs.zipIdx done.length).flatMap (fun (b, i) =>
        (List.replicate (f.copies i b) b.value.calls).flatten.map (some (.binding i), ·)) ++
      f.handled (f.boundBefore f.bindings.length) tasks := by
  induction bs generalizing done stored with
  | nil =>
      rw [List.append_nil] at split
      rw [split]
      exact handled_congr known
  | cons b bs ih =>
      have at_ : f.bindings[done.length]? = some b := by
        rw [split, List.getElem?_append_right (Nat.le_refl _), Nat.sub_self]
        rfl
      have split' : f.bindings = (done ++ [b]) ++ bs := by
        rw [List.append_assoc]
        exact split
      have length : (done ++ [b]).length = done.length + 1 := by simp
      have known' : ∀ v, v ∈ (b.pattern?.map HeapLayout.bound).getD [] ++ stored ↔
          v ∈ f.boundBefore (done ++ [b]).length := by
        intro v
        rw [length, mem_boundBefore_succ at_, List.mem_append, List.mem_append, known]
      have next := ih split' known'
      rw [length] at next
      rw [List.zipIdx_cons, List.flatMap_cons, List.flatMap_cons, List.append_assoc,
        handled_binding known fun v hv => definer_eq wellFormed at_ hv, next, List.append_assoc]

/-- The events that perform a list of tasks handle the calls of these tasks. -/
theorem handled_of_performed {layout : HeapLayout} {shapeFunction : Option String}
    {stage last : Stage} {events : List Event}
    (h : Performed layout shapeFunction stage tasks events last) :
    (events.flatMap fun e => e.calls.map (f.source? e, ·)) = f.handled stage.stored tasks := by
  induction h with
  | done => rfl
  | seen known _ ih =>
      rw [handled, if_pos known]
      exact ih
  | queried first nonempty _ ih | direct first nonempty _ ih =>
      exact (congrArg (_ ++ ·) ih).trans (handled_new first nonempty).symm
  | load _ _ _ ih => exact ih
  | refreshed _ _ _ _ ih => exact ih
  | @keep stage v value tasks events last _ ih =>
      exact congrArg (value.calls.map (some (f.definer v), ·) ++ ·) ih

/-! ### Calls of the lowered function -/

/-- The calls of a lowered form: those of each binding as often as it is emitted, then those of the
body. -/
theorem loweredCalls_eq {g : Function} {c : Cursor} {layout : HeapLayout}
    {shapeFunction : Option String} {size : Shape} {events : List Event} {last : Stage}
    (wellFormed : f.Scoped) (reads : f.ReadsAs g c (.alloc size :: events))
    (performed : Performed layout shapeFunction {} f.tasks events last) :
    f.loweredCalls g c =
      f.bindings.zipIdx.flatMap (fun (b, i) =>
        (List.replicate (f.copies i b) b.value.calls).flatten.map (some (.binding i), ·)) ++
      f.body.calls.map (none, ·) := by
  have known : ∀ v, v ∈ (f.params.filterMap f.paramArrival?).flatMap Arrival.vars ++ [] ↔
      v ∈ f.boundBefore 0 := fun v => by simp [boundBefore]
  have bindings : f.cursor.ownCalls f g.bindings = f.handled [] f.tasks :=
    (Cursor.ownCalls_of_readAll reads.trace).trans (handled_of_performed performed)
  rw [loweredCalls, bindings, tasks, List.append_assoc, handled_params]
  have split : f.bindings = [] ++ f.bindings := rfl
  refine congrArg₂ _ ((handled_bindings wellFormed split known).trans ?_) ?_
  · rw [← List.append_nil (f.body.symbolicShapes.map Task.load), handled_loads, handled,
      List.append_nil]
    rfl
  · rw [← reads.body, Expr.calls_restore, List.map_map]
    rfl

/-- Calls that are marked with their binding can be told apart by it. -/
theorem filterMap_binding (calls : Nat → Binding → List CallNode) (bs : List Binding) (k i : Nat) :
    ((bs.zipIdx k).flatMap fun (b, j) => (calls j b).map (some (Source.binding j), ·)).filterMap
        (fun site => if site.1 = some (.binding i) then some site.2 else none) =
      if k ≤ i then (bs[i - k]?.map (calls i)).getD [] else [] := by
  induction bs generalizing k with
  | nil => simp
  | cons b bs ih =>
      rw [List.zipIdx_cons, List.flatMap_cons, List.filterMap_append, ih (k + 1),
        List.filterMap_map]
      by_cases here : k = i
      · subst here
        have all : ((fun site : Option Source × CallNode =>
            if site.1 = some (.binding k) then some site.2 else none) ∘
              (some (Source.binding k), ·)) = some := by
          funext call
          exact if_pos rfl
        rw [all, List.filterMap_some, if_neg (by omega), if_pos (Nat.le_refl k), Nat.sub_self]
        exact List.append_nil _
      · have none : ((fun site : Option Source × CallNode =>
            if site.1 = some (.binding i) then some site.2 else none) ∘
              (some (Source.binding k), ·)) = fun _ => none := by
          funext call
          exact if_neg fun same => here (Source.binding.inj (Option.some.inj same))
        rw [none, List.filterMap_none, List.nil_append]
        by_cases later : k + 1 ≤ i
        · rw [if_pos later, if_pos (by omega), show i - k = i - (k + 1) + 1 by omega]
          rfl
        · rw [if_neg later, if_neg (by omega)]

/-- Two ways to take calls from the bindings agree in order only if they agree at each binding. -/
theorem flatMap_binding_inj (calls calls' : Nat → Binding → List CallNode) (bs : List Binding) :
    (bs.zipIdx.flatMap fun (b, i) => (calls i b).map (some (Source.binding i), ·)) =
        (bs.zipIdx.flatMap fun (b, i) => (calls' i b).map (some (Source.binding i), ·)) ↔
      ∀ i b, bs[i]? = some b → calls i b = calls' i b := by
  constructor
  · intro same i b at_
    have selected := congrArg (List.filterMap fun site : Option Source × CallNode =>
      if site.1 = some (.binding i) then some site.2 else none) same
    rw [filterMap_binding, filterMap_binding, if_pos (Nat.zero_le i), if_pos (Nat.zero_le i),
      Nat.sub_zero, at_] at selected
    exact selected
  · intro same
    refine List.flatMap_congr fun entry mem => ?_
    obtain ⟨b, i⟩ := entry
    have at_ := (List.mem_zipIdx_iff_getElem?).1 mem
    exact congrArg (List.map _) (same i b at_)

/-- A list repeated some number of times is itself if that number is one or the list is empty. -/
theorem flatten_replicate_eq_self {α : Type} {n : Nat} {l : List α} :
    (List.replicate n l).flatten = l ↔ (l ≠ [] → n = 1) := by
  constructor
  · intro same nonempty
    have length := congrArg List.length same
    rw [List.length_flatten, List.map_replicate, List.sum_replicate_nat] at length
    have positive := List.length_pos_iff.2 nonempty
    exact Nat.eq_of_mul_eq_mul_right positive (length.trans (Nat.one_mul _).symm)
  · intro once
    by_cases empty : l = []
    · subst empty
      simp
    · rw [once empty]
      simp

end Function

theorem Cursor.read_of_mem {arena : Nat} {c c' : Cursor} {bs : List Binding} {events : List Event}
    {b : Binding} (h : c.readAll arena bs = some (c', events)) (mem : b ∈ bs) :
    ∃ before after e, Cursor.read arena before b = some (after, e) ∧ e ∈ events := by
  induction bs generalizing c events with
  | nil => cases mem
  | cons first bs ih =>
      rw [readAll] at h
      split at h
      · cases h
      · next mid e read =>
          obtain ⟨⟨last, rest⟩, tail, same⟩ := Option.map_eq_some_iff.1 h
          cases same
          rcases List.mem_cons.1 mem with rfl | mem
          · exact ⟨c, mid, e, read, List.mem_cons_self⟩
          · obtain ⟨before, after, e', read', mem'⟩ := ih tail mem
            exact ⟨before, after, e', read', List.mem_cons_of_mem e mem'⟩

theorem Performed.invoke_mem {layout : HeapLayout} {shapeFunction : Option String}
    {stage last : Stage} {tasks : List Task} {events : List Event} {name : String}
    (h : Performed layout shapeFunction stage tasks events last) (mem : .invoke name ∈ events) :
    shapeFunction = some name := by
  induction h with
  | done => cases mem
  | seen _ _ ih => exact ih mem
  | queried _ _ _ ih | direct _ _ _ ih | load _ _ _ ih | keep _ ih =>
      simp only [List.mem_cons, reduceCtorEq, false_or] at mem
      exact ih mem
  | refreshed _ _ named _ ih =>
      simp only [List.mem_cons, Event.invoke.injEq, reduceCtorEq, false_or] at mem
      rcases mem with rfl | mem
      · exact named
      · exact ih mem

namespace Module

variable {base key : String} {m m' : Module} {f : Function}

/-- The callees of what lowering adds to a function: the two builtins, the two operators on the
heap, and the heap function that is generated for the function. -/
inductive Adds (m' : Module) (f : Function) : Callee → Prop where
  | alloc : Adds m' f (.external Builtin.allocShapeHeap)
  | query : Adds m' f (.external Builtin.shapeOf)
  | store : Adds m' f (.op .vmStoreShape)
  | load : Adds m' f (.op .vmLoadShape)
  | invoke {name} (generated : m'.heapFunction? name = some (f.layout.heapFunction name)) :
    Adds m' f (.global name)

/-- Lowering adds calls of its own only, and the calls of the function are found in the lowered form
once each and in order if and only if no value with a call is emitted twice or never. -/
theorem heapShapes_callSites (lowered : m.heapShapes base = .ok m')
    (mem : m.get? key = some (.function f)) (wellFormed : f.check = .ok ())
    (symbolic : f.symbolicShapes ≠ []) :
    ∃ g c events, m'.get? key = some (.function g) ∧ f.ReadsAs g c events ∧
      (∀ v value, .define v value ∈ g.bindings → ¬ f.Allocates v →
        ∃ head args, value = .call head args ∧ Adds m' f head.callee) ∧
      (f.loweredCalls g c = f.callSites ↔
        ∀ i b, f.bindings[i]? = some b → b.value.calls ≠ [] → f.copies i b = 1) := by
  obtain ⟨g, c, events, shapeFunction, last, found, reads, performed, generated, -⟩ :=
    heapShapes_performed lowered mem wellFormed symbolic
  refine ⟨g, c, _, found, reads, ?_, ?_⟩
  · intro v value inBindings new
    obtain ⟨before, after, e, read, inEvents⟩ := Cursor.read_of_mem reads.trace inBindings
    rw [Cursor.read] at read
    replace read := (if_neg new).symm.trans read
    cases value with
    | call head args =>
        refine ⟨head, args, rfl, ?_⟩
        have inserted := (Cursor.readCall_eq_some read).1
        generalize head.callee = callee at inserted ⊢
        cases inserted with
        | alloc => exact .alloc
        | query => exact .query
        | store | storeValue => exact .store
        | load => exact .load
        | @invoke name =>
            have called : .invoke name ∈ events := by simpa using inEvents
            exact .invoke (generated name (performed.invoke_mem called))
    | var _ | shape _ | tuple _ | item _ _ | const _ | external _ | global _ => cases read
  · rw [Function.loweredCalls_eq (Function.scoped_of_check wellFormed) reads performed,
      Function.callSites, List.append_left_inj]
    refine (Function.flatMap_binding_inj
      (fun i b => (List.replicate (f.copies i b) b.value.calls).flatten)
      (fun _ b => b.value.calls) f.bindings).trans ?_
    exact forall₂_congr fun i b => forall_congr' fun _ => Function.flatten_replicate_eq_self

/-! ### A call that is made twice -/

/-- A function that matches the shape of the result of a call and names it:

    y: (n,) = match_shape(f(x))
    (n,)
-/
def matchedCall : Function where
  name := "main"
  params := [⟨0⟩]
  blocks := [⟨.plain, [
    .matchShape (some ⟨1⟩) (.ofCallee (.external "f") [.var ⟨0⟩]) [.var ⟨0⟩]]⟩]
  body := .shape [.var ⟨0⟩]
  retTy := none
  vars := [⟨"x", .plain, none, some (.tensor none .float32)⟩, ⟨"y", .plain, none, none⟩]
  dimNames := ["n"]

/-- The module of this function alone. -/
def matchedCallModule : Module := .ofEntries [("main", .function matchedCall)]

theorem matchedCall_lowers : ∃ m', matchedCallModule.heapShapes "shape_func" = .ok m' := by
  exact exists_eq_ok (by decide +kernel)

theorem heapShapes_callSites_matchedCall :
    ∃ m' g c events, matchedCallModule.heapShapes "shape_func" = .ok m' ∧
      m'.get? "main" = some (.function g) ∧ matchedCall.ReadsAs g c events ∧
      (∀ v value, .define v value ∈ g.bindings → ¬ matchedCall.Allocates v →
        ∃ head args, value = .call head args ∧ Adds m' matchedCall head.callee) ∧
      matchedCall.loweredCalls g c ≠ matchedCall.callSites := by
  obtain ⟨m', lowered⟩ := matchedCall_lowers
  have mem : matchedCallModule.get? "main" = some (.function matchedCall) := by decide +kernel
  obtain ⟨g, c, events, found, reads, added, once⟩ :=
    heapShapes_callSites lowered mem (by decide +kernel) (by decide +kernel)
  refine ⟨m', g, c, events, lowered, found, reads, added, fun same => ?_⟩
  have copies := once.1 same 0 _ rfl (by decide +kernel)
  exact absurd copies (by decide +kernel)

/-- The call stands in the function once, and in its lowered form twice: for the query of its shape
and for its name. -/
theorem matchedCall_twice :
    ∃ m' g, matchedCallModule.heapShapes "shape_func" = .ok m' ∧
      m'.get? "main" = some (.function g) ∧ matchedCall.check = .ok () ∧
      matchedCall.symbolicShapes ≠ [] ∧
      (matchedCall.callSites.map fun site => site.2.callee).count (.external "f") = 1 ∧
      (g.callSites.map fun site => site.2.callee).count (.external "f") = 2 := by
  obtain ⟨m', lowered⟩ := matchedCall_lowers
  have counted : ((matchedCallModule.heapShapes "shape_func").toOption.bind fun m' =>
      (m'.function? "main").map fun g =>
        (g.callSites.map fun site => site.2.callee).count (.external "f")) = some 2 := by
    decide +kernel
  rw [lowered, Except.toOption, Option.bind_some] at counted
  obtain ⟨g, function, twice⟩ := Option.map_eq_some_iff.1 counted
  obtain ⟨item, found, isFunction⟩ := Option.bind_eq_some_iff.1 function
  cases item with
  | function g' =>
      cases isFunction
      exact ⟨m', g, lowered, found, by decide +kernel, by decide +kernel, by decide +kernel, twice⟩
  | heapFunction _ => cases isFunction

end Module

end TensorIR
