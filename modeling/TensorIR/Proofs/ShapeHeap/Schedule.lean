import TensorIR.Proofs.ShapeHeap.Trace
import TensorIR.Proofs.WellFormed

/-!
# Lowering performs the tasks of a function

Every function that is lowered has a trace, and the events of the trace perform the tasks of the
function from before. The proof follows the lowering state. `Follows` is the invariant: what has
been emitted so far reads as a cursor and a list of events, the events perform the tasks done so
far, and the cursor waits for the tasks to do. Each operation of lowering takes one task from the
one list to the other.

The cursor never mistakes an inserted variable for an old one, since the variables that it knows
names for are all past those of the function. It never mistakes a load for a query either, which
matters where a matched value is a symbolic shape: its load is then stored as it is.
-/

namespace TensorIR

namespace ShapeHeap

/-- What a state of lowering knows to be on the heap. -/
def State.stage (st : State) : Stage := ⟨st.stored, st.current⟩

/-! ### Emission -/

namespace State

variable (st : State) (name : String) (call : Expr)

theorem bindings_emit : (st.emit name call).1.builder.bindings =
    st.builder.bindings ++ [.define ⟨st.builder.vars.length⟩ (call.annotate st.builder.vars)] :=
  Builder.bindings_emitNamed ..

theorem length_vars_emit :
    (st.emit name call).1.builder.vars.length = st.builder.vars.length + 1 :=
  Builder.length_vars_emitNamed ..

theorem emit_var : (st.emit name call).2 = ⟨st.builder.vars.length⟩ := rfl

theorem stage_emit : (st.emit name call).1.stage = st.stage := rfl

theorem isStale_eq_true {st : State} {s : Shape} : st.isStale s = true ↔ st.stage.Stale s := by
  rw [isStale, List.any_eq_true]
  refine exists_congr fun d => and_congr_right fun _ => ?_
  rw [Bool.and_eq_true, Option.isNone_iff_eq_none, Bool.not_eq_true', List.contains_eq_mem,
    decide_eq_false_iff_not]
  exact Iff.rfl

end State

/-! ### The invariant -/

/-- The names that a cursor knows are new variables, and no name is both of a query and of a
load. -/
structure Names (arena size : Nat) (c : Cursor) : Prop where
  grown : arena ≤ size
  loads : ∀ v s, c.loads.lookup v = some s → arena ≤ v.index ∧ v.index < size
  queried : ∀ v a, c.queried.lookup v = some a →
    arena ≤ v.index ∧ v.index < size ∧ c.loads.lookup v = none

/-- What has been emitted reads as the cursor and the events. -/
structure Reads (cx : Context) (st : State) (c : Cursor) (events : List Event) : Prop where
  read : cx.function.cursor.readAll cx.function.vars.length st.builder.bindings =
    some (c, .alloc (heapShape cx.layout.size) :: events)
  heap : c.heap = some cx.heap
  names : Names cx.function.vars.length st.builder.vars.length c

/-- A lowering state follows the tasks done: the events read so far perform them, and the cursor
waits for the tasks to do. -/
structure Follows (cx : Context) (st : State) (c : Cursor) (events : List Event)
    (done todo : List Task) : Prop extends Reads cx st c events where
  performed : Performed cx.layout cx.shapeFunction {} done events st.stage
  arriving : c.arriving = introducing st.stored (todo.filterMap Task.arrival?)
  shapes : c.shapes = todo.filterMap Task.shape?

namespace Names

variable {arena size : Nat} {c : Cursor}

theorem loads_old (h : Names arena size c) {v : Var} (old : v.index < arena) :
    c.loads.lookup v = none := by
  cases found : c.loads.lookup v with
  | none => rfl
  | some s =>
      have := (h.loads v s found).1
      omega

theorem queried_old (h : Names arena size c) {v : Var} (old : v.index < arena) :
    c.queried.lookup v = none := by
  cases found : c.queried.lookup v with
  | none => rfl
  | some a =>
      have := (h.queried v a found).1
      omega

theorem queried_load (h : Names arena size c) {v : Var} {s : Shape}
    (loaded : c.loads.lookup v = some s) : c.queried.lookup v = none := by
  cases found : c.queried.lookup v with
  | none => rfl
  | some a =>
      rw [(h.queried v a found).2.2] at loaded
      cases loaded

theorem grow (h : Names arena size c) : Names arena (size + 1) c where
  grown := by
    have := h.grown
    omega
  loads v s found := by
    have := h.loads v s found
    omega
  queried v a found := by
    have := h.queried v a found
    exact ⟨this.1, by omega, this.2.2⟩

theorem load (h : Names arena size c) (s : Shape) :
    Names arena (size + 1) { c with loads := (⟨size⟩, s) :: c.loads } where
  grown := h.grow.grown
  loads v t found := by
    rw [List.lookup_cons] at found
    split at found
    · next same =>
        rw [beq_iff_eq] at same
        subst same
        have := h.grown
        exact ⟨this, Nat.lt_succ_self size⟩
    · exact h.grow.loads v t found
  queried v a found := by
    have old := h.queried v a found
    refine ⟨old.1, by omega, ?_⟩
    have differ : v ≠ ⟨size⟩ := by
      rintro rfl
      exact absurd old.2.1 (Nat.lt_irrefl size)
    rw [List.lookup_cons, beq_false_of_ne differ]
    exact old.2.2

theorem query (h : Names arena size c) (a : Arrival) :
    Names arena (size + 1) { c with queried := (⟨size⟩, a) :: c.queried } where
  grown := h.grow.grown
  loads v s found := h.grow.loads v s found
  queried v b found := by
    rw [List.lookup_cons] at found
    split at found
    · next same =>
        rw [beq_iff_eq] at same
        subst same
        refine ⟨h.grown, Nat.lt_succ_self size, ?_⟩
        cases loaded : c.loads.lookup ⟨size⟩ with
        | none => rfl
        | some s => exact absurd (h.loads _ s loaded).2 (Nat.lt_irrefl size)
    · have old := h.grow.queried v b found
      exact old

end Names

namespace Reads

variable {cx : Context} {st : State} {c c' : Cursor} {events : List Event}

theorem emit (h : Reads cx st c events) {name : String} {callee : Callee} {attrs : Attrs}
    {args : List Expr} {e : Event}
    (next : c.readCall ⟨st.builder.vars.length⟩ callee attrs args = some (c', e))
    (heap : c'.heap = some cx.heap)
    (names : Names cx.function.vars.length (st.builder.vars.length + 1) c') :
    Reads cx (st.emit name (.call ⟨callee, attrs, none, none⟩ args)).1 c' (events ++ [e]) where
  read := by
    rw [State.bindings_emit, ← List.cons_append]
    refine Cursor.readAll_append h.read (Cursor.readAll_singleton ?_)
    rw [Cursor.read_inserted h.names.grown]
    exact next
  heap := heap
  names := by
    rw [State.length_vars_emit]
    exact names

theorem sealBlock (h : Reads cx st c events) :
    Reads cx { st with builder := st.builder.sealBlock } c events where
  read := by
    rw [Builder.bindings_sealBlock]
    exact h.read
  heap := h.heap
  names := by
    rw [Builder.vars_sealBlock]
    exact h.names

theorem refresh (h : Reads cx st c events) {name : String}
    (named : cx.shapeFunction = some name) :
    Reads cx (st.refresh cx) c (events ++ [.invoke name]) := by
  have emitted : Reads cx (State.emit { st with builder := st.builder.sealBlock } "_"
      (.ofCallee (.global name) [.var cx.heap])).1 c (events ++ [.invoke name]) := by
    refine h.sealBlock.emit ?_ h.heap ?_
    · rw [Cursor.readCall, if_pos h.heap]
    · rw [Builder.vars_sealBlock]
      exact h.names.grow
  rw [State.refresh, named]
  exact ⟨emitted.read, emitted.heap, emitted.names⟩

theorem load (h : Reads cx st c events) {s : Shape} {rest : List Shape} {slots : List Nat}
    (shapes : c.shapes = s :: rest) :
    Reads cx (st.emit "shape" (.ofOp .vmLoadShape [.var cx.heap] (.loadShape slots))).1
      { c with shapes := rest, loads := (⟨st.builder.vars.length⟩, s) :: c.loads }
      (events ++ [.load s slots]) := by
  refine h.emit ?_ h.heap ⟨?_, ?_, ?_⟩
  · simp only [Cursor.readCall, shapes, if_pos h.heap]
  · exact (h.names.load s).grown
  · exact (h.names.load s).loads
  · exact (h.names.load s).queried

theorem query (h : Reads cx st c events) {value : Expr} {a : Arrival} {rest : List Arrival}
    (arriving : c.arriving = a :: rest) (same : value.restore c.loads = a.value) :
    Reads cx (st.queryShape value).1
      { c with arriving := rest, queried := (⟨st.builder.vars.length⟩, a) :: c.queried }
      (events ++ [.query a]) := by
  refine h.emit ?_ h.heap ⟨?_, ?_, ?_⟩
  · rw [Cursor.readCall, if_pos rfl, Cursor.readQuery, Cursor.arrive?, arriving]
    simp only [if_pos same]
    rfl
  · exact (h.names.query a).grown
  · exact (h.names.query a).loads
  · exact (h.names.query a).queried

theorem store (h : Reads cx st c events) {shape : Expr} {new : List (Nat × DimVar)} {e : Event}
    (next : c.readStore shape (cx.layout.entries new) = some (c', e)) (heap : c'.heap = c.heap)
    (loads : c'.loads = c.loads) (queried : c'.queried = c.queried) :
    Reads cx (st.store cx shape new) c' (events ++ [e]) := by
  have emitted : Reads cx (st.emit "_" (.ofOp .vmStoreShape [shape, .var cx.heap]
      (.storeShape (cx.layout.entries new)))).1 c' (events ++ [e]) := by
    refine h.emit ?_ (heap.trans h.heap) ⟨h.names.grow.grown, ?_, ?_⟩
    · rw [Cursor.readCall, if_pos h.heap]
      exact next
    · rw [loads]
      exact h.names.grow.loads
    · rw [loads, queried]
      exact h.names.grow.queried
  exact ⟨emitted.read, emitted.heap, emitted.names⟩

theorem keep (h : Reads cx st c events) {v : Var} {value : Expr} {st' : State}
    (old : v.index < cx.function.vars.length) (bound : st.bind cx v value = .ok st') :
    Reads cx st' c (events ++ [.keep v (value.restore c.loads).bare]) ∧ st'.stage = st.stage := by
  rw [State.bind] at bound
  obtain ⟨b, emitted, same⟩ := bind_eq_ok.1 bound
  have appended := Builder.bind_eq_ok_append (building_eq_ok.1 emitted)
  rw [pure_eq_ok] at same
  subst appended same
  refine ⟨⟨?_, h.heap, h.names⟩, rfl⟩
  rw [Builder.bindings_append, ← List.cons_append]
  refine Cursor.readAll_append h.read (Cursor.readAll_singleton ?_)
  rw [Cursor.read, if_pos old, Expr.bare_restore_annotate]

/-- Whatever precedes a load: a call of the heap function, or nothing. -/
theorem prepare (h : Reads cx st c events) {s : Shape} (ready : ∀ v ∈ s.vars, v ∈ st.stored) :
    ∃ st' calls, (if st.isStale s then st.refresh cx else st) = st' ∧
      Reads cx st' c (events ++ calls) ∧ st'.stored = st.stored ∧
      st.builder.vars.length ≤ st'.builder.vars.length ∧
      Performed cx.layout cx.shapeFunction st.stage [.load s]
        (calls ++ [.load s (s.map cx.layout.slot)]) st'.stage := by
  by_cases stale : st.isStale s = true
  · rw [if_pos stale]
    rw [State.isStale_eq_true] at stale
    cases named : cx.shapeFunction with
    | none =>
        refine ⟨st, [], ?_, ?_, rfl, Nat.le_refl _, .load ready (fun _ => rfl) .done⟩
        · rw [State.refresh, named]
        · rw [List.append_nil]
          exact h
    | some name =>
        refine ⟨st.refresh cx, [.invoke name], rfl, h.refresh named, ?_, ?_, ?_⟩
        · rw [State.refresh, named]
          rfl
        · rw [State.refresh, named]
          show _ ≤ (State.emit _ _ _).1.builder.vars.length
          rw [State.length_vars_emit, Builder.vars_sealBlock]
          exact Nat.le_succ _
        · refine .refreshed ready stale rfl ?_
          rw [State.refresh, named]
          exact .done
  · rw [if_neg stale]
    rw [State.isStale_eq_true] at stale
    refine ⟨st, [], rfl, ?_, rfl, Nat.le_refl _, .load ready (fun is => absurd is stale) .done⟩
    rw [List.append_nil]
    exact h

end Reads

namespace Follows

variable {cx : Context} {st st' : State} {c c' : Cursor} {events : List Event}
  {done todo : List Task}

/-! ### Loads -/

theorem load {s : Shape} {w : Var} (h : Follows cx st c events done (.load s :: todo))
    (lowered : st.load cx s = .ok (st', w)) :
    ∃ c' events', Follows cx st' c' events' (done ++ [.load s]) todo ∧
      c'.loads = (w, s) :: c.loads ∧
      st.builder.vars.length ≤ w.index ∧ w.index < st'.builder.vars.length := by
  simp only [State.load] at lowered
  split at lowered
  · obtain ⟨_, _, lowered⟩ := bind_eq_ok.1 lowered
    cases lowered
  · next all =>
      have ready : ∀ v ∈ s.vars, v ∈ st.stored := by
        intro v hv
        have stored := List.find?_eq_none.1 all v hv
        simpa using stored
      obtain ⟨mid, calls, same, reads, stored, grown, performed⟩ := h.toReads.prepare ready
      rw [same] at lowered
      have emitted := Except.ok.inj lowered
      obtain rfl := congrArg Prod.fst emitted
      obtain rfl := congrArg Prod.snd emitted
      refine ⟨_, _, ⟨reads.load h.shapes, ?_, ?_, rfl⟩, rfl, grown, ?_⟩
      · rw [List.append_assoc, State.stage_emit]
        exact h.performed.append performed
      · exact h.arriving.trans (congrArg (introducing · _) stored.symm)
      · rw [State.length_vars_emit]
        exact Nat.lt_succ_self _

/-- The loads of a list of shapes. Names given before keep what they name. -/
theorem loadAll {ss : List Shape} {vs : List Var}
    (h : Follows cx st c events done (ss.map .load ++ todo))
    (lowered : State.loadAll cx ss st = .ok (st', vs)) :
    ∃ c' events', Follows cx st' c' events' (done ++ ss.map .load) todo ∧
      vs.map (fun v => c'.loads.lookup v) = ss.map some ∧
      ∀ v : Var, v.index < st.builder.vars.length → c'.loads.lookup v = c.loads.lookup v := by
  induction ss generalizing st c events done vs with
  | nil =>
      cases lowered
      refine ⟨c, events, ?_, rfl, fun _ _ => rfl⟩
      rw [List.map_nil, List.append_nil]
      exact h
  | cons s ss ih =>
      rw [State.loadAll] at lowered
      obtain ⟨⟨mid, w⟩, head, lowered⟩ := bind_eq_ok.1 lowered
      obtain ⟨⟨last, ws⟩, tail, lowered⟩ := bind_eq_ok.1 lowered
      cases lowered
      obtain ⟨c₁, events₁, follows₁, loads, new, grown⟩ := h.load head
      obtain ⟨c₂, events₂, follows₂, named, kept⟩ := ih follows₁ tail
      refine ⟨c₂, events₂, ?_, ?_, fun v old => ?_⟩
      · rw [List.map_cons, List.append_cons]
        exact follows₂
      · rw [List.map_cons, List.map_cons, named, kept w grown, loads, List.lookup_cons_self]
      · rw [kept v (by omega), loads, List.lookup_cons, beq_false_of_ne]
        rintro rfl
        exact absurd old (Nat.not_lt.2 new)

/-- Lowering an expression performs its loads. What comes out restores to the expression, and it is
not the name of a query. -/
theorem value {e e' : Expr} (h : Follows cx st c events done (e.symbolicShapes.map .load ++ todo))
    (reads : ∀ v ∈ e.reads, cx.function.Allocates v)
    (lowered : State.lowerExpr cx e st = .ok (st', e')) :
    ∃ c' events', Follows cx st' c' events' (done ++ e.symbolicShapes.map .load) todo ∧
      e'.restore c'.loads = e ∧ e'.asVar?.bind (fun v => c'.queried.lookup v) = none := by
  rw [State.lowerExpr_eq] at lowered
  obtain ⟨⟨last, vs⟩, loads, lowered⟩ := bind_eq_ok.1 lowered
  cases lowered
  obtain ⟨c', events', follows, named, -⟩ := h.loadAll loads
  refine ⟨c', events', follows, ?_, ?_⟩
  · exact Expr.restore_fill e named fun v hv => follows.names.loads_old (reads v hv)
  · cases isVar : (e.fill vs).asVar? with
    | none => rfl
    | some u =>
        rcases Expr.asVar?_fill isVar with rfl | mem
        · refine follows.names.queried_old (reads u ?_)
          rw [Expr.reads]
          exact List.mem_singleton_self u
        · have loaded := List.mem_map_of_mem (f := fun v => c'.loads.lookup v) mem
          rw [named] at loaded
          obtain ⟨s, _, loaded⟩ := List.mem_map.1 loaded
          exact follows.names.queried_load loaded.symm

/-! ### Arrivals -/

/-- An arrival that binds nothing new asks for nothing. -/
theorem seen {a : Arrival} (h : Follows cx st c events done (.arrive a :: todo))
    (empty : newVars st.stored 0 a.pattern = []) :
    Follows cx st c events (done ++ [.arrive a]) todo where
  toReads := h.toReads
  performed := by
    have step : Performed cx.layout cx.shapeFunction st.stage [.arrive a] [] st.stage :=
      .seen (newVars_eq_nil_iff.1 empty) .done
    have all := h.performed.append step
    rw [List.append_nil] at all
    exact all
  arriving := h.arriving.trans (introducing_of_seen (newVars_eq_nil_iff.1 empty))
  shapes := h.shapes

/-- What the cursor waits for when an arrival that binds something new is next. -/
theorem arriving_cons {a : Arrival} {new : List (Nat × DimVar)}
    (h : Follows cx st c events done (.arrive a :: todo))
    (first : newVars st.stored 0 a.pattern = new) (nonempty : new ≠ []) :
    c.arriving =
      a :: introducing (new.map Prod.snd ++ st.stored) (todo.filterMap Task.arrival?) := by
  subst first
  refine h.arriving.trans (introducing_of_new fun seen => nonempty ?_)
  exact newVars_eq_nil_iff.2 seen

/-- A value is queried and its new dimensions are stored. -/
theorem queried {a : Arrival} {value : Expr} {new : List (Nat × DimVar)}
    (h : Follows cx st c events done (.arrive a :: todo))
    (first : newVars st.stored 0 a.pattern = new) (nonempty : new ≠ [])
    (same : value.restore c.loads = a.value) :
    ∃ c' events',
      Follows cx ((st.queryShape value).1.store cx (.var (st.queryShape value).2) new) c' events'
        (done ++ [.arrive a]) todo ∧ c'.loads = c.loads := by
  have query := h.toReads.query (h.arriving_cons first nonempty) same
  refine ⟨_, _, ⟨query.store (e := .store a (cx.layout.entries new)) ?_ rfl rfl rfl, ?_, rfl,
    h.shapes⟩, rfl⟩
  · rw [Cursor.readStore, Expr.asVar?, Option.bind_some, State.queryShape, State.emit_var,
      List.lookup_cons_self]
  · rw [List.append_assoc]
    exact h.performed.append (.queried first nonempty .done)

/-- A value that is a shape is stored as it is. -/
theorem direct {a : Arrival} {value : Expr} {new : List (Nat × DimVar)}
    (h : Follows cx st c events done (.arrive a :: todo))
    (first : newVars st.stored 0 a.pattern = new) (nonempty : new ≠ [])
    (same : value.restore c.loads = a.value)
    (noQuery : value.asVar?.bind (fun v => c.queried.lookup v) = none) :
    ∃ c' events', Follows cx (st.store cx value new) c' events' (done ++ [.arrive a]) todo ∧
      c'.loads = c.loads := by
  have next : c.readStore value (cx.layout.entries new) = some
      ({ c with arriving := introducing (new.map Prod.snd ++ st.stored)
                  (todo.filterMap Task.arrival?) },
        .storeValue a (cx.layout.entries new)) := by
    rw [Cursor.readStore, noQuery]
    simp only [Cursor.arrive?, h.arriving_cons first nonempty, if_pos same, Option.map_some]
  refine ⟨_, _, ⟨h.toReads.store next rfl rfl rfl, ?_, rfl, h.shapes⟩, rfl⟩
  exact h.performed.append (.direct first nonempty .done)

theorem pattern {a : Arrival} {value : Expr} (h : Follows cx st c events done (.arrive a :: todo))
    (same : value.restore c.loads = a.value)
    (noQuery : value.asVar?.bind (fun v => c.queried.lookup v) = none) :
    ∃ c' events', Follows cx (st.storePattern cx value a.pattern) c' events' (done ++ [.arrive a])
      todo ∧ c'.loads = c.loads := by
  rw [State.storePattern]
  split
  · next empty => exact ⟨c, events, h.seen empty, rfl⟩
  · next nonempty =>
      split
      · exact h.direct rfl nonempty same noQuery
      · exact h.queried rfl nonempty same

theorem param {v : Var}
    (h : Follows cx st c events done ((cx.function.paramArrival? v).toList.map .arrive ++ todo))
    (old : cx.function.Allocates v) (lowered : st.storeParam cx v = .ok st') :
    ∃ c' events', Follows cx st' c' events'
      (done ++ (cx.function.paramArrival? v).toList.map .arrive) todo := by
  rw [State.storeParam] at lowered
  obtain ⟨info, found, lowered⟩ := bind_eq_ok.1 lowered
  have recorded : cx.function.vars[v.index]? = some info := by
    rw [looking_eq_ok, Function.info] at found
    split at found
    · next present => exact present.trans (congrArg some (Except.ok.inj found))
    · cases found
  rw [Function.paramArrival?, recorded, Option.bind_some] at h ⊢
  cases shape : info.shape with
  | none =>
      rw [shape] at h lowered
      cases lowered
      refine ⟨c, events, ?_⟩
      simpa using h
  | some s =>
      rw [shape] at h lowered
      replace h : Follows cx st c events done (.arrive ⟨.param v, .var v, s⟩ :: todo) := h
      have same : (Expr.var v).restore c.loads = .var v := by
        rw [Expr.restore, h.names.loads_old old]
        rfl
      split at lowered
      · next empty =>
          cases lowered
          exact ⟨c, events, h.seen empty⟩
      · next nonempty =>
          cases lowered
          obtain ⟨c', events', follows, -⟩ := h.queried rfl nonempty same
          exact ⟨c', events', follows⟩

theorem params {vs : List Var}
    (h : Follows cx st c events done ((vs.filterMap cx.function.paramArrival?).map .arrive ++ todo))
    (old : ∀ v ∈ vs, cx.function.Allocates v)
    (lowered : vs.foldlM (State.storeParam cx) st = .ok st') :
    ∃ c' events', Follows cx st' c' events'
      (done ++ (vs.filterMap cx.function.paramArrival?).map .arrive) todo := by
  induction vs generalizing st c events done with
  | nil =>
      cases lowered
      refine ⟨c, events, ?_⟩
      simpa using h
  | cons v vs ih =>
      obtain ⟨mid, head, tail⟩ := foldlM_cons_eq_ok.1 lowered
      have split : ((v :: vs).filterMap cx.function.paramArrival?).map Task.arrive =
          (cx.function.paramArrival? v).toList.map .arrive ++
            (vs.filterMap cx.function.paramArrival?).map .arrive := by
        rw [List.filterMap_cons]
        cases cx.function.paramArrival? v with
        | none => rfl
        | some a => rfl
      rw [split, List.append_assoc] at h
      obtain ⟨c₁, events₁, h₁⟩ := h.param (old v List.mem_cons_self) head
      obtain ⟨c₂, events₂, h₂⟩ := ih h₁ (fun u hu => old u (List.mem_cons_of_mem v hu)) tail
      rw [split, ← List.append_assoc]
      exact ⟨c₂, events₂, h₂⟩

/-! ### Bindings -/

theorem keep {v : Var} {value e : Expr} (h : Follows cx st c events done (.keep v e.bare :: todo))
    (old : cx.function.Allocates v) (same : value.restore c.loads = e)
    (bound : st.bind cx v value = .ok st') :
    ∃ events', Follows cx st' c events' (done ++ [.keep v e.bare]) todo := by
  obtain ⟨reads, stage⟩ := h.toReads.keep old bound
  have stored : st'.stored = st.stored := congrArg Stage.stored stage
  rw [same] at reads
  refine ⟨_, reads, ?_, ?_, h.shapes⟩
  · rw [stage]
    exact h.performed.append (.keep .done)
  · rw [stored]
    exact h.arriving

theorem binding {b : Binding} {position : Nat}
    (h : Follows cx st c events done (b.tasks position ++ todo))
    (defined : ∀ v ∈ b.defined?, cx.function.Allocates v)
    (reads : ∀ v ∈ b.value.reads, cx.function.Allocates v)
    (lowered : st.lowerBinding cx b = .ok st') :
    ∃ c' events', Follows cx st' c' events' (done ++ b.tasks position) todo := by
  rw [State.lowerBinding] at lowered
  obtain ⟨-, lowered⟩ := check_bind_eq_ok.1 lowered
  obtain ⟨⟨mid, value⟩, loads, lowered⟩ := bind_eq_ok.1 lowered
  rw [Binding.tasks, List.append_assoc, List.append_assoc] at h
  obtain ⟨c₁, events₁, h₁, same, noQuery⟩ := h.value reads loads
  rw [Binding.tasks, ← List.append_assoc, ← List.append_assoc]
  cases b with
  | define v e =>
      obtain ⟨events₂, h₂⟩ := h₁.keep (defined v rfl) same lowered
      refine ⟨c₁, events₂, ?_⟩
      simpa [Binding.arrival?, Binding.pattern?, Binding.defined?, Binding.value] using h₂
  | matchShape v? e pattern =>
      obtain ⟨c₂, events₂, h₂, kept⟩ :=
        h₁.pattern (a := ⟨.binding position, e, pattern⟩) same noQuery
      cases v? with
      | none =>
          cases lowered
          refine ⟨c₂, events₂, ?_⟩
          simpa [Binding.arrival?, Binding.pattern?, Binding.defined?, Binding.value] using h₂
      | some v =>
          rw [← kept] at same
          obtain ⟨events₃, h₃⟩ := h₂.keep (defined v rfl) same lowered
          exact ⟨c₂, events₃, h₃⟩

theorem bindings {bs : List Binding} {position : Nat}
    (h : Follows cx st c events done
      ((bs.zipIdx position).flatMap (fun (b, i) => b.tasks i) ++ todo))
    (defined : ∀ b ∈ bs, ∀ v ∈ b.defined?, cx.function.Allocates v)
    (reads : ∀ b ∈ bs, ∀ v ∈ b.value.reads, cx.function.Allocates v)
    (lowered : bs.foldlM (State.lowerBinding cx) st = .ok st') :
    ∃ c' events', Follows cx st' c' events'
      (done ++ (bs.zipIdx position).flatMap fun (b, i) => b.tasks i) todo := by
  induction bs generalizing st c events done position with
  | nil =>
      cases lowered
      refine ⟨c, events, ?_⟩
      simpa using h
  | cons b bs ih =>
      obtain ⟨mid, head, tail⟩ := foldlM_cons_eq_ok.1 lowered
      rw [List.zipIdx_cons, List.flatMap_cons, List.append_assoc] at h
      obtain ⟨c₁, events₁, h₁⟩ :=
        h.binding (defined b List.mem_cons_self) (reads b List.mem_cons_self) head
      obtain ⟨c₂, events₂, h₂⟩ :=
        ih h₁ (fun b' hb => defined b' (List.mem_cons_of_mem b hb))
          (fun b' hb => reads b' (List.mem_cons_of_mem b hb)) tail
      rw [List.zipIdx_cons, List.flatMap_cons, ← List.append_assoc]
      exact ⟨c₂, events₂, h₂⟩

end Follows

/-! ### The lowered function -/

variable {f g : Function} {layout : HeapLayout} {shapeFunction : Option String}

/-- After the first block there is a heap, and all is to do. -/
theorem follows_start (f : Function) (layout : HeapLayout) (shapeFunction : Option String) :
    Follows ⟨f, layout, shapeFunction, (start f layout).2⟩ (start f layout).1
      { f.cursor with heap := some (start f layout).2 } [] [] f.tasks where
  read := by
    simp only [start]
    rw [Builder.bindings_sealBlock, Builder.bindings_emitNamed, Builder.bindings_reopen,
      List.nil_append, Builder.emitNamed_var]
    refine Cursor.readAll_singleton ?_
    have new : f.vars.length ≤ (Var.mk (Builder.reopen f).vars.length).index := Nat.le_refl _
    rw [Expr.ofCallee, Cursor.read_inserted new, Cursor.readCall, if_neg (by decide), if_pos rfl]
    rfl
  heap := rfl
  names :=
    { grown := by
        simp only [start]
        rw [Builder.vars_sealBlock, Builder.length_vars_emitNamed]
        exact Nat.le_succ _
      loads := nofun
      queried := nofun }
  performed := .done
  arriving := by
    rw [Function.arrivals_tasks]
    rfl
  shapes := by
    rw [Function.shapes_tasks]
    rfl

/-- A lowered function reads to its end, and what it does performs the tasks of the function. -/
theorem readsAs_lower (wellFormed : f.Scoped) (lowered : lower f layout shapeFunction = .ok g) :
    ∃ c events last, f.ReadsAs g c (.alloc (heapShape layout.size) :: events) ∧
      Performed layout shapeFunction {} f.tasks events last := by
  have h := follows_start f layout shapeFunction
  rw [lower] at lowered
  obtain ⟨st₁, params, lowered⟩ := bind_eq_ok.1 lowered
  obtain ⟨st₂, bindings, lowered⟩ := bind_eq_ok.1 lowered
  obtain ⟨⟨st₃, body⟩, value, lowered⟩ := bind_eq_ok.1 lowered
  obtain ⟨emitted, sameBody, -⟩ := Builder.finish_eq_ok (building_eq_ok.1 lowered)
  have defined : ∀ b ∈ f.bindings, ∀ v ∈ b.defined?, f.Allocates v := fun b hb v hv =>
    wellFormed.definitions v (Function.mem_defined hb hv)
  rw [Function.tasks, List.append_assoc] at h
  obtain ⟨c₁, events₁, h₁⟩ :=
    h.params (fun v hv => wellFormed.definitions v (List.mem_append_left _ hv)) params
  obtain ⟨c₂, events₂, h₂⟩ := h₁.bindings defined wellFormed.reads bindings
  have sealed : Follows _ { st₂ with builder := st₂.builder.sealBlock } c₂ events₂ _ _ :=
    { h₂ with toReads := h₂.toReads.sealBlock }
  rw [← List.append_nil (f.body.symbolicShapes.map Task.load)] at sealed
  obtain ⟨c₃, events₃, h₃, restored, -⟩ := sealed.value wellFormed.body value
  refine ⟨c₃, events₃, st₃.stage, ⟨?_, h₃.arriving, h₃.shapes, ?_, ?_⟩, h₃.performed⟩
  · rw [Function.trace, emitted]
    exact h₃.read
  · rw [← Function.kept_tasks]
    exact h₃.performed.kept
  · rw [sameBody]
    exact restored

end ShapeHeap

end TensorIR
