import TensorIR.Proofs.Extension
import TensorIR.Proofs.Placement
import TensorIR.Proofs.RenamingPasses
import TensorIR.Proofs.ShapeHeap.Calls

/-!
# Where abstract operators are lowered

Three operators stand for work that later passes spell out: a call in destination-passing style, an
abstract allocation, and a call with a given output. The standard pipeline lowers a call of them
where it is the whole value of a definition. A call in any other place passes through: one inside
of the value of a definition, in the value of a matched shape, or in the body.

`Function.passedOn` lists the calls in these places, in program order and as often as they come
out. The operands of a product count again in the sum that it is fused into. Where shapes are put on
a heap, the value of a matched shape is emitted for the store of a new dimension variable and for
the name of the match, so twice, once or never; elsewhere it stays what it is.

`Pipeline.standard_operators` says that this list, restricted to the abstract operators, is all that
is left of them, call by call: the variables of a call have other names, and loads stand in the
place of its shapes. Each of the first four passes maps the list of what it is given to the list of
what it makes. To go through that binding by binding, a pass has to emit what passes on the same
calls whatever stands before and after (`Binding.PassAlike`), since the dimension variables from
before decide how often a later value is emitted.
-/

namespace TensorIR

/-- Whether the operator of a call is one that later passes spell out. -/
def CallNode.isAbstract (node : CallNode) : Bool :=
  decide (node.callee ∈ [.op .callDps, .op .allocTensor, .op .callPacked])

namespace Binding

/-- How often the value of a matched shape is emitted where shapes are put on a heap, if `bound` are
the dimension variables from before: for the shape if it binds another one, and for the name. -/
def emissions (bound : List DimVar) (v? : Option Var) (pattern : Shape) : Nat :=
  (if ∀ d ∈ HeapLayout.bound pattern, d ∈ bound then 0 else 1) + v?.toList.length

/-- The calls of a binding that pass through: those inside of the value of a definition, and those
of a matched value as often as it is emitted. -/
def passedOn (onHeap : Bool) (bound : List DimVar) : Binding → List CallNode
  | define _ value => value.innerCalls
  | matchShape v? value pattern =>
    (List.replicate (if onHeap then emissions bound v? pattern else 1) value.calls).flatten

/-- The dimension variables that stand alone in the pattern of a binding. -/
def bound (x : Binding) : List DimVar := (x.pattern?.map HeapLayout.bound).getD []

/-- The calls of bindings that pass through, each binding after those before it. -/
def passedOnAll (onHeap : Bool) : List DimVar → List Binding → List CallNode
  | _, [] => []
  | before, x :: xs => x.passedOn onHeap before ++ passedOnAll onHeap (before ++ x.bound) xs

end Binding

namespace Function

/-- The calls of a function that pass through, if its bindings take the forms `xs` and its shapes
are put on a heap or not. -/
def passedOn (f : Function) (onHeap : Bool) (xs : List Binding) : List CallNode :=
  Binding.passedOnAll onHeap (f.boundBefore 0) xs ++ f.body.calls

/-- The variable is one that `f` does not have and `g` defines as a load from the shape heap. -/
def Loads (f g : Function) (v : Var) : Prop :=
  ¬ f.Allocates v ∧ ∃ head args,
    .define v (.call head args) ∈ g.bindings ∧ head.callee = .op .vmLoadShape

/-- A call of `g` is the call of `f`, but for loads in the place of shapes in its arguments. -/
def Fills (f g : Function) (node call : CallNode) : Prop :=
  ∃ loads : List (Var × Shape), (∀ p ∈ loads, f.Loads g p.1) ∧ call.restore loads = node

end Function

/-! ### What a binding passes on -/

namespace CallNode

theorem filter_rename (r : Var → Var) (nodes : List CallNode) :
    (nodes.map (rename r)).filter isAbstract = (nodes.filter isAbstract).map (rename r) :=
  List.filter_map

theorem filter_restore (loads : List (Var × Shape)) (nodes : List CallNode) :
    (nodes.map (restore loads)).filter isAbstract = (nodes.filter isAbstract).map (restore loads) :=
  List.filter_map

theorem rename_rename {r r' : Var → Var} (node : CallNode) :
    (node.rename r).rename r' = node.rename (r' ∘ r) := by
  refine congrArg (CallNode.mk node.callee node.attrs) ((List.map_map ..).trans ?_)
  exact List.map_congr_left fun e _ => Expr.rename_rename e

theorem restore_nil (node : CallNode) : node.restore [] = node := by
  rw [restore, List.map_congr_left fun e _ => Expr.restore_nil e, List.map_id']

end CallNode

namespace Binding

variable {onHeap : Bool} {before : List DimVar}

theorem passedOn_bare (x : Binding) : x.bare.passedOn onHeap before = x.passedOn onHeap before := by
  cases x with
  | define v e => exact Expr.innerCalls_bare e
  | matchShape v? e pattern => rw [bare, value, withValue, passedOn, passedOn, Expr.calls_bare]

theorem bound_bare (x : Binding) : x.bare.bound = x.bound := by
  cases x <;> rfl

theorem passedOn_rename (r : Var → Var) (x : Binding) :
    (x.rename r).passedOn onHeap before = (x.passedOn onHeap before).map (CallNode.rename r) := by
  cases x with
  | define v e => exact Expr.innerCalls_rename r e
  | matchShape v? e pattern =>
      have named : emissions before (v?.map r) pattern = emissions before v? pattern := by
        cases v? <;> rfl
      rw [rename, passedOn, passedOn, named, Expr.calls_rename, List.map_flatten,
        List.map_replicate]

theorem bound_rename (r : Var → Var) (x : Binding) : (x.rename r).bound = x.bound := by
  rw [bound, pattern?_rename, bound]

theorem passedOn_annotated (x : Binding) (vars : List VarInfo) :
    (x.annotated vars).passedOn onHeap before = x.passedOn onHeap before := by
  rw [← passedOn_bare, bare_annotated, passedOn_bare]

theorem bound_annotated (x : Binding) (vars : List VarInfo) :
    (x.annotated vars).bound = x.bound := by
  rw [← bound_bare, bare_annotated, bound_bare]

theorem passedOnAll_append (xs ys : List Binding) :
    passedOnAll onHeap before (xs ++ ys) =
      passedOnAll onHeap before xs ++ passedOnAll onHeap (before ++ xs.flatMap bound) ys := by
  induction xs generalizing before with
  | nil => simp [passedOnAll]
  | cons x xs ih =>
      rw [List.cons_append, passedOnAll, passedOnAll, ih, List.flatMap_cons, List.append_assoc,
        List.append_assoc]

theorem passedOnAll_bare (xs : List Binding) :
    passedOnAll onHeap before (xs.map bare) = passedOnAll onHeap before xs := by
  induction xs generalizing before with
  | nil => rfl
  | cons x xs ih => rw [List.map_cons, passedOnAll, passedOnAll, passedOn_bare, bound_bare, ih]

theorem passedOnAll_rename (r : Var → Var) (xs : List Binding) :
    passedOnAll onHeap before (xs.map (rename r)) =
      (passedOnAll onHeap before xs).map (CallNode.rename r) := by
  induction xs generalizing before with
  | nil => rfl
  | cons x xs ih =>
      rw [List.map_cons, passedOnAll, passedOnAll, passedOn_rename, bound_rename, ih,
        List.map_append]

theorem passedOnAll_definitions {xs rest : List Binding}
    (definitions : ∀ x ∈ xs, x.pattern? = none) :
    passedOnAll onHeap before (xs ++ rest) =
      xs.flatMap innerCalls ++ passedOnAll onHeap before rest := by
  induction xs with
  | nil => rfl
  | cons x xs ih =>
      obtain ⟨first, others⟩ := List.forall_mem_cons.1 definitions
      cases x with
      | matchShape v? e pattern => cases first
      | define v e =>
          rw [List.cons_append, passedOnAll, List.flatMap_cons, List.append_assoc, ← ih others]
          exact congrArg (e.innerCalls ++ passedOnAll onHeap · _) (List.append_nil before)

end Binding

theorem RenamedBy.passedOnAll {r : Var → Var} {xs ys : List Binding} (h : RenamedBy r xs ys)
    (onHeap : Bool) (before : List DimVar) : Binding.passedOnAll onHeap before ys =
      (Binding.passedOnAll onHeap before xs).map (CallNode.rename r) := by
  have named : xs.map (fun x => (x.rename r).bare) =
      (xs.map (Binding.rename r)).map Binding.bare := by
    rw [List.map_map]
    rfl
  rw [← Binding.passedOnAll_bare ys, h, named, Binding.passedOnAll_bare, Binding.passedOnAll_rename]

/-! ### Passes on calls -/

namespace Binding

/-- Emitting either list passes on the same calls, whatever stands before and after. -/
def PassAlike (xs ys : List Binding) : Prop :=
  ∀ onHeap before rest,
    passedOnAll onHeap before (xs ++ rest) = passedOnAll onHeap before (ys ++ rest)

namespace PassAlike

variable {xs xs' ys ys' : List Binding}

theorem refl (xs : List Binding) : PassAlike xs xs := fun _ _ _ => rfl

theorem append (front : PassAlike xs ys) (back : PassAlike xs' ys') :
    PassAlike (xs ++ xs') (ys ++ ys') := fun onHeap before rest => by
  rw [List.append_assoc, List.append_assoc, front, passedOnAll_append, back,
    ← passedOnAll_append]

theorem annotated (x : Binding) (vars : List VarInfo) : PassAlike [x.annotated vars] [x] :=
  fun onHeap before rest => by
    rw [List.singleton_append, List.singleton_append, passedOnAll, passedOnAll, passedOn_annotated,
      bound_annotated]

/-- Definitions pass on what is inside of their values. -/
theorem of_definitions (xs ys : List Binding) (inXs : ∀ x ∈ xs, x.pattern? = none)
    (inYs : ∀ y ∈ ys, y.pattern? = none) (same : xs.flatMap innerCalls = ys.flatMap innerCalls) :
    PassAlike xs ys := fun onHeap before rest => by
  rw [passedOnAll_definitions inXs, passedOnAll_definitions inYs, same]

end PassAlike

end Binding

/-- The operands of a lowered call are those of the abstract one, but for new variables and for
parts without calls. -/
theorem DpsCall.Step.passAlike {x : Binding} {b b' : Builder} (step : DpsCall.Step x b b') :
    ∃ ys, b'.bindings = b.bindings ++ ys ∧ Binding.PassAlike ys [x] := by
  cases step with
  | kept _ => exact ⟨_, Builder.bindings_append .., .annotated x b.vars⟩
  | @split v head args elem call is callee read =>
      subst is
      obtain rfl := ofArgs_eq_ok read
      refine ⟨_, (Builder.bindings_emitNamed ..).trans ((congrArg (· ++ _)
        (Builder.bindings_append ..)).trans (List.append_assoc ..)), ?_⟩
      refine .of_definitions _ _ ?_ ?_ ?_
      · simp [Binding.pattern?]
      · simp [Binding.pattern?]
      · simp [Binding.innerCalls_define, Expr.innerCalls_annotate, Expr.ofOp, Expr.ofCallee,
          Expr.innerCalls_call, Expr.calls_tuple]

theorem StorageTarget.Step.passAlike {target : StorageTarget} {x : Binding} {b b' : Builder}
    (step : target.Step x b b') :
    ∃ ys, b'.bindings = b.bindings ++ ys ∧ Binding.PassAlike ys [x] := by
  cases step with
  | kept _ _ => exact ⟨_, Builder.bindings_append .., .annotated x b.vars⟩
  | @placed v head args shape elem vars is callee read =>
      subst is
      obtain ⟨rfl, -⟩ := allocation_eq_ok read
      refine ⟨_, (Builder.bindings_append ..).trans ((congrArg (· ++ _)
        (Builder.bindings_emitNamed ..)).trans (List.append_assoc ..)), ?_⟩
      refine .of_definitions _ _ ?_ ?_ ?_
      · simp [Binding.pattern?]
      · simp [Binding.pattern?]
      · simp [Binding.innerCalls_define, Expr.innerCalls_annotate, Expr.ofOp, Expr.innerCalls_call]
  | @direct v head args call is callee read =>
      subst is
      obtain ⟨kernel, inputs, out, rfl, rfl⟩ := directCall_eq_ok read
      refine ⟨_, Builder.bindings_append .., .of_definitions _ _ ?_ ?_ ?_⟩
      · simp [Binding.pattern?]
      · simp [Binding.pattern?]
      · simp [Binding.innerCalls_define, Expr.innerCalls_annotate, Expr.ofCallee,
          Expr.innerCalls_call, Expr.calls_tuple]

namespace Function

variable {f g : Function} {target : StorageTarget}

/-- Parameters and what is recorded of them is what binds dimension variables before a binding. -/
theorem boundBefore_of_extends (grown : g.Extends f) (wellScoped : f.Scoped) :
    g.boundBefore 0 = f.boundBefore 0 := by
  have same : ∀ v ∈ f.params, g.paramArrival? v = f.paramArrival? v := fun v param => by
    obtain ⟨more, vars⟩ := grown.vars
    have allocated := wellScoped.definitions v (List.mem_append_left _ param)
    rw [paramArrival?, paramArrival?, ← vars, List.getElem?_append_left allocated]
  rw [boundBefore, boundBefore, grown.params, List.filterMap_congr same]
  rfl

/-- A pass that emits for each binding what passes on the same calls. -/
theorem passedOn_of_replaceBindings {emit : Nat → Binding → Builder → Lowered Builder}
    (wellScoped : f.Scoped) (grown : g.Extends f)
    (step : ∀ {position x b b'}, emit position x b = .ok b' →
      ∃ ys, b'.bindings = b.bindings ++ ys ∧ Binding.PassAlike ys [x])
    (replaced : f.replaceBindings emit = .ok g) (onHeap : Bool) :
    g.passedOn onHeap g.bindings = f.passedOn onHeap f.bindings := by
  let invariant : List Binding → Builder → Prop := fun done b => Binding.PassAlike b.bindings done
  obtain ⟨b, alike, finished⟩ : ∃ b, invariant f.bindings b ∧ b.finish f.body = .ok g := by
    refine replaceBindings_invariant (fun {done x rest position b b'} _ before emitted => ?_)
      (fun {done b b'} bindings _ _ before => ?_) (.refl []) replaced
    · obtain ⟨ys, bindings, alike⟩ := step emitted
      show Binding.PassAlike b'.bindings _
      rw [bindings]
      exact before.append alike
    · show Binding.PassAlike b'.bindings _
      rw [bindings]
      exact before
  obtain ⟨bindings, body, -⟩ := Builder.finish_eq_ok finished
  have same := alike onHeap (f.boundBefore 0) []
  rw [List.append_nil, List.append_nil] at same
  rw [passedOn, passedOn, boundBefore_of_extends grown wellScoped, bindings, same, body]

theorem passedOn_of_allocateOutputs (wellScoped : f.Scoped) (h : f.allocateOutputs = .ok g)
    (onHeap : Bool) : g.passedOn onHeap g.bindings = f.passedOn onHeap f.bindings := by
  have grown := extends_of_finish
    ((Builder.kept_extends f).allocateOutputs (Builder.extends_reopen f) h)
  exact passedOn_of_replaceBindings wellScoped grown
    (fun emitted => (DpsCall.step_of_emitted emitted).passAlike) h onHeap

theorem passedOn_of_placeTensors (wellScoped : f.Scoped) (h : f.placeTensors target = .ok g)
    (onHeap : Bool) : g.passedOn onHeap g.bindings = f.passedOn onHeap f.bindings := by
  have grown := extends_of_finish
    ((Builder.kept_extends f).placeTensors (Builder.extends_reopen f) h)
  exact passedOn_of_replaceBindings wellScoped grown
    (fun emitted => (StorageTarget.step_of_emitted emitted).passAlike) h onHeap

/-- A pass that renames passes on the same calls under other names. -/
theorem passedOn_renamed {r : Var → Var} {xs ys : List Binding} (grown : g.Extends f)
    (wellScoped : f.Scoped) (renamed : RenamedBy r xs ys) (body : g.body = f.body.rename r)
    (onHeap : Bool) : g.passedOn onHeap ys = (f.passedOn onHeap xs).map (CallNode.rename r) := by
  rw [passedOn, passedOn, boundBefore_of_extends grown wellScoped, renamed.passedOnAll, body,
    Expr.calls_rename, List.map_append]

/-- Fusion and demotion keep variables apart, and pass on the calls under their new names. -/
theorem passedOn_of_renaming (wellFormed : f.check = .ok ()) (fusing : f.fuse = .ok g)
    {h : Function} (demoting : g.demote = .ok h) :
    ∃ r : Var → Var, Set.InjOn r {v | v ∈ f.defined} ∧ ∀ onHeap,
      h.passedOn onHeap h.bindings =
        (f.passedOn onHeap f.fusedForms).map (CallNode.rename r) := by
  have ofFusion := extends_of_finish
    ((Builder.kept_extends f).fuse (Builder.extends_reopen f) fusing)
  have ofDemotion := extends_of_finish
    ((Builder.kept_extends g).demote (Builder.extends_reopen g) demoting)
  have checked := check_of_fuse fusing
  obtain ⟨r, demotes⟩ := demotesTo_of_demote checked demoting
  have distinct := (scoped_of_check (check_of_demote demoting)).nodup
  obtain rfl := fuse_eq wellFormed fusing
  rw [demotes.defined, (rewrites_fused (wellFormed_of_check wellFormed)).defined,
    List.map_map] at distinct
  refine ⟨r ∘ f.fusedVar, fun v hv w hw => List.inj_on_of_nodup_map distinct hv hw,
    fun onHeap => ?_⟩
  rw [passedOn_renamed ofDemotion (scoped_of_check checked) demotes.bindings demotes.body,
    passedOn_renamed ofFusion (scoped_of_check wellFormed) (renamedBy_fused f) rfl, List.map_map]
  exact List.map_congr_left fun node _ => CallNode.rename_rename node

end Function

/-! ### Shape lowering -/

namespace Cursor

variable {f g : Function} {c c' : Cursor} {e : Event} {events : List Event} {bs : List Binding}
  {b : Binding}

theorem arrive?_loads {value : Expr} {a : Arrival} (h : c.arrive? value = some (c', a)) :
    c'.loads = c.loads := by
  rw [arrive?] at h
  split at h
  · split at h
    · cases h
      rfl
    · cases h
  · cases h

/-- Only a load makes a variable known as one that names a load. -/
theorem loads_of_readCall {w : Var} {callee : Callee} {attrs : Attrs} {args : List Expr}
    (h : c.readCall w callee attrs args = some (c', e)) :
    c'.loads = c.loads ∨ callee = .op .vmLoadShape ∧ ∃ s, c'.loads = (w, s) :: c.loads := by
  unfold readCall at h
  split at h
  · split at h
    · obtain ⟨⟨c₁, a⟩, arrived, same⟩ := Option.map_eq_some_iff.1 h
      cases same
      have loads := arrive?_loads arrived
      exact .inl loads
    · split at h
      · unfold readAlloc at h
        split at h <;> cases h
        exact .inl rfl
      · cases h
  · split at h
    · rw [readStore] at h
      split at h
      · cases h
        exact .inl rfl
      · obtain ⟨⟨c₁, a⟩, arrived, same⟩ := Option.map_eq_some_iff.1 h
        cases same
        exact .inl (arrive?_loads arrived)
    · cases h
  · split at h <;> cases h
    exact .inl rfl
  · split at h
    · next s rest _ =>
        split at h <;> cases h
        exact .inr ⟨rfl, s, rfl⟩
    · cases h
  · cases h

theorem loads_of_read (h : c.read f.vars.length b = some (c', e)) (mem : b ∈ g.bindings)
    (loaded : ∀ p ∈ c.loads, f.Loads g p.1) : ∀ p ∈ c'.loads, f.Loads g p.1 := by
  cases b with
  | matchShape _ _ _ => cases h
  | define v value =>
      rw [read] at h
      split at h
      · cases h
        exact loaded
      · next new =>
          cases value with
          | call head args =>
              rcases loads_of_readCall h with same | ⟨callee, s, same⟩
              · rwa [same]
              · rw [same, List.forall_mem_cons]
                exact ⟨⟨new, head, args, mem, callee⟩, loaded⟩
          | var _ | shape _ | tuple _ | item _ _ | const _ | external _ | global _ => cases h

theorem isAbstract_of_inserted {callee : Callee} (inserted : Inserted e callee) (attrs : Attrs)
    (args : List Expr) : (CallNode.mk callee attrs args).isAbstract = false := by
  cases inserted <;> rfl

/-- No call that lowering has made is an abstract one. -/
theorem filter_ownCalls (h : c.read f.vars.length b = some (c', e)) :
    (b.ownCalls f.vars.length).filter CallNode.isAbstract =
      b.value.calls.filter CallNode.isAbstract := by
  cases b with
  | matchShape _ _ _ => cases h
  | define v value =>
      rw [read] at h
      rw [Binding.ownCalls, Binding.value]
      split at h
      · next old => rw [if_pos old]
      · next new =>
          rw [if_neg new]
          cases value with
          | call head args =>
              have concrete := isAbstract_of_inserted (readCall_eq_some h).1 head.attrs args
              rw [Expr.calls_call, List.dropLast_concat, List.filter_append,
                List.filter_singleton, concrete, cond_false, List.append_nil]
          | var _ | shape _ | tuple _ | item _ _ | const _ | external _ | global _ => cases h

theorem fills_restored {loads : List (Var × Shape)} (loaded : ∀ p ∈ loads, f.Loads g p.1)
    (nodes : List CallNode) :
    List.Forall₂ (f.Fills g) (nodes.map (CallNode.restore loads)) nodes :=
  List.forall₂_map_left_iff.2 (List.forall₂_same.2 fun _ _ => ⟨loads, loaded, rfl⟩)

/-- The abstract calls of what is read are those that lowering has not made, one by one. -/
theorem fills_of_readAll (h : c.readAll f.vars.length bs = some (c', events))
    (inside : ∀ b ∈ bs, b ∈ g.bindings) (loaded : ∀ p ∈ c.loads, f.Loads g p.1) :
    (∀ p ∈ c'.loads, f.Loads g p.1) ∧
      List.Forall₂ (f.Fills g) (((c.ownCalls f bs).map Prod.snd).filter CallNode.isAbstract)
        ((bs.flatMap fun b => b.value.calls).filter CallNode.isAbstract) := by
  induction bs generalizing c events with
  | nil =>
      cases h
      exact ⟨loaded, .nil⟩
  | cons b bs ih =>
      rw [readAll] at h
      split at h
      · cases h
      · next mid e read =>
          obtain ⟨⟨last, rest⟩, tail, same⟩ := Option.map_eq_some_iff.1 h
          cases same
          obtain ⟨here, others⟩ := List.forall_mem_cons.1 inside
          obtain ⟨loadedLast, later⟩ := ih tail others (loads_of_read read here loaded)
          refine ⟨loadedLast, ?_⟩
          have own : ((b.ownCalls f.vars.length).map fun call =>
              (f.source? e, call.restore c.loads)).map Prod.snd =
              (b.ownCalls f.vars.length).map (CallNode.restore c.loads) := List.map_map
          rw [ownCalls, read, List.map_append, List.filter_append, List.flatMap_cons,
            List.filter_append, own, CallNode.filter_restore, ← filter_ownCalls read]
          exact List.rel_append (fills_restored loaded _) later

end Cursor

namespace Binding

variable {x : Binding}

/-- No abstract operator is called by the whole value of the binding. -/
def NoWhole (x : Binding) : Prop := ∀ op ∈ [Op.callDps, .allocTensor, .callPacked], ¬ x.Invokes op

theorem filter_calls {v : Var} {e : Expr} (noWhole : (define v e).NoWhole) :
    e.calls.filter CallNode.isAbstract = e.innerCalls.filter CallNode.isAbstract := by
  rw [Expr.calls_eq_inner, List.filter_append]
  cases e with
  | call head args =>
      have concrete : (CallNode.mk head.callee head.attrs args).isAbstract = false := by
        refine decide_eq_false fun mem => ?_
        have isOp (op : Op) (abstract : op ∈ [Op.callDps, .allocTensor, .callPacked])
            (callee : head.callee = .op op) : False :=
          noWhole op abstract ⟨v, head, args, rfl, callee⟩
        simp only [List.mem_cons, List.not_mem_nil, or_false] at mem
        rcases mem with callee | callee | callee <;> exact isOp _ (by decide) callee
      rw [Expr.callNode?, Option.toList_some, List.filter_singleton, concrete, cond_false,
        List.append_nil]
  | var _ | shape _ | tuple _ | item _ _ | const _ | external _ | global _ =>
      exact List.append_nil _

end Binding

namespace Function

variable {f g : Function} {c : Cursor} {events : List Event}

theorem fills_of_loweredCalls (reads : f.ReadsAs g c events) :
    List.Forall₂ (f.Fills g) (((f.loweredCalls g c).map Prod.snd).filter CallNode.isAbstract)
      (g.calls.filter CallNode.isAbstract) := by
  obtain ⟨loaded, ofBindings⟩ :=
    Cursor.fills_of_readAll reads.trace (fun _ mem => mem) (List.forall_mem_nil _)
  have ofBody : (g.body.calls.map fun call => ((none : Option Source), call.restore c.loads)).map
      Prod.snd = g.body.calls.map (CallNode.restore c.loads) := List.map_map
  rw [loweredCalls, calls, List.map_append, List.filter_append, List.filter_append, ofBody,
    CallNode.filter_restore]
  exact List.rel_append ofBindings (Cursor.fills_restored loaded _)

theorem boundBefore_append {done rest : List Binding} (split : f.bindings = done ++ rest) :
    f.boundBefore done.length = f.boundBefore 0 ++ done.flatMap Binding.bound := by
  rw [boundBefore, boundBefore, split, List.take_left, List.take_zero]
  exact congrArg (· ++ _) (List.append_nil _).symm

/-- The calls of a lowered form without where they come from. -/
theorem unmarked_loweredCalls {layout : HeapLayout} {shapeFunction : Option String} {size : Shape}
    {last : Stage} (wellScoped : f.Scoped) (reads : f.ReadsAs g c (.alloc size :: events))
    (performed : Performed layout shapeFunction {} f.tasks events last) :
    (f.loweredCalls g c).map Prod.snd =
      (f.bindings.zipIdx.flatMap fun p =>
        (List.replicate (f.copies p.2 p.1) p.1.value.calls).flatten) ++ f.body.calls := by
  have unmarked (source : Option Source) (nodes : List CallNode) :
      (nodes.map (source, ·)).map Prod.snd = nodes :=
    List.map_map.trans (List.map_id nodes)
  rw [loweredCalls_eq wellScoped reads performed, List.map_append, List.map_flatMap, unmarked]
  exact congrArg (· ++ _) (List.flatMap_congr fun _ _ => unmarked ..)

/-- Where shapes are put on a heap, bindings pass on the abstract calls of their values as often as
these are emitted. -/
theorem filter_emitted {done xs : List Binding} (split : f.bindings = done ++ xs)
    (noWhole : ∀ x ∈ xs, x.NoWhole) :
    ((xs.zipIdx done.length).flatMap fun p =>
        (List.replicate (f.copies p.2 p.1) p.1.value.calls).flatten).filter CallNode.isAbstract =
      (Binding.passedOnAll true (f.boundBefore done.length) xs).filter CallNode.isAbstract := by
  induction xs generalizing done with
  | nil => rfl
  | cons x xs ih =>
      obtain ⟨here, others⟩ := List.forall_mem_cons.1 noWhole
      have split' : f.bindings = (done ++ [x]) ++ xs := by
        rw [List.append_assoc]
        exact split
      have next := ih split' others
      rw [boundBefore_append split', List.flatMap_append, List.flatMap_singleton,
        ← List.append_assoc, ← boundBefore_append split, List.length_append] at next
      rw [List.zipIdx_cons, List.flatMap_cons, List.filter_append, Binding.passedOnAll,
        List.filter_append]
      refine congrArg₂ _ ?_ next
      cases x with
      | matchShape v? e pattern => rfl
      | define v e =>
          show List.filter _ (List.replicate 1 e.calls).flatten = _
          rw [List.replicate_one, List.flatten_singleton]
          exact Binding.filter_calls here

/-- Where shapes stay as they are, values are emitted once. -/
theorem filter_calls_bindings {xs : List Binding} {before : List DimVar}
    (noWhole : ∀ x ∈ xs, x.NoWhole) :
    (xs.flatMap fun x => x.value.calls).filter CallNode.isAbstract =
      (Binding.passedOnAll false before xs).filter CallNode.isAbstract := by
  induction xs generalizing before with
  | nil => rfl
  | cons x xs ih =>
      obtain ⟨here, others⟩ := List.forall_mem_cons.1 noWhole
      rw [List.flatMap_cons, List.filter_append, Binding.passedOnAll, List.filter_append, ih others]
      refine congrArg (· ++ _) ?_
      cases x with
      | matchShape v? e pattern =>
          exact congrArg (List.filter _) (List.append_nil _).symm
      | define v e => exact Binding.filter_calls here

/-- Shape lowering emits the abstract calls that a function passes on, with loads in the place of
shapes, and no other ones. -/
theorem fills_of_lowerFunction {base : String} {taken : List String}
    {needed : Option HeapFunction} (wellFormed : f.check = .ok ())
    (noWhole : ∀ x ∈ f.bindings, x.NoWhole)
    (lowered : ShapeHeap.lowerFunction base taken f = .ok (g, needed)) :
    List.Forall₂ (f.Fills g)
      ((f.passedOn (f.symbolicShapes ≠ []) f.bindings).filter CallNode.isAbstract)
      (g.calls.filter CallNode.isAbstract) := by
  by_cases symbolic : f.symbolicShapes = []
  · rw [ShapeHeap.lowerFunction, symbolic] at lowered
    cases lowered
    have literal : decide (f.symbolicShapes ≠ []) = false :=
      decide_eq_false (not_not_intro symbolic)
    rw [literal, passedOn, List.filter_append, ← filter_calls_bindings noWhole, calls,
      List.filter_append]
    exact List.forall₂_same.2 fun call _ => ⟨[], List.forall_mem_nil _, call.restore_nil⟩
  · obtain ⟨-, shapeFunction, lowering, -⟩ := ShapeHeap.lowerFunction_eq_ok symbolic lowered
    have wellScoped := scoped_of_check wellFormed
    obtain ⟨c, events, last, reads, performed⟩ := ShapeHeap.readsAs_lower wellScoped lowering
    have onHeap : decide (f.symbolicShapes ≠ []) = true := decide_eq_true symbolic
    have emitted := fills_of_loweredCalls reads
    rw [unmarked_loweredCalls wellScoped reads performed, List.filter_append] at emitted
    rw [onHeap, passedOn, List.filter_append]
    exact (filter_emitted (List.nil_append f.bindings).symm noWhole) ▸ emitted

end Function

namespace Pipeline

variable {config : Config} {m m' : Module} {key : String} {g : Function}

/-- The abstract calls in an output of the standard pipeline are those that the function from before
passes on, in the same order and number, under one renaming that keeps variables apart and with
loads in the place of shapes. The other ones, whole values of definitions, have all been lowered.
Shapes are put on a heap if any is symbolic when the last pass comes to the function. -/
theorem standard_operators (wellFormed : ∀ f ∈ m.functions, f.check = .ok ())
    (h : (standard config).run m = .ok m') (found : m'.get? key = some (.function g)) :
    ∃ f m₄ f₄, m.get? key = some (.function f) ∧ (beforeHeaps config).run m = .ok m₄ ∧
      m₄.get? key = some (.function f₄) ∧
      ∃ r : Var → Var, Set.InjOn r {v | v ∈ f.defined} ∧
        List.Forall₂ (f₄.Fills g)
          (((f.passedOn (f₄.symbolicShapes ≠ []) f.fusedForms).filter CallNode.isAbstract).map
            (CallNode.rename r))
          (g.calls.filter CallNode.isAbstract) := by
  obtain ⟨m₄, before, lowered⟩ := standard_split h
  obtain ⟨m₁, m₂, m₃, fused, demoted, allocated, placed⟩ := beforeHeaps_eq_ok before
  obtain ⟨f₄, taken, needed, found₄, lowering⟩ := Module.get?_of_heapShapes lowered found
  obtain ⟨f₃, found₃, placing⟩ := Module.get?_of_mapFunctions placed found₄
  obtain ⟨f₂, found₂, allocating⟩ := Module.get?_of_mapFunctions allocated found₃
  obtain ⟨f₁, found₁, demoting⟩ := Module.get?_of_mapFunctions demoted found₂
  obtain ⟨f, there, fusing⟩ := Module.get?_of_mapFunctions fused found₁
  have check := wellFormed f (Module.mem_functions.2 ⟨key, there⟩)
  have check₂ := Function.check_of_demote demoting
  have check₃ := Function.check_of_replaceBindings allocating
  obtain ⟨r, apart, renamed⟩ := Function.passedOn_of_renaming check fusing demoting
  refine ⟨f, m₄, f₄, there, before, found₄, r, apart, ?_⟩
  have same (onHeap : Bool) : f₄.passedOn onHeap f₄.bindings =
      (f.passedOn onHeap f.fusedForms).map (CallNode.rename r) := by
    rw [Function.passedOn_of_placeTensors (Function.scoped_of_check check₃) placing,
      Function.passedOn_of_allocateOutputs (Function.scoped_of_check check₂) allocating, renamed]
  have noWhole (x : Binding) (mem : x ∈ f₄.bindings) : x.NoWhole := fun op abstract =>
    Function.not_invokes_of_placeTensors (Function.not_invokes_of_allocateOutputs allocating)
      placing abstract x mem
  have filled := Function.fills_of_lowerFunction (Function.check_of_replaceBindings placing)
    noWhole lowering
  rwa [same, CallNode.filter_rename] at filled

/-- A function with abstract calls in all places: as whole values of definitions, in the value of a
matched shape that binds a dimension variable and has a name, and in the body:

    a = call_dps((4,), extern("f"), (x,))
    b = call_dps((4,), extern("g"), (a,))
    y = match_shape(call_dps((4,), extern("h"), (b,)), (n,))
    (y, call_dps((n,), extern("k"), (y,)))
-/
def partlyLowered : Function where
  name := "main"
  params := [⟨0⟩]
  blocks := [⟨.plain, [
    .define ⟨1⟩ (.ofOp .callDps [.shape [.int 4], .external "f", .tuple [.var ⟨0⟩]]),
    .define ⟨2⟩ (.ofOp .callDps [.shape [.int 4], .external "g", .tuple [.var ⟨1⟩]]),
    .matchShape (some ⟨3⟩)
      (.ofOp .callDps [.shape [.int 4], .external "h", .tuple [.var ⟨2⟩]]) [.var ⟨0⟩]]⟩]
  body := .tuple [.var ⟨3⟩,
    .ofOp .callDps [.shape [.var ⟨0⟩], .external "k", .tuple [.var ⟨3⟩]]]
  retTy := none
  vars := [⟨"x", .plain, none, none⟩, ⟨"a", .plain, none, none⟩, ⟨"b", .plain, none, none⟩,
    ⟨"y", .plain, none, none⟩]
  dimNames := ["n"]

/-- The module of this function alone. -/
def partlyLoweredModule : Module := .ofEntries [("main", .function partlyLowered)]

/-- What it passes on of its four abstract calls: that of the matched shape twice, and that of the
body. -/
def abstractRest : List CallNode :=
  [⟨.op .callDps, .none, [.shape [.int 4], .external "h", .tuple [.var ⟨2⟩]]⟩,
    ⟨.op .callDps, .none, [.shape [.int 4], .external "h", .tuple [.var ⟨2⟩]]⟩,
    ⟨.op .callDps, .none, [.shape [.var ⟨0⟩], .external "k", .tuple [.var ⟨3⟩]]⟩]

theorem standard_operators_partlyLowered :
    ∃ m' g m₄ f₄, (∀ f ∈ partlyLoweredModule.functions, f.check = .ok ()) ∧
      (standard {}).run partlyLoweredModule = .ok m' ∧ m'.get? "main" = some (.function g) ∧
      (beforeHeaps {}).run partlyLoweredModule = .ok m₄ ∧ m₄.get? "main" = some (.function f₄) ∧
      (partlyLowered.calls.filter CallNode.isAbstract).length = 4 ∧
      ∃ r : Var → Var, Set.InjOn r {v | v ∈ partlyLowered.defined} ∧
        List.Forall₂ (f₄.Fills g) (abstractRest.map (CallNode.rename r))
          (g.calls.filter CallNode.isAbstract) := by
  have wellFormed : ∀ f ∈ partlyLoweredModule.functions, f.check = .ok () := by decide +kernel
  obtain ⟨m', g, ran, found⟩ : ∃ m' g, (standard {}).run partlyLoweredModule = .ok m' ∧
      m'.get? "main" = some (.function g) := Module.exists_function (by decide +kernel)
  obtain ⟨f, m₄, f₄, there, before, found₄, r, apart, filled⟩ :=
    standard_operators wellFormed ran found
  cases there.symm.trans
    (by decide +kernel : partlyLoweredModule.get? "main" = some (.function partlyLowered))
  have symbolic : (((beforeHeaps {}).run partlyLoweredModule).toOption.bind fun m₄ =>
      m₄.function? "main").any (fun f₄ => decide (f₄.symbolicShapes ≠ [])) = true := by
    decide +kernel
  obtain ⟨m₅, f₅, before', found₅, symbolic⟩ := Module.exists_function_with _ symbolic
  cases before.symm.trans before'
  cases found₄.symm.trans found₅
  have passed : (partlyLowered.passedOn true partlyLowered.fusedForms).filter CallNode.isAbstract =
      abstractRest := by decide +kernel
  rw [symbolic, passed] at filled
  exact ⟨m', g, m₄, f₄, wellFormed, ran, found, before, found₄, by decide +kernel, r, apart, filled⟩

/-- A function with a call in destination-passing style in its body, where no pass looks for it:

    call_dps((4,), extern("f"), (x,))
-/
def passedThrough : Function where
  name := "main"
  params := [⟨0⟩]
  blocks := []
  body := .ofOp .callDps [.shape [.int 4], .external "f", .tuple [.var ⟨0⟩]]
  retTy := none
  vars := [⟨"x", .plain, none, none⟩]
  dimNames := []

/-- The module of this function alone. -/
def passedThroughModule : Module := .ofEntries [("main", .function passedThrough)]

/-- The call is in the output of the standard pipeline as it was. -/
theorem passedThrough_output :
    (∀ f ∈ passedThroughModule.functions, f.check = .ok ()) ∧
      ∃ m' g, (standard {}).run passedThroughModule = .ok m' ∧
        m'.get? "main" = some (.function g) ∧ .op .callDps ∈ g.calls.map CallNode.callee := by
  refine ⟨by decide +kernel, ?_⟩
  have called : (((standard {}).run passedThroughModule).toOption.bind fun m' =>
      m'.function? "main").any
        (fun g => decide (.op .callDps ∈ g.calls.map CallNode.callee)) = true := by
    decide +kernel
  obtain ⟨m', g, ran, found, called⟩ := Module.exists_function_with _ called
  exact ⟨m', g, ran, found, of_decide_eq_true called⟩

end Pipeline

end TensorIR
