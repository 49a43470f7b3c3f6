import Mathlib.Data.List.ReduceOption
import TensorIR.Proofs.Driving
import TensorIR.Proofs.Scoping
import TensorIR.Proofs.ShapeHeap.Correctness

/-!
# Generated names are unique

Lowering a module appends the heap functions that it generates, under names that lead to them and to
nothing else, and each lowered function calls the one that was generated for it. Nothing is assumed
of the functions, which may be ill formed, so lowered forms are not read back here. Two facts about
the calls that lowering adds carry the argument, and both are invariants of its operations
(`ShapeHeap.Adding`). Every variable that is new is defined by what lowering has emitted itself, and
that calls no function but the generated one. And where a computed dimension is current, the
generated one has been called. The lowered form is well formed, so it does not define a new variable
twice, and nothing that the function had emitted itself can pass for an added call.
-/

namespace TensorIR

/-- The binding defines a variable that the function does not have, by a call of the function of
that name. -/
def Binding.CallsAnew (f : Function) (name : String) (x : Binding) : Prop :=
  ∃ v head args, x = .define v (.call head args) ∧ head.callee = .global name ∧ ¬ f.Allocates v

/-- `g` calls the function of that name for a variable that `f` does not have. -/
def Function.CallsAnew (f g : Function) (name : String) : Prop :=
  ∃ x ∈ g.bindings, x.CallsAnew f name

namespace ShapeHeap

variable {cx : Context} {st st' : State} {name : String} {s : Shape} {v : Var} {e : Expr}

/-- The generated function has been called. -/
def Called (cx : Context) (b : Builder) : Prop :=
  ∀ name ∈ cx.shapeFunction, ∃ x ∈ b.bindings, x.CallsAnew cx.function name

/-- Of functions the value calls the generated one only. -/
def Foreign (cx : Context) (value : Expr) : Prop :=
  ∀ head args name, value = .call head args → head.callee = .global name →
    cx.shapeFunction = some name

/-- Lowering has defined every variable that it has added, so that no call of a function but the
generated one is among them, and that one has been called where computed dimensions are current. -/
structure Adding (cx : Context) (st : State) : Prop where
  grown : cx.function.vars.length ≤ st.builder.vars.length
  added : ∀ v, ¬ cx.function.Allocates v → v.index < st.builder.vars.length →
    ∃ value, .define v value ∈ st.builder.bindings ∧ Foreign cx value
  called : st.current ≠ [] → Called cx st.builder

/-! ### Operations -/

theorem Called.grow {b b' : Builder} (h : Called cx b) (grown : b.bindings ⊆ b'.bindings) :
    Called cx b' := by
  intro name generated
  obtain ⟨x, mem, calls⟩ := h name generated
  exact ⟨x, grown mem, calls⟩

theorem kept_called (cx : Context) : Builder.Kept (Called cx) where
  push h pushed := by
    rw [Builder.push_eq_ok_append pushed]
    exact h.grow (by simp)
  fresh _ h := h
  emitNamed name value h := h.grow (by simp)
  openRegion h opened := by
    obtain ⟨bindings, -⟩ := Builder.openRegion_eq_ok opened
    exact h.grow (by simp [bindings])
  closeRegion h _ := h.grow (by simp)
  sealBlock h := h.grow (by simp)

theorem Foreign.annotate {value : Expr} (h : Foreign cx value) (vars : List VarInfo) :
    Foreign cx (value.annotate vars) := by
  intro head args name is callee
  cases value with
  | call _ _ =>
      cases is
      exact h _ _ name rfl callee
  | var _ | shape _ | tuple _ | item _ _ | const _ | external _ | global _ => cases is

theorem foreign_ofOp (op : Op) (args : List Expr) (attrs : Attrs) :
    Foreign cx (.ofOp op args attrs) := by
  rintro head args name ⟨⟩ ⟨⟩

theorem foreign_external (symbol : String) (args : List Expr) :
    Foreign cx (.ofCallee (.external symbol) args) := by
  rintro head args name ⟨⟩ ⟨⟩

namespace Adding

theorem emit (h : Adding cx st) (n : String) {call : Expr} (foreign : Foreign cx call) :
    Adding cx (st.emit n call).1 := by
  refine ⟨?_, fun v new allocated => ?_,
    fun current => (h.called current).grow (by simp [State.emit])⟩
  · have := h.grown
    simp only [State.emit, Builder.length_vars_emitNamed]
    omega
  · simp only [State.emit, Builder.length_vars_emitNamed, Builder.bindings_emitNamed] at allocated ⊢
    by_cases old : v.index < st.builder.vars.length
    · obtain ⟨value, mem, foreign⟩ := h.added v new old
      exact ⟨value, List.mem_append_left _ mem, foreign⟩
    · obtain rfl : v = ⟨st.builder.vars.length⟩ :=
        congrArg Var.mk (Nat.le_antisymm (Nat.le_of_lt_succ allocated) (Nat.not_lt.1 old))
      exact ⟨_, List.mem_append_right _ (List.mem_singleton_self _), foreign.annotate _⟩

theorem sealBlock (h : Adding cx st) : Adding cx { st with builder := st.builder.sealBlock } := by
  refine ⟨?_, ?_, fun current => (kept_called cx).sealBlock (h.called current)⟩
  · simpa using h.grown
  · simpa using h.added

theorem bind (h : Adding cx st) {value : Expr} (bound : st.bind cx v value = .ok st') :
    Adding cx st' := by
  obtain ⟨b, built, same⟩ := bind_eq_ok.1 bound
  cases same
  have built := building_eq_ok.1 built
  refine ⟨?_, fun u new allocated => ?_,
    fun current => (kept_called cx).bind (h.called current) built⟩
  · rw [Builder.bind_eq_ok_append built]
    exact h.grown
  · rw [Builder.bind_eq_ok_append built] at allocated ⊢
    obtain ⟨value', mem, foreign⟩ := h.added u new allocated
    exact ⟨value', by simp [mem], foreign⟩

theorem refresh_eq (generated : cx.shapeFunction = some name) : st.refresh cx =
    { (({ st with builder := st.builder.sealBlock } : State).emit "_"
        (.ofCallee (.global name) [.var cx.heap])).1 with
      current := cx.layout.computed.filter (ready st.stored) } := by
  rw [State.refresh, generated]
  rfl

/-- The call of the generated function is for a new variable. -/
theorem called_refresh (h : Adding cx st) : Called cx (st.refresh cx).builder := by
  intro name generated
  rw [refresh_eq generated]
  simp only [State.emit, Builder.bindings_emitNamed]
  refine ⟨_, List.mem_append_right _ (List.mem_singleton_self _), _, _, _, rfl, rfl, ?_⟩
  exact Nat.not_lt.2 h.sealBlock.grown

theorem refresh (h : Adding cx st) : Adding cx (st.refresh cx) := by
  cases generated : cx.shapeFunction with
  | none =>
      rw [State.refresh, generated]
      exact h
  | some name =>
      have called := h.called_refresh
      rw [refresh_eq generated] at called ⊢
      have foreign : Foreign cx (.ofCallee (.global name) [.var cx.heap]) := by
        rintro head args name' ⟨⟩ ⟨⟩
        exact generated
      obtain ⟨grown, added, -⟩ := h.sealBlock.emit "_" foreign
      exact ⟨grown, added, fun _ => called⟩

/-- Where a computed dimension is loaded, the generated function has been called. -/
theorem load (h : Adding cx st) (loaded : st.load cx s = .ok (st', v)) :
    Adding cx st' ∧ ((∃ d ∈ s, d.asVar? = none) → Called cx st'.builder) := by
  rw [State.load] at loaded
  split at loaded
  · obtain ⟨_, _, thrown⟩ := bind_eq_ok.1 loaded
    cases thrown
  · cases loaded
    refine ⟨emit ?_ _ (foreign_ofOp _ _ _), fun computed => (kept_called cx).emitNamed _ _ ?_⟩
    · split
      · exact h.refresh
      · exact h
    · split
      · exact h.called_refresh
      · next fresh =>
          obtain ⟨d, mem, notVar⟩ := computed
          refine h.called (List.ne_nil_of_mem (a := d) ?_)
          by_contra absent
          refine fresh (List.any_eq_true.2 ⟨d, mem, ?_⟩)
          simp [notVar, absent]

end Adding

theorem kept_adding (cx : Context) : State.Kept cx (fun _ => True) (Adding cx) where
  query _ h := h.emit _ (foreign_external _ _)
  store _ _ h := by
    obtain ⟨grown, added, called⟩ := h.emit "_" (foreign_ofOp .vmStoreShape _ _)
    exact ⟨grown, added, called⟩
  load h loaded := (h.load loaded).1
  bind _ h bound := h.bind bound
  sealBlock h := h.sealBlock

theorem adding_start (f : Function) (layout : HeapLayout) (shapeFunction : Option String) :
    Adding ⟨f, layout, shapeFunction, (start f layout).2⟩ (start f layout).1 := by
  have opened : Adding ⟨f, layout, shapeFunction, (start f layout).2⟩
      { builder := .reopen f } :=
    ⟨Nat.le_refl _, fun v new allocated => absurd allocated new, absurd rfl⟩
  exact (opened.emit "shape_heap" (foreign_external Builtin.allocShapeHeap _)).sealBlock

/-! ### Runs -/

theorem Adding.loadAll {ss : List Shape} {vs : List Var} (h : Adding cx st)
    (loaded : State.loadAll cx ss st = .ok (st', vs))
    (computed : ∃ s ∈ ss, ∃ d ∈ s, d.asVar? = none) : Called cx st'.builder := by
  induction ss generalizing st vs with
  | nil =>
      obtain ⟨_, ⟨⟩, _⟩ := computed
  | cons s ss ih =>
      obtain ⟨⟨mid, v⟩, head, loaded⟩ := bind_eq_ok.1 loaded
      obtain ⟨⟨last, vs'⟩, tail, loaded⟩ := bind_eq_ok.1 loaded
      cases loaded
      obtain ⟨next, called⟩ := h.load head
      obtain ⟨s', mem, dims⟩ := computed
      cases mem with
      | head => exact ((kept_called cx).state cx).loadAll (called dims) tail
      | tail _ later => exact ih next tail ⟨s', later, dims⟩

theorem Adding.lowerExpr {e' : Expr} (h : Adding cx st)
    (lowered : State.lowerExpr cx e st = .ok (st', e'))
    (computed : ∃ s ∈ e.symbolicShapes, ∃ d ∈ s, d.asVar? = none) : Called cx st'.builder := by
  rw [State.lowerExpr_eq] at lowered
  obtain ⟨⟨last, vs⟩, loaded, same⟩ := bind_eq_ok.1 lowered
  cases same
  exact h.loadAll loaded computed

theorem Adding.lowerBinding {x : Binding} (h : Adding cx st)
    (lowered : st.lowerBinding cx x = .ok st')
    (computed : ∃ s ∈ x.value.symbolicShapes, ∃ d ∈ s, d.asVar? = none) :
    Called cx st'.builder := by
  have kept := (kept_called cx).state cx
  obtain ⟨-, lowered⟩ := check_bind_eq_ok.1 lowered
  obtain ⟨⟨mid, value⟩, inner, lowered⟩ := bind_eq_ok.1 lowered
  have called := h.lowerExpr inner computed
  cases x with
  | define v e => exact kept.bind trivial called lowered
  | matchShape v? e pattern =>
      have stored := kept.storePattern called value pattern
      cases v? with
      | some v => exact kept.bind trivial stored lowered
      | none =>
          cases lowered
          exact stored

section Lowered

variable {f g : Function} {layout : HeapLayout} {shapeFunction : Option String}

/-- A function with a computed dimension calls what is generated for it. -/
theorem callsAnew_of_computed (lowered : lower f layout shapeFunction = .ok g)
    (computed : ∃ s ∈ f.symbolicShapes, ∃ d ∈ s, d.asVar? = none) :
    ∀ name ∈ shapeFunction, f.CallsAnew g name := by
  let cx : Context := ⟨f, layout, shapeFunction, (start f layout).2⟩
  have adding := kept_adding cx
  have kept := (kept_called cx).state cx
  obtain ⟨st₁, params, lowered⟩ := bind_eq_ok.1 lowered
  obtain ⟨st₂, bindings, lowered⟩ := bind_eq_ok.1 lowered
  obtain ⟨⟨st₃, body⟩, ofBody, finished⟩ := bind_eq_ok.1 lowered
  have h₁ : Adding cx st₁ := foldlM_keeps (fun _ h one => adding.storeParam h one)
    (adding_start f layout shapeFunction) params
  have last : Called cx st₃.builder := by
    obtain ⟨s, mem, dims⟩ := computed
    rcases List.mem_append.1 mem with mem | inBody
    · obtain ⟨x, mem, inBinding⟩ := List.mem_flatMap.1 mem
      have h₂ : Called cx st₂.builder := foldlM_reaches (f := State.lowerBinding cx)
        (Q := fun st => Called cx st.builder) mem
        (fun h one => adding.lowerBinding h (fun _ _ => trivial) one)
        (fun h one => h.lowerBinding one ⟨s, inBinding, dims⟩)
        (fun h one => kept.lowerBinding h (fun _ _ => trivial) one) h₁ bindings
      exact kept.lowerExpr (kept.sealBlock h₂) ofBody
    · have h₂ : Adding cx st₂ := foldlM_keeps
        (fun _ h one => adding.lowerBinding h (fun _ _ => trivial) one) h₁ bindings
      exact h₂.sealBlock.lowerExpr ofBody ⟨s, inBody, dims⟩
  rw [Called, ← (Builder.finish_eq_ok (building_eq_ok.1 finished)).1] at last
  exact last

/-- The calls that lowering adds are those of what is generated. -/
theorem callsAnew_iff (lowered : lower f layout shapeFunction = .ok g)
    (computed : shapeFunction = none ∨ ∃ s ∈ f.symbolicShapes, ∃ d ∈ s, d.asVar? = none) :
    f.CallsAnew g name ↔ shapeFunction = some name := by
  constructor
  · rintro ⟨_, mem, v, head, args, rfl, callee, new⟩
    obtain ⟨st, body, adding, finished⟩ := (kept_adding _).lower (fun _ _ _ _ => trivial)
      (adding_start f layout shapeFunction) lowered
    obtain ⟨bindings, -, vars, -, checked⟩ := Builder.finish_eq_ok finished
    have wellFormed := Function.wellFormed_of_check checked
    have allocated := wellFormed.definitions v (Function.mem_defined mem rfl)
    rw [Function.Allocates, vars] at allocated
    obtain ⟨value, added, foreign⟩ := adding.added v new allocated
    rw [← bindings] at added
    cases wellFormed.toScoped.eq_of_defined mem added rfl rfl
    exact foreign head args name rfl callee
  · intro generated
    rcases computed with none | computed
    · rw [none] at generated
      cases generated
    · exact callsAnew_of_computed lowered computed name generated

/-- What is needed is what the lowered form calls. -/
theorem calls_lowerFunction {base : String} {taken : List String} {need : Option HeapFunction}
    (symbolic : f.symbolicShapes ≠ []) (lowered : lowerFunction base taken f = .ok (g, need)) :
    (need = none ↔ f.computedDims = []) ∧ (∀ fn ∈ need, fn = f.layout.heapFunction fn.name) ∧
      ∀ name, f.CallsAnew g name ↔ ∃ fn ∈ need, fn.name = name := by
  obtain ⟨-, shapeFunction, lowering, ungenerated, rfl⟩ := lowerFunction_eq_ok symbolic lowered
  have computed : shapeFunction = none ∨ ∃ s ∈ f.symbolicShapes, ∃ d ∈ s, d.asVar? = none := by
    rw [ungenerated, or_iff_not_imp_left]
    exact Function.exists_computed
  rw [Option.map_eq_none_iff]
  refine ⟨ungenerated, fun fn needed => ?_, fun name => ?_⟩
  · obtain ⟨name, -, rfl⟩ := Option.map_eq_some_iff.1 needed
    rfl
  · rw [callsAnew_iff lowering computed]
    constructor
    · rintro rfl
      exact ⟨_, rfl, rfl⟩
    · rintro ⟨fn, needed, rfl⟩
      obtain ⟨name, rfl, rfl⟩ := Option.map_eq_some_iff.1 needed
      rfl

end Lowered

/-! ### Modules -/

/-- What becomes of a definition when the given names are taken, and the heap function that it
needs. -/
inductive LowersTo (base : String) (taken : List String) :
    Item → Item → Option HeapFunction → Prop where
  | heapFunction (fn : HeapFunction) :
    LowersTo base taken (.heapFunction fn) (.heapFunction fn) none
  | function {f g needed} (lowered : lowerFunction base taken f = .ok (g, needed)) :
    LowersTo base taken (.function f) (.function g) needed

/-- The names that were given to some heap functions. -/
def namesOf (needed : List (Option HeapFunction)) : List String :=
  needed.reduceOption.map HeapFunction.name

/-- Definitions are lowered one by one, and each name that is given is taken from then on. -/
theorem lowerEntries_eq_ok {base : String} {taken : List String} {entries : List (String × Item)}
    {lowered : List (String × Item)} {generated : List HeapFunction}
    (h : lowerEntries base taken entries = .ok (lowered, generated)) :
    ∃ needed : List (Option HeapFunction), needed.length = entries.length ∧
      generated = needed.reduceOption ∧
      ∀ before key item after, entries = before ++ (key, item) :: after →
        ∃ taken' item' need, needed[before.length]? = some need ∧
          (taken ++ namesOf (needed.take before.length)).Perm taken' ∧
          LowersTo base taken' item item' need ∧ (key, item') ∈ lowered := by
  fun_induction lowerEntries base taken entries generalizing lowered generated with
  | case1 =>
      cases h
      refine ⟨[], rfl, rfl, fun before key item after split => ?_⟩
      simp at split
  | case2 taken key fn rest ih =>
      obtain ⟨⟨lowered', generated'⟩, tail, h⟩ := bind_eq_ok.1 h
      cases h
      obtain ⟨needed, length, rfl, each⟩ := ih tail
      refine ⟨none :: needed, congrArg (· + 1) length, rfl, fun before key' item after split => ?_⟩
      cases before with
      | nil =>
          cases split
          exact ⟨taken, _, none, rfl, by simp [namesOf], .heapFunction fn, List.mem_cons_self⟩
      | cons first before =>
          cases split
          obtain ⟨taken', item', need, found, same, lowers, mem⟩ := each before key' item after rfl
          exact ⟨taken', item', need, found, same, lowers, List.mem_cons_of_mem _ mem⟩
  | case3 taken key f rest ih =>
      obtain ⟨⟨g, need⟩, head, h⟩ := bind_eq_ok.1 h
      obtain ⟨⟨lowered', generated'⟩, tail, h⟩ := bind_eq_ok.1 h
      cases h
      obtain ⟨needed, length, rfl, each⟩ := ih _ tail
      refine ⟨need :: needed, congrArg (· + 1) length, ?_, fun before key' item after split => ?_⟩
      · cases need <;> rfl
      · cases before with
        | nil =>
            cases split
            exact ⟨taken, _, need, rfl, by simp [namesOf], .function head, List.mem_cons_self⟩
        | cons first before =>
            cases split
            obtain ⟨taken', item', need', found, same, lowers, mem⟩ :=
              each before key' item after rfl
            refine ⟨taken', item', need', found, ?_, lowers, List.mem_cons_of_mem _ mem⟩
            refine .trans ?_ same
            cases need with
            | none => exact .refl _
            | some fn => exact List.perm_middle

/-- What the lowered module has for a definition, when the given names are taken and the heap
function is needed. -/
structure Generates (base : String) (m' : Module) (taken : List String) (key : String) (item : Item)
    (need : Option HeapFunction) : Prop where
  /-- What has no symbolic shapes is left as it is. -/
  unchanged : (∀ f, item = .function f → f.symbolicShapes = []) →
    m'.get? key = some item ∧ need = none
  /-- The heap function has the first name that is free, and is found under it. -/
  named : ∀ fn ∈ need, FirstFree base taken fn.name ∧ m'.get? fn.name = some (.heapFunction fn)
  /-- A heap function is needed for computed dimensions, it computes those of this function, and it
  is the only one that the lowered form calls where the function did not. -/
  lowered : ∀ f, item = .function f → f.symbolicShapes ≠ [] → ∃ g,
    m'.get? key = some (.function g) ∧ (need = none ↔ f.computedDims = []) ∧
      (∀ fn ∈ need, fn = f.layout.heapFunction fn.name) ∧
      ∀ name, f.CallsAnew g name ↔ ∃ fn ∈ need, fn.name = name

theorem LowersTo.generates {base : String} {m' : Module} {taken : List String} {key : String}
    {item item' : Item} {need : Option HeapFunction} (h : LowersTo base taken item item' need)
    (kept : m'.get? key = some item')
    (found : ∀ fn ∈ need, m'.get? fn.name = some (.heapFunction fn)) :
    Generates base m' taken key item need := by
  cases h with
  | heapFunction fn =>
      exact ⟨fun _ => ⟨kept, rfl⟩, nofun, nofun⟩
  | @function f g need lowered =>
      refine ⟨fun static => ?_, ?_, ?_⟩
      · have none := static f rfl
        rw [lowerFunction, none] at lowered
        cases lowered
        exact ⟨kept, rfl⟩
      · rintro fn ⟨⟩
        refine ⟨?_, found fn rfl⟩
        rw [name_of_lowerFunction lowered]
        exact firstFree_freeName base taken
      · rintro _ ⟨⟩ symbolic
        exact ⟨g, kept, calls_lowerFunction symbolic lowered⟩

end ShapeHeap

namespace Module

variable {base : String} {m m' : Module}

/-- The names of the lowered module are those of the module and then those of the heap functions
that are generated, one for each function that needs it. They are all distinct, and each function
calls the heap function that was generated for it. -/
theorem heapShapes_names (lowered : m.heapShapes base = .ok m') :
    ∃ needed : List (Option HeapFunction), needed.length = m.entries.length ∧
      m'.names = m.names ++ ShapeHeap.namesOf needed ∧
      (ShapeHeap.namesOf needed).Nodup ∧ (∀ name ∈ ShapeHeap.namesOf needed, name ∉ m.names) ∧
      ∀ before key item after, m.entries = before ++ (key, item) :: after →
        ∃ need, needed[before.length]? = some need ∧
          ShapeHeap.Generates base m'
            (m.names ++ ShapeHeap.namesOf (needed.take before.length)) key item need := by
  obtain ⟨entries, generated, lowering, all⟩ := entries_heapShapes lowered
  obtain ⟨names, distinct, free⟩ := ShapeHeap.lowerEntries_names lowering
  obtain ⟨needed, length, rfl, each⟩ := ShapeHeap.lowerEntries_eq_ok lowering
  refine ⟨needed, length, ?_, distinct, List.forall_mem_map.2 free,
    fun before key item after split => ?_⟩
  · rw [Module.names, all, List.map_append, names, List.map_map]
    rfl
  · obtain ⟨taken, item', need, found, same, lowers, mem⟩ := each before key item after split
    have generates : ShapeHeap.Generates base m' taken key item need := by
      refine lowers.generates ?_ fun fn isNeeded => ?_
      · rw [get?_eq_some_iff, all]
        exact List.mem_append_left _ mem
      · rw [get?_eq_some_iff, all]
        refine List.mem_append_right _ (List.mem_map_of_mem (List.reduceOption_mem_iff.2 ?_))
        rw [← isNeeded]
        exact List.mem_of_getElem? found
    refine ⟨need, found, generates.unchanged, fun fn isNeeded => ?_, generates.lowered⟩
    obtain ⟨first, there⟩ := generates.named fn isNeeded
    exact ⟨first.perm same.symm, there⟩

/-- The module has two functions that need a heap function, and names that look like generated ones
for a function without symbolic shapes and for another heap function. -/
def crowded : Module := .ofEntries [
  ("shape_func", .function { lateDivisor with blocks := [], body := .var ⟨0⟩ }),
  ("main", .function lateDivisor),
  ("shape_func_2", .heapFunction ⟨"shape_func_2", 0, []⟩),
  ("other", .function lateDivisor)]

theorem heapShapes_names_crowded :
    ∃ m' g fn, crowded.heapShapes "shape_func" = .ok m' ∧
      m'.names = ["shape_func", "main", "shape_func_2", "other", "shape_func_1", "shape_func_3"] ∧
      m'.get? "other" = some (.function g) ∧ m'.get? fn.name = some (.heapFunction fn) ∧
      fn = lateDivisor.layout.heapFunction fn.name ∧
      ∀ name, lateDivisor.CallsAnew g name ↔ fn.name = name := by
  obtain ⟨m', lowered⟩ : ∃ m', crowded.heapShapes "shape_func" = .ok m' :=
    exists_eq_ok (by decide +kernel)
  have names : (crowded.heapShapes "shape_func").toOption.map Module.names =
      some ["shape_func", "main", "shape_func_2", "other", "shape_func_1", "shape_func_3"] := by
    decide +kernel
  rw [lowered] at names
  have entries : crowded.entries =
      crowded.entries.take 3 ++ [("other", .function lateDivisor)] := by
    decide +kernel
  obtain ⟨needed, -, -, -, -, each⟩ := heapShapes_names lowered
  obtain ⟨need, -, generates⟩ := each _ _ _ [] entries
  obtain ⟨g, found, needs, own, calls⟩ := generates.lowered lateDivisor rfl (by decide +kernel)
  obtain ⟨fn, rfl⟩ := Option.ne_none_iff_exists'.1
    (mt needs.1 (show lateDivisor.computedDims ≠ [] by decide +kernel))
  refine ⟨m', g, fn, lowered, Option.some.inj names, found, (generates.named fn rfl).2, own fn rfl,
    fun name => (calls name).trans ?_⟩
  simp

end Module

end TensorIR
