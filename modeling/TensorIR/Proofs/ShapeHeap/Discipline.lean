import TensorIR.Proofs.Driving
import TensorIR.Proofs.ShapeHeap.Generated
import TensorIR.Proofs.ShapeHeap.Operations

/-!
# How a lowered function uses its heap

The first block of a lowered function allocates the heap, and nothing else that is inserted does.
Each slot of a variable is stored once and no other slot is. A load stays within the heap. The heap
function is called at the start of a block only, right before a load that needs a computed slot, and
never twice without a store in between. `HeapDiscipline` has these rules and what the heap function
reads and writes; `heapShapes_discipline` says that every lowering obeys them.

Stores, loads and the order of calls are read off the operations alone. Where blocks begin is not
among these, so the builder is followed once more: `Leading` is what it keeps. Only a load calls the
heap function, so its step seals the block, emits the call and emits the load in one, and between
two steps no block ends with a call.
-/

namespace TensorIR

namespace Function

variable {f g : Function} {bs : List Binding}

/-- A call of a heap function stands at the start of a block, and next is a load of a slot that
comes after those of the variables. -/
def Leads (f : Function) (bs : List Binding) : Prop :=
  ∀ i name, bs[i]?.bind f.heapOp? = some (.call name) →
    i = 0 ∧ ∃ slots, bs[1]?.bind f.heapOp? = some (.load slots) ∧
      ∃ slot ∈ slots, f.boundDimVars.length ≤ slot

/-- The rules for the heap in a lowered form `g` of `f`, with the heap function that it needs. -/
structure HeapDiscipline (f g : Function) (needed : Option HeapFunction) : Prop where
  /-- Whatever does not define a variable of `f` is an operation on the heap. -/
  operations : ∀ b ∈ g.bindings,
    (f.heapOp? b).isSome ∨ ∃ v value, b = .define v value ∧ v.index < f.vars.length
  /-- The first block is the one allocation. Its size is that of the layout; only the largest 64-bit
  integer stands for all that are larger. -/
  allocation : ∃ b blocks, ∃ n : Int64, g.blocks = ⟨.plain, [b]⟩ :: blocks ∧
    f.heapOp? b = some (.alloc [.int n]) ∧
    n.toInt = min (f.layout.size : Int) Int64.maxValue.toInt ∧
    ∀ block ∈ blocks, ∀ b ∈ block.bindings, ∀ size, f.heapOp? b ≠ some (.alloc size)
  stores : ((f.heapOps g).flatMap HeapOp.storedSlots).Perm (List.range f.boundDimVars.length)
  loads : ∀ op ∈ f.heapOps g, ∀ slot ∈ op.loadedSlots, slot < f.layout.size
  generated : needed.isSome ↔ f.boundDimVars.length < f.layout.size
  function : ∀ fn ∈ needed, fn.heapSize = f.layout.size ∧
    fn.body.map HeapAssign.slot =
      List.range' f.boundDimVars.length (f.layout.size - f.boundDimVars.length) ∧
    ∀ s ∈ fn.body, ∀ slot ∈ s.value.loads, slot < f.boundDimVars.length
  calls : ∀ block ∈ g.blocks, f.Leads block.bindings
  callees : ∀ name, .call name ∈ f.heapOps g → needed.map HeapFunction.name = some name
  between : Spaced (f.heapOps g)

/-! ### Where blocks begin -/

theorem leads_nil : f.Leads [] := nofun

theorem Leads.append {x : Binding} (h : f.Leads bs)
    (notCall : ∀ name, f.heapOp? x ≠ some (.call name)) : f.Leads (bs ++ [x]) := by
  intro i name isCall
  have old : i < bs.length := by
    by_contra past
    rw [List.getElem?_append_right (by omega)] at isCall
    obtain ⟨y, at_, isCall⟩ := Option.bind_eq_some_iff.1 isCall
    cases List.mem_singleton.1 (List.mem_of_getElem? at_)
    exact notCall name isCall
  rw [List.getElem?_append_left old] at isCall
  obtain ⟨first, slots, next, computed⟩ := h i name isCall
  refine ⟨first, slots, ?_, computed⟩
  obtain ⟨y, at_, isLoad⟩ := Option.bind_eq_some_iff.1 next
  rw [List.getElem?_append_left (List.getElem?_eq_some_iff.1 at_).1, at_]
  exact isLoad

theorem leads_pair {x y : Binding} {slots : List Nat} (load : f.heapOp? y = some (.load slots))
    (computed : ∃ slot ∈ slots, f.boundDimVars.length ≤ slot) : f.Leads [x, y] := by
  intro i name isCall
  match i with
  | 0 => exact ⟨rfl, slots, load, computed⟩
  | 1 =>
      have same := load.symm.trans isCall
      cases same
  | i + 2 => cases isCall

/-- What is emitted under a new variable is the operation that the call is. -/
theorem heapOp?_emitted {n : Nat} (new : f.vars.length ≤ n) (vars : List VarInfo) (callee : Callee)
    (attrs : Attrs) (args : List Expr) :
    f.heapOp? (.define ⟨n⟩ ((Expr.call ⟨callee, attrs, none, none⟩ args).annotate vars)) =
      HeapOp.ofCall? callee attrs args := by
  obtain ⟨shape, ty, annotated⟩ := Expr.annotate_call vars ⟨callee, attrs, none, none⟩ args
  rw [annotated, heapOp?, if_pos new]

theorem heapOp?_own {v : Var} (own : v.index < f.vars.length) (value : Expr) :
    f.heapOp? (.define v value) = none := by
  cases value with
  | call head args => rw [heapOp?, if_neg (by omega)]
  | var _ | shape _ | tuple _ | item _ _ | const _ | external _ | global _ => rfl

end Function

namespace ShapeHeap

/-- The blocks of a lowering in progress: the first is the allocation, and calls lead in all of them
and in what is pending. -/
structure Leading (f : Function) (alloc : Binding) (b : Builder) : Prop where
  outside : b.inDataflow = false
  new : f.vars.length ≤ b.vars.length
  first : ∃ blocks, b.blocks = ⟨.plain, [alloc]⟩ :: blocks
  blocks : ∀ block ∈ b.blocks, f.Leads block.bindings
  pending : f.Leads b.pending

namespace Leading

variable {f : Function} {alloc : Binding} {b : Builder}

theorem emit (h : Leading f alloc b) (name : String) {callee : Callee} {attrs : Attrs}
    {args : List Expr} (notCall : ∀ fn, HeapOp.ofCall? callee attrs args ≠ some (.call fn)) :
    Leading f alloc (b.emitNamed name (.call ⟨callee, attrs, none, none⟩ args)).1 where
  outside := h.outside
  new := by
    have := h.new
    rw [Builder.length_vars_emitNamed]
    omega
  first := h.first
  blocks := h.blocks
  pending := h.pending.append fun fn => by
    rw [Function.heapOp?_emitted h.new]
    exact notCall fn

theorem sealBlock (h : Leading f alloc b) : Leading f alloc b.sealBlock := by
  rw [Builder.sealBlock, if_neg (by simp [h.outside])]
  refine ⟨?_, ?_, ?_, ?_, ?_⟩
  · rw [Builder.inDataflow_endBlock]
    exact h.outside
  · rw [Builder.vars_endBlock]
    exact h.new
  · obtain ⟨blocks, first⟩ := h.first
    rw [Builder.endBlock]
    split
    · exact ⟨blocks, first⟩
    · exact ⟨_, congrArg (· ++ _) first⟩
  · exact Builder.forall_endBlock h.blocks fun _ => h.pending
  · rw [Builder.pending_endBlock]
    exact Function.leads_nil

/-- A call at the start of a new block, and the load that it is made for. -/
theorem refresh (h : Leading f alloc b) {fn : String} {heap : Var} {slots : List Nat}
    (computed : ∃ slot ∈ slots, f.boundDimVars.length ≤ slot) :
    Leading f alloc ((b.sealBlock.emitNamed "_" (.ofCallee (.global fn) [.var heap])).1.emitNamed
      "shape" (.ofOp .vmLoadShape [.var heap] (.loadShape slots))).1 := by
  have sealed := h.sealBlock
  have empty : b.sealBlock.pending = [] := by
    rw [Builder.sealBlock, if_neg (by simp [h.outside]), Builder.pending_endBlock]
  have new : f.vars.length ≤
      (b.sealBlock.emitNamed "_" (.ofCallee (.global fn) [.var heap])).1.vars.length := by
    have := sealed.new
    rw [Builder.length_vars_emitNamed]
    omega
  refine ⟨sealed.outside, ?_, sealed.first, sealed.blocks, ?_⟩
  · rw [Builder.length_vars_emitNamed]
    omega
  · show f.Leads ((b.sealBlock.pending ++ [_]) ++ [_])
    rw [empty]
    refine Function.leads_pair ?_ computed
    exact Function.heapOp?_emitted new _ _ _ _

end Leading

theorem kept_leading (f : Function) (alloc : Binding) (shapeFunction : Option String) (heap : Var) :
    State.Kept ⟨f, f.layout, shapeFunction, heap⟩ (·.index < f.vars.length)
      fun st => Leading f alloc st.builder where
  query tensor h := h.emit "sh" (by simp [HeapOp.ofCall?])
  store shape new h := h.emit "_" (by simp [HeapOp.ofCall?])
  load {st st' s v} h loaded := by
    have direct : Leading f alloc (st.builder.emitNamed "shape"
        (.ofOp .vmLoadShape [.var heap] (.loadShape (s.map f.layout.slot)))).1 :=
      h.emit "shape" (by simp [HeapOp.ofCall?])
    rw [State.load] at loaded
    split at loaded
    · obtain ⟨_, _, thrown⟩ := bind_eq_ok.1 loaded
      cases thrown
    · cases loaded
      split
      · next stale =>
          rw [State.refresh]
          split
          · exact direct
          · refine h.refresh ?_
            obtain ⟨d, hd, isComputed⟩ := List.any_eq_true.1 stale
            refine ⟨f.layout.slot d, List.mem_map_of_mem hd, ?_⟩
            have notVar : d.asVar? = none := by
              simp only [Bool.and_eq_true] at isComputed
              exact Option.isNone_iff_eq_none.1 isComputed.1
            rw [HeapLayout.slot_computed notVar]
            exact Nat.le_add_right _ _
      · exact direct
  bind {st st' v value} own h bound := by
    obtain ⟨b, built, same⟩ := bind_eq_ok.1 bound
    cases same
    cases Builder.bind_eq_ok_append (building_eq_ok.1 built)
    refine ⟨h.outside, h.new, h.first, h.blocks, h.pending.append fun fn isCall => ?_⟩
    rw [Function.heapOp?_own own] at isCall
    cases isCall
  sealBlock h := h.sealBlock

/-- The binding of the first block. -/
def allocation (f : Function) : Binding :=
  .define ⟨f.vars.length⟩
    ((Expr.ofCallee (.external Builtin.allocShapeHeap) [.shape (heapShape f.layout.size)]).annotate
      f.vars)

theorem heapOp?_allocation (f : Function) :
    f.heapOp? (allocation f) = some (.alloc (heapShape f.layout.size)) :=
  Function.heapOp?_emitted (Nat.le_refl _) _ _ _ _

theorem leading_start (f : Function) :
    Leading f (allocation f) (start f f.layout).1.builder where
  outside := rfl
  new := by
    show f.vars.length ≤ (f.vars ++ [_]).length
    rw [List.length_append]
    exact Nat.le_add_right _ _
  first := ⟨[], rfl⟩
  blocks := by
    show ∀ block ∈ [(⟨.plain, [allocation f]⟩ : Block)], f.Leads block.bindings
    refine List.forall_mem_singleton.2 (Function.leads_nil.append fun fn => ?_)
    rw [heapOp?_allocation]
    nofun
  pending := Function.leads_nil

/-! ### The rules -/

/-- The size of a heap as a literal. -/
theorem toInt_heapSize (size : Nat) :
    ((int64? size).getD Int64.maxValue).toInt = min (size : Int) Int64.maxValue.toInt := by
  have largest : Int64.maxValue.toInt = 9223372036854775807 := rfl
  cases literal : int64? size with
  | some n =>
      have same := int64?_eq_some_iff.1 literal
      have bound := n.toInt_lt
      rw [Option.getD_some]
      omega
  | none =>
      have tooLarge := int64?_eq_none_iff.1 literal
      rw [Option.getD_none]
      omega

theorem stores_of_performed {f : Function} {shapeFunction : Option String} {last : Stage}
    {events : List Event} (performed : Performed f.layout shapeFunction {} f.tasks events last) :
    ((events.filterMap Event.op?).flatMap HeapOp.storedSlots).Perm
      (List.range f.boundDimVars.length) := by
  obtain ⟨vs, slots, distinct, mem⟩ := performed.storesNew
  rw [Function.arrivals_tasks] at mem
  have vars : vs.Perm f.boundDimVars := by
    refine (List.perm_ext_iff_of_nodup distinct f.nodup_boundDimVars).2 fun v => ?_
    rw [mem, Function.mem_boundDimVars]
    simp
  rw [slots]
  show (vs.map f.layout.varSlot).Perm (List.range f.layout.vars.length)
  rw [← HeapLayout.map_varSlot f.nodup_boundDimVars]
  exact vars.map f.layout.varSlot

theorem blocks_of_lower {f g : Function} {shapeFunction : Option String} (wellFormed : f.Scoped)
    (lowered : lower f f.layout shapeFunction = .ok g) :
    (∃ blocks, g.blocks = ⟨.plain, [allocation f]⟩ :: blocks) ∧
      ∀ block ∈ g.blocks, f.Leads block.bindings := by
  obtain ⟨st, body, leading, finished⟩ := (kept_leading f (allocation f) shapeFunction _).lower
    (fun x hx v hv => wellFormed.definitions v (Function.mem_defined hx hv)) (leading_start f)
    lowered
  have ended : Leading f (allocation f) (st.builder.endBlock .plain) := by
    have sealed := leading.sealBlock
    rwa [Builder.sealBlock, if_neg (by simp [leading.outside])] at sealed
  rw [Builder.blocks_of_finish leading.outside finished]
  exact ⟨ended.first, ended.blocks⟩

/-- Every dimension of a symbolic shape has a slot in the layout. -/
theorem slot_lt_size {f : Function}
    (bound : ∀ s ∈ f.symbolicShapes, ∀ v ∈ s.vars, v ∈ f.boundDimVars) {s : Shape} {d : Dim}
    (hs : s ∈ f.symbolicShapes) (hd : d ∈ s) : f.layout.slot d < f.layout.size := by
  cases d with
  | var v =>
      have inVars : v ∈ f.layout.vars :=
        bound s hs v (List.mem_flatMap.2 ⟨_, hd, List.mem_singleton_self v⟩)
      exact Nat.lt_of_lt_of_le (HeapLayout.varSlot_lt inVars) (Nat.le_add_right _ _)
  | int _ | binary _ _ _ =>
      exact HeapLayout.slot_lt (Function.wellFormed_layout bound)
        (Function.mem_computedDims.2 ⟨⟨s, hs, hd⟩, rfl⟩)

/-- A lowered function obeys the rules for its heap. -/
theorem lowerFunction_discipline {base : String} {taken : List String} {f g : Function}
    {needed : Option HeapFunction} (wellFormed : f.check = .ok ())
    (symbolic : f.symbolicShapes ≠ [])
    (lowered : lowerFunction base taken f = .ok (g, needed)) : f.HeapDiscipline g needed := by
  obtain ⟨bound, shapeFunction, lowering, ungenerated, rfl⟩ := lowerFunction_eq_ok symbolic lowered
  obtain ⟨⟨rest, first⟩, leads⟩ := blocks_of_lower (Function.scoped_of_check wellFormed) lowering
  obtain ⟨c, events, last, reads, performed⟩ :=
    readsAs_lower (Function.scoped_of_check wellFormed) lowering
  have layout := Function.wellFormed_layout bound
  have size : f.layout.size = f.boundDimVars.length + f.computedDims.length := rfl
  have ops : f.heapOps g = .alloc (heapShape f.layout.size) :: events.filterMap Event.op? :=
    Cursor.heapOps_of_readAll reads.trace
  have later : (rest.flatMap Block.bindings).filterMap f.heapOp? = events.filterMap Event.op? := by
    have split : g.bindings = allocation f :: rest.flatMap Block.bindings := by
      rw [Function.bindings, first]
      rfl
    rw [Function.heapOps, split, List.filterMap_cons, heapOp?_allocation] at ops
    exact (List.cons.inj ops).2
  constructor
  case operations =>
    intro b hb
    obtain ⟨before, after, e, read, -⟩ := Cursor.read_of_mem reads.trace hb
    exact (Cursor.heapOp?_of_read read).2
  case allocation =>
    refine ⟨allocation f, rest, _, first, heapOp?_allocation f, toInt_heapSize _, ?_⟩
    intro block hblock b hb size isAlloc
    have mem := List.mem_filterMap.2 ⟨b, List.mem_flatMap.2 ⟨block, hblock, hb⟩, isAlloc⟩
    rw [later] at mem
    exact performed.not_alloc size mem
  case stores =>
    rw [ops]
    exact stores_of_performed performed
  case loads =>
    intro op hop slot hslot
    cases op with
    | load slots =>
        have mem : .load slots ∈ events.filterMap Event.op? := by simpa [ops] using hop
        obtain ⟨s, hs, rfl⟩ := performed.mem_load mem
        rw [Function.shapes_tasks] at hs
        obtain ⟨d, hd, rfl⟩ := List.mem_map.1 hslot
        exact slot_lt_size bound hs hd
    | alloc _ | query | store _ | call _ => cases hslot
  case generated =>
    rw [size, Option.isSome_map, Option.isSome_iff_ne_none, ne_eq, ungenerated,
      ← List.length_eq_zero_iff]
    omega
  case function =>
    intro fn hfn
    obtain ⟨name, -, rfl⟩ := Option.map_eq_some_iff.1 hfn
    refine ⟨rfl, ?_, HeapLayout.loads_heapFunction layout name⟩
    rw [HeapLayout.slots_heapFunction layout f.nodup_computedDims, size, Nat.add_sub_cancel_left]
    rfl
  case calls => exact leads
  case callees =>
    intro name mem
    rw [ops, List.mem_cons, List.mem_filterMap] at mem
    rcases mem with isAlloc | ⟨e, inEvents, isCall⟩
    · cases isAlloc
    · cases e with
      | invoke fn =>
          cases isCall
          rw [performed.invoke_mem inEvents]
          rfl
      | alloc _ | query _ | store _ _ | storeValue _ _ | load _ _ => cases isCall
      | keep _ _ => cases isCall
  case between =>
    rw [ops]
    refine (performed.spaced fun s hs d hd notVar => ?_).cons (by nofun)
    rw [Function.shapes_tasks] at hs
    exact Function.mem_computedDims.2 ⟨⟨s, hs, hd⟩, notVar⟩

end ShapeHeap

/-- Every function of a module that needs a heap is lowered to one that obeys the rules for it, and
the heap function that it needs is in the lowered module. -/
theorem Module.heapShapes_discipline {base key : String} {m m' : Module} {f : Function}
    (lowered : m.heapShapes base = .ok m') (mem : m.get? key = some (.function f))
    (wellFormed : f.check = .ok ()) (symbolic : f.symbolicShapes ≠ []) :
    ∃ taken g needed, ShapeHeap.lowerFunction base taken f = .ok (g, needed) ∧
      m'.get? key = some (.function g) ∧ (∀ fn ∈ needed, m'.heapFunction? fn.name = some fn) ∧
      f.HeapDiscipline g needed := by
  obtain ⟨taken, g, needed, lowering, found, kept⟩ := heapShapes_function lowered mem
  exact ⟨taken, g, needed, lowering, found, kept,
    ShapeHeap.lowerFunction_discipline wellFormed symbolic lowering⟩

/-- The rules at work: `lateDivisor` stores two variables in two places and calls its heap function
after each. -/
theorem Module.heapShapes_discipline_lateDivisor :
    ∃ m' taken g needed, lateDivisorModule.heapShapes "shape_func" = .ok m' ∧
      lateDivisor.symbolicShapes ≠ [] ∧
      ShapeHeap.lowerFunction "shape_func" taken lateDivisor = .ok (g, needed) ∧
      m'.get? "main" = some (.function g) ∧ lateDivisor.HeapDiscipline g needed := by
  obtain ⟨m', lowered⟩ := lateDivisor_lowers
  have symbolic : lateDivisor.symbolicShapes ≠ [] := by decide +kernel
  obtain ⟨taken, g, needed, lowering, found, -, rules⟩ :=
    heapShapes_discipline lowered lateDivisor_mem (by decide +kernel) symbolic
  exact ⟨m', taken, g, needed, lowered, symbolic, lowering, found, rules⟩

end TensorIR
