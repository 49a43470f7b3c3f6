import TensorIR.Proofs.Allocating

/-!
# Placing tensors is an expansion

Every allocation of a tensor becomes an allocation of storage and a view of it, and every packed
call the direct call that it stands for, where it stands; nothing else of the function changes
(`Function.storageExpansion`). The storage is the new variable beside that of the tensor, and
nothing but the view reads it (`Function.useCount_storage`).

The builder takes the view where it took the allocation, since shape and element type are the same.
Of a direct call nothing is inferred, unless it is one of the two functions that the machine
provides and that inference knows (`Function.PacksKernels`).
-/

namespace TensorIR

/-! ### Calls and their expansions -/

/-- The allocation of storage for a tensor. -/
def StorageTarget.storageCall (target : StorageTarget) (shape : Shape) (elem : ElemType) : Expr :=
  .ofOp .vmAllocStorage [.shape [shape.storageBytes elem]]
    (.allocStorage target.alignment target.device elem)

/-- The view of storage as a tensor, from its first byte on. -/
def tensorView (storage : Var) (shape : Shape) (elem : ElemType) : Expr :=
  .ofOp .vmAllocTensor [.var storage, .shape (.ofInts [0]), .shape shape] (.allocTensor elem)

/-- What becomes of a binding: a tensor in storage, or a direct call. -/
inductive Placement where
  | storage (v : Var) (shape : Shape) (elem : ElemType)
  | direct (v : Var) (kernel : String) (args : List Expr)

namespace Binding

/-- If the binding is an allocation, it is one of a shape and an element type, and if it is a packed
call, it is one of a kernel on a tuple of inputs and one thing more. -/
def Placeable (x : Binding) : Prop :=
  ∀ v head args, x = define v (.call head args) →
    (head.callee = .op .allocTensor →
      ∃ shape elem, args = [.shape shape] ∧ head.attrs = .allocTensor elem) ∧
    (head.callee = .op .callPacked →
      ∃ kernel inputs out, args = [.external kernel, .tuple inputs, out])

/-- What becomes of an allocation or of a packed call of that form. -/
def placement? : Binding → Option Placement
  | define v (.call ⟨.op .allocTensor, .allocTensor elem, _, _⟩ [.shape shape]) =>
    some (.storage v shape elem)
  | define v (.call ⟨.op .callPacked, _, _, _⟩ [.external kernel, .tuple inputs, out]) =>
    some (.direct v kernel (inputs ++ [out]))
  | _ => none

/-- What is wrong with the arguments of an allocation or of a packed call. -/
def placeFault? : Binding → Option CallFault
  | define _ (.call ⟨.op .allocTensor, attrs, _, _⟩ args) =>
    errorOf? (StorageTarget.allocation args attrs)
  | define _ (.call ⟨.op .callPacked, _, _, _⟩ args) => errorOf? (directCall args)
  | _ => none

/-- The kernel of a packed call. -/
def packedKernel? (x : Binding) : Option String :=
  match x.placement? with
  | some (.direct _ kernel _) => some kernel
  | _ => none

variable {x : Binding} {v : Var} {shape : Shape} {elem : ElemType} {kernel : String}
  {args : List Expr}

theorem define_of_storage (placement : x.placement? = some (.storage v shape elem)) :
    ∃ head, head.callee = .op .allocTensor ∧ head.attrs = .allocTensor elem ∧
      x = .define v (.call head [.shape shape]) := by
  unfold placement? at placement
  split at placement
  · cases placement
    exact ⟨_, rfl, rfl, rfl⟩
  · cases placement
  · cases placement

theorem define_of_direct (placement : x.placement? = some (.direct v kernel args)) :
    ∃ head inputs out, head.callee = .op .callPacked ∧ args = inputs ++ [out] ∧
      x = .define v (.call head [.external kernel, .tuple inputs, out]) := by
  unfold placement? at placement
  split at placement
  · cases placement
  · cases placement
    exact ⟨_, _, _, rfl, rfl, rfl⟩
  · cases placement

theorem placeFault?_eq_none : x.placeFault? = none ↔ x.Placeable := by
  unfold placeFault?
  split
  · next v attrs shape ty args =>
      rw [errorOf?_eq_none]
      constructor
      · rintro ⟨⟨shape, elem⟩, read⟩ w head args' is
        cases is
        exact ⟨fun _ => ⟨shape, elem, StorageTarget.allocation_eq_ok read⟩, nofun⟩
      · intro placeable
        obtain ⟨shape, elem, rfl, rfl⟩ := (placeable _ _ _ rfl).1 rfl
        exact ⟨_, rfl⟩
  · next v attrs shape ty args =>
      rw [errorOf?_eq_none]
      constructor
      · rintro ⟨call, read⟩ w head args' is
        cases is
        obtain ⟨kernel, inputs, out, is, -⟩ := directCall_eq_ok read
        exact ⟨nofun, fun _ => ⟨kernel, inputs, out, is⟩⟩
      · intro placeable
        obtain ⟨kernel, inputs, out, rfl⟩ := (placeable _ _ _ rfl).2 rfl
        exact ⟨_, rfl⟩
  · next noAllocation noKernel =>
      refine iff_of_true rfl ?_
      rintro v ⟨callee, attrs, shape, ty⟩ args rfl
      constructor
      · rintro rfl
        exact absurd rfl (noAllocation v attrs shape ty args)
      · rintro rfl
        exact absurd rfl (noKernel v attrs shape ty args)

instance (x : Binding) : Decidable x.Placeable := decidable_of_iff _ placeFault?_eq_none

end Binding

namespace Function

/-- The kernels of packed calls are none of the functions that the machine provides. -/
def PacksKernels (f : Function) : Prop :=
  ∀ x ∈ f.bindings, x.packedKernel? ≠ some Builtin.shapeOf ∧
    x.packedKernel? ≠ some Builtin.allocShapeHeap

instance (f : Function) : Decidable f.PacksKernels :=
  inferInstanceAs (Decidable (∀ x ∈ f.bindings, x.packedKernel? ≠ some Builtin.shapeOf ∧
    x.packedKernel? ≠ some Builtin.allocShapeHeap))

/-- Beside each tensor its storage is new. -/
def storageExpansion (f : Function) (target : StorageTarget) : Expansion where
  beside? x :=
    match x.placement? with
    | some (.storage v _ _) => some v
    | _ => none
  record _ := ⟨"storage", .plain, none, some .object⟩
  expand r x :=
    match x.placement? with
    | some (.storage v shape elem) =>
      [.define (r v) ((target.storageCall shape elem).annotate f.vars),
        .define v ((tensorView (r v) shape elem).annotate f.vars)]
    | some (.direct v kernel args) =>
      [.define v ((Expr.ofCallee (.external kernel) args).annotate f.vars)]
    | none => [x]

variable {f g : Function} {target : StorageTarget} {x : Binding} {v : Var} {shape : Shape}
  {elem : ElemType} {kernel : String} {args : List Expr} {r : Var → Var}

theorem beside?_storage (placement : x.placement? = some (.storage v shape elem)) :
    (f.storageExpansion target).beside? x = some v := by
  simp only [storageExpansion, placement]

theorem beside?_direct (placement : x.placement? = some (.direct v kernel args)) :
    (f.storageExpansion target).beside? x = none := by
  simp only [storageExpansion, placement]

theorem beside?_unplaced (other : x.placement? = none) :
    (f.storageExpansion target).beside? x = none := by
  simp only [storageExpansion, other]

theorem expand_storage (placement : x.placement? = some (.storage v shape elem)) :
    (f.storageExpansion target).expand r x =
      [.define (r v) ((target.storageCall shape elem).annotate f.vars),
        .define v ((tensorView (r v) shape elem).annotate f.vars)] := by
  simp only [storageExpansion, placement]

theorem expand_direct (placement : x.placement? = some (.direct v kernel args)) :
    (f.storageExpansion target).expand r x =
      [.define v ((Expr.ofCallee (.external kernel) args).annotate f.vars)] := by
  simp only [storageExpansion, placement]

theorem expand_unplaced (other : x.placement? = none) :
    (f.storageExpansion target).expand r x = [x] := by
  simp only [storageExpansion, other]

/-- The dimensions of the two calls are made of those of the tensor. -/
theorem named_storageCall {P : DimVar → Prop} (named : ∀ d ∈ shape.vars, P d) :
    ∀ d ∈ (target.storageCall shape elem).dimVars, P d := by
  have bytes : (target.storageCall shape elem).dimVars = (shape.storageBytes elem).vars := by
    simp [StorageTarget.storageCall, Expr.ofOp, Expr.dimVars, Expr.dimVarsAll, Shape.vars]
  rw [bytes]
  exact Dim.named_fold (Shape.named_numElements named) (List.forall_mem_nil _)

theorem named_tensorView {P : DimVar → Prop} (named : ∀ d ∈ shape.vars, P d) :
    ∀ d ∈ (tensorView v shape elem).dimVars, P d := by
  have same : (tensorView v shape elem).dimVars = shape.vars := List.append_nil shape.vars
  rwa [same]

theorem lawful_storage (wellFormed : f.WellFormed)
    (placement : x.placement? = some (.storage v shape elem)) :
    (f.storageExpansion target).LawfulAt f x := by
  have beside : (f.storageExpansion target).beside? x = some v := beside?_storage placement
  obtain ⟨head, -, -, is⟩ := Binding.define_of_storage placement
  have named (mem : x ∈ f.bindings) : ∀ d ∈ shape.vars, d.index < f.dimNames.length := by
    have all := wellFormed.shapes x mem
    rw [is] at all
    simp only [Binding.value, Expr.dimVars, Expr.dimVarsAll, List.forall_mem_append] at all
    exact all.2.1
  constructor
  case beside =>
    intro w same
    cases beside.symm.trans same
    exact congrArg Binding.defined? is
  case defines =>
    intro r
    rw [expand_storage placement, beside, is]
    exact List.Perm.swap v (r v) []
  case nonempty =>
    intro r
    rw [expand_storage placement]
    exact List.cons_ne_nil _ _
  case patterns =>
    refine .inr ⟨congrArg Binding.pattern? is, fun r => ?_⟩
    rw [expand_storage placement, List.forall_mem_cons, List.forall_mem_singleton]
    exact ⟨rfl, rfl⟩
  case reads =>
    intro r
    rw [expand_storage placement]
    refine ⟨?_, ?_, trivial⟩
    · rw [Binding.value, Expr.reads_annotate]
      exact List.forall_mem_nil _
    · rw [Binding.value, Expr.reads_annotate]
      exact fun w read => List.mem_append_right _ read
  case annotations =>
    intro _ _
    exact List.forall_mem_nil _
  case shapes =>
    intro mem r
    rw [expand_storage placement, List.forall_mem_cons, List.forall_mem_singleton]
    exact ⟨Expr.named_annotate wellFormed.annotations (named_storageCall (named mem)),
      Expr.named_annotate wellFormed.annotations (named_tensorView (named mem))⟩

/-- A direct call reads what the packed call read. -/
theorem reads_direct (placement : x.placement? = some (.direct v kernel args)) :
    (Expr.ofCallee (.external kernel) args).reads = x.value.reads := by
  obtain ⟨head, inputs, out, -, rfl, rfl⟩ := Binding.define_of_direct placement
  simp [Expr.ofCallee, Binding.value, Expr.reads, Expr.readsAll, Expr.readsAll_eq_flatMap]

theorem lawful_direct (wellFormed : f.WellFormed)
    (placement : x.placement? = some (.direct v kernel args)) :
    (f.storageExpansion target).LawfulAt f x := by
  have noneBeside : (f.storageExpansion target).beside? x = none := beside?_direct placement
  have reads := reads_direct placement
  obtain ⟨head, inputs, out, -, parts, is⟩ := Binding.define_of_direct placement
  have named (mem : x ∈ f.bindings) : ∀ d ∈ (Expr.ofCallee (.external kernel) args).dimVars,
      d.index < f.dimNames.length := by
    have all := wellFormed.shapes x mem
    rw [is] at all
    simp only [Binding.value, Expr.dimVars, Expr.dimVarsAll, List.forall_mem_append] at all
    obtain ⟨-, -, ofInputs, ofOut, -⟩ := all
    rw [Expr.dimVarsAll_eq_flatMap] at ofInputs
    rw [parts, Expr.ofCallee, Expr.dimVars, Expr.dimVarsAll_eq_flatMap, List.flatMap_append,
      List.flatMap_singleton]
    exact List.forall_mem_append.2
      ⟨List.forall_mem_nil _, List.forall_mem_append.2 ⟨ofInputs, ofOut⟩⟩
  constructor
  case beside =>
    intro w same
    cases noneBeside.symm.trans same
  case defines =>
    intro r
    rw [expand_direct placement, noneBeside, is]
    rfl
  case nonempty =>
    intro r
    rw [expand_direct placement]
    exact List.cons_ne_nil _ _
  case patterns =>
    refine .inr ⟨congrArg Binding.pattern? is, fun r => ?_⟩
    rw [expand_direct placement, List.forall_mem_singleton]
    rfl
  case reads =>
    intro r
    rw [expand_direct placement]
    refine ⟨?_, trivial⟩
    rw [Binding.value, Expr.reads_annotate, reads]
    exact fun _ => id
  case annotations =>
    intro _ beside
    rw [noneBeside] at beside
    cases beside
  case shapes =>
    intro mem r
    rw [expand_direct placement, List.forall_mem_singleton]
    exact Expr.named_annotate wellFormed.annotations (named mem)

theorem lawful_storageExpansion (wellFormed : f.WellFormed) :
    (f.storageExpansion target).Lawful f := by
  intro x
  cases placement : x.placement? with
  | none =>
      exact .kept wellFormed (beside?_unplaced placement) fun _ => expand_unplaced placement
  | some place =>
      cases place with
      | storage v shape elem => exact lawful_storage wellFormed placement
      | direct v kernel args => exact lawful_direct wellFormed placement

/-! ### Emitting them -/

variable {before after : List Block} {block : Block} {done rest : List Binding} {position : Nat}
  {vars : List VarInfo} {info : VarInfo}

/-- A view has the shape and the type of the allocation. -/
theorem fits_tensorView (placement : x.placement? = some (.storage v shape elem))
    (inferred : x.value = x.value.bare.annotate f.vars) (fits : info.Fits f.vars x.value)
    (storage : Var) : info.Fits vars (tensorView storage shape elem) := by
  obtain ⟨⟨callee, attrs, _, _⟩, rfl, rfl, rfl⟩ := Binding.define_of_storage placement
  rw [inferred] at fits
  constructor
  · intro s known t ofView
    cases ofView
    refine fits.shape s known shape ?_
    rw [Expr.inferShape?_annotate]
    rfl
  · intro t known u ofView
    cases ofView
    refine fits.ty t known _ ?_
    rw [Expr.inferTy?_annotate]
    rfl

/-- Nothing is inferred of a kernel of the host. -/
theorem fits_direct (shapeOf : kernel ≠ Builtin.shapeOf)
    (allocShapeHeap : kernel ≠ Builtin.allocShapeHeap) :
    info.Fits vars (Expr.ofCallee (.external kernel) args) := by
  constructor
  · intro s known t inferred
    simp [Expr.ofCallee, Expr.inferShape?, Callee.resultShape?, allocShapeHeap] at inferred
  · intro t known u inferred
    simp [Expr.ofCallee, Expr.inferTy?, CallHead.resultTy?, shapeOf, allocShapeHeap] at inferred

section Emission

variable (settled : f.Settled) (splitBlocks : f.blocks = before ++ block :: after)
  (split : block.bindings = done ++ x :: rest)
include settled splitBlocks split

theorem emit_storage (wellFormed : f.WellFormed)
    (placement : x.placement? = some (.storage v shape elem))
    (inferred : x.value = x.value.bare.annotate f.vars) :
    target.emitAllocation f position v [.shape shape] (.allocTensor elem)
        ((f.storageExpansion target).reached f before ⟨block.kind, done⟩) =
      .ok ((f.storageExpansion target).reached f before ⟨block.kind, done ++ [x]⟩) := by
  obtain ⟨head, -, -, is⟩ := Binding.define_of_storage placement
  obtain ⟨info, place, fits⟩ := Expansion.bindable_again settled splitBlocks split is
  let E := f.storageExpansion target
  let b := E.reached f before ⟨block.kind, done⟩
  have beside : E.beside? x = some v := beside?_storage placement
  have reads : ∀ u ∈ (target.storageCall shape elem).reads, f.Allocates u := List.forall_mem_nil _
  have record (kind : VarKind) : { E.record x with kind } = ⟨"storage", kind,
      (target.storageCall shape elem).inferShape? f.vars,
      (target.storageCall shape elem).inferTy? f.vars⟩ := rfl
  have emitted : b.emitNamed "storage" (target.storageCall shape elem) = _ :=
    Expansion.emitNamed_reached (lawful_storageExpansion wellFormed) wellFormed splitBlocks split
      beside reads record b.pending
  have bound : (b.emitNamed "storage" (target.storageCall shape elem)).1.bind v
      (tensorView (E.newVar f v) shape elem) =
        .ok (E.reached f before ⟨block.kind, done ++ [x]⟩) := by
    rw [emitted]
    refine Builder.bind_eq_ok_iff.2 ⟨⟨info, place.grow.grow, ?_⟩, ?_⟩
    · exact fits_tensorView placement inferred fits _
    · rw [Expansion.reached_beside beside, Expansion.expanded, expand_storage placement]
      simp only [Builder.append, List.append_assoc]
      rfl
  have var : (b.emitNamed "storage" (target.storageCall shape elem)).2 = E.newVar f v :=
    congrArg Prod.snd emitted
  rw [← var] at bound
  exact bind_eq_ok.2 ⟨(shape, elem), rfl, building_eq_ok.2 bound⟩

theorem emit_direct (kernels : f.PacksKernels)
    (placement : x.placement? = some (.direct v kernel args)) :
    building f.name (((f.storageExpansion target).reached f before ⟨block.kind, done⟩).bind v
        (.ofCallee (.external kernel) args)) =
      .ok ((f.storageExpansion target).reached f before ⟨block.kind, done ++ [x]⟩) := by
  have mem : x ∈ f.bindings := by simp [Function.bindings_of_split splitBlocks split]
  have here := (settled block (by simp [splitBlocks])).bindings x (by simp [split])
  obtain ⟨head, inputs, out, -, -, is⟩ := Binding.define_of_direct placement
  obtain ⟨info, place, -⟩ := Expansion.bindable_again settled splitBlocks split is
  obtain ⟨shapeOf, allocShapeHeap⟩ := kernels x mem
  simp only [Binding.packedKernel?, placement, ne_eq, Option.some.injEq] at shapeOf allocShapeHeap
  have reads : ∀ u ∈ (Expr.ofCallee (.external kernel) args).reads, u.index < f.vars.length := by
    rw [reads_direct placement]
    exact here.reads
  rw [building_eq_ok, Expansion.reached_kept (beside?_direct placement), Expansion.expanded,
    expand_direct placement]
  exact Builder.bind_grown place (fits_direct shapeOf allocShapeHeap) reads rfl

end Emission

/-- Every allocation and every packed call is expanded, or it is malformed. -/
theorem emits_placements (wellFormed : f.WellFormed) (settled : f.Settled)
    (allocations : f.Infers .allocTensor) (kernels : f.PacksKernels) :
    (f.storageExpansion target).Emits f Binding.placeFault? fun position binding b =>
      match binding with
      | .define v (.call ⟨.op .allocTensor, attrs, _, _⟩ args) =>
        target.emitAllocation f position v args attrs b
      | .define v (.call ⟨.op .callPacked, _, _, _⟩ args) => do
        let call ← (directCall args).mapError (.malformedCall f.name position)
        building f.name (b.bind v call)
      | _ => building f.name (b.push binding) := by
  intro before block after done x rest position splitBlocks split
  have mem : x ∈ f.bindings := by simp [Function.bindings_of_split splitBlocks split]
  beta_reduce
  split
  · next v attrs shape ty args =>
      let head : CallHead := ⟨.op .allocTensor, attrs, shape, ty⟩
      have annotated := allocations _ mem ⟨v, head, args, rfl, rfl⟩
      show Answers (Option.map _ (errorOf? (StorageTarget.allocation args attrs))) _ _
      cases read : StorageTarget.allocation args attrs with
      | error fault =>
          simp only [StorageTarget.emitAllocation, read]
          rfl
      | ok p =>
          obtain ⟨shape, elem⟩ := p
          obtain ⟨rfl, rfl⟩ := StorageTarget.allocation_eq_ok read
          exact ⟨_, emit_storage settled splitBlocks split wellFormed rfl annotated, rfl⟩
  · next v attrs shape ty args =>
      show Answers (Option.map _ (errorOf? (directCall args))) _ _
      cases read : directCall args with
      | error fault => rfl
      | ok call =>
          obtain ⟨kernel, inputs, out, rfl, rfl⟩ := directCall_eq_ok read
          exact ⟨_, emit_direct settled splitBlocks split kernels rfl, rfl⟩
  · next noAllocation noKernel =>
      have kept : x.placement? = none := by
        unfold Binding.placement?
        split
        · next v elem shape ty dims => exact absurd rfl (noAllocation v _ _ _ _)
        · next v attrs shape ty kernel inputs out => exact absurd rfl (noKernel v _ _ _ _)
        · rfl
      have fine : x.placeFault? = none := by
        unfold Binding.placeFault?
        split
        · exact absurd rfl (noAllocation _ _ _ _ _)
        · exact absurd rfl (noKernel _ _ _ _ _)
        · rfl
      rw [malformedCall?, fine]
      exact ⟨_, Expansion.push_kept settled splitBlocks split (beside?_unplaced kept)
        (expand_unplaced kept), rfl⟩

/-! ### Reads of storage -/

section Reads

variable (expands : (f.storageExpansion target).Expands f r g)
  (storage : v ∈ (f.storageExpansion target).besides f.bindings)
include expands storage

/-- What read old variables only does not read storage. -/
theorem count_old {vs : List Var} (old : ∀ u ∈ vs, f.Allocates u) : vs.count (r v) = 0 := by
  refine List.count_eq_zero_of_not_mem fun read => ?_
  have allocated : (r v).index < f.vars.length := old (r v) read
  have fresh := expands.fresh v storage
  omega

/-- Of the bindings in the place of one only the view of the storage reads it. -/
theorem count_reads_expand (wellFormed : f.WellFormed) (mem : x ∈ f.bindings) :
    (((f.storageExpansion target).expand r x).flatMap fun y => y.value.reads).count (r v) =
      ((f.storageExpansion target).beside? x).toList.count v := by
  have kept := count_old expands storage (wellFormed.reads x mem)
  cases placement : x.placement? with
  | none =>
      rw [expand_unplaced placement, beside?_unplaced placement, List.flatMap_singleton, kept]
      rfl
  | some place =>
      cases place with
      | direct w kernel args =>
          rw [expand_direct placement, beside?_direct placement, List.flatMap_singleton,
            Binding.value, Expr.reads_annotate, reads_direct placement, kept]
          rfl
      | storage w shape elem =>
          have beside : (f.storageExpansion target).beside? x = some w := beside?_storage placement
          have there := Expansion.mem_besides.2 ⟨x, mem, beside⟩
          have reads : (((f.storageExpansion target).expand r x).flatMap fun y => y.value.reads) =
              [r w] := by
            rw [expand_storage placement, List.flatMap_cons, List.flatMap_singleton, Binding.value,
              Binding.value, Expr.reads_annotate, Expr.reads_annotate]
            rfl
          have same : r w = r v ↔ w = v :=
            ⟨expands.distinct w there v storage, congrArg r⟩
          rw [reads, beside, Option.toList_some, List.count_singleton, List.count_singleton]
          simp only [beq_iff_eq, same]

/-- Each storage is read once. -/
theorem useCount_storage (wellFormed : f.WellFormed) : g.useCount (r v) = 1 := by
  have lawful : (f.storageExpansion target).Lawful f := lawful_storageExpansion wellFormed
  have body := count_old expands storage wellFormed.body
  have each : f.bindings.map (List.count (r v) ∘ fun x =>
      ((f.storageExpansion target).expand r x).flatMap fun y => y.value.reads) =
      f.bindings.map (List.count v ∘ fun x => ((f.storageExpansion target).beside? x).toList) :=
    List.map_congr_left fun x mem => count_reads_expand expands storage wellFormed mem
  rw [useCount, reads_eq, expands.bindings, expands.body, List.count_append, body,
    List.flatMap_assoc, List.count_flatMap, each, ← List.count_flatMap,
    ← List.filterMap_eq_flatMap_toList]
  exact List.count_eq_one_of_mem (lawful.nodup_besides wellFormed) storage

end Reads

end Function

namespace Builder

variable {b : Builder}

/-- A function that came from a regular history has each tensor placed in storage of its own and
each packed call made directly, where they stand. If one of these calls has other arguments, the
pass fails at the first such call. What is annotated of packed calls does not matter. -/
theorem placeTensors_of_history {actions : List Action} {body : Expr} {f : Function}
    (target : StorageTarget) (initial : b.Initial) (regular : b.Regular actions)
    (finished : (b.performAll actions).finish body = .ok f) (inferred : f.Infers .allocTensor)
    (kernels : f.PacksKernels) :
    ((∀ x ∈ f.bindings, x.Placeable) →
      ∃ g r, f.placeTensors target = .ok g ∧ (f.storageExpansion target).Expands f r g ∧
        ∀ v ∈ (f.storageExpansion target).besides f.bindings, g.useCount (r v) = 1) ∧
    ((¬ ∀ x ∈ f.bindings, x.Placeable) →
      ∃ done x rest fault, f.bindings = done ++ x :: rest ∧ (∀ y ∈ done, y.Placeable) ∧
        ¬ x.Placeable ∧ x.placeFault? = some fault ∧
        f.placeTensors target = .error (.malformedCall f.name done.length fault)) := by
  obtain ⟨settled, checked⟩ := settled_of_history initial regular finished
  have wellFormed := Function.wellFormed_of_check checked
  have lawful : (f.storageExpansion target).Lawful f :=
    Function.lawful_storageExpansion wellFormed
  simp only [← Binding.placeFault?_eq_none]
  refine ⟨fun fine => ?_, fun malformed => ?_⟩
  · obtain ⟨g, r, placed, expands⟩ := Expansion.replaceBindings_expands lawful settled wellFormed
      (Function.emits_placements wellFormed settled inferred kernels) fine
    refine ⟨g, r, placed, expands, fun v storage => ?_⟩
    exact Function.useCount_storage expands storage wellFormed
  · obtain ⟨done, x, rest, fault, split, before, here, failed⟩ :=
      Expansion.replaceBindings_fails lawful settled wellFormed
        (Function.emits_placements wellFormed settled inferred kernels) malformed
    exact ⟨done, x, rest, fault, split, before, by simp [here], here, failed⟩

/-- The history of a function with a tensor for all of it and one for a region:

    fn main(x: (n, 2)) {
      t = alloc_tensor((n, 2)) {float16}
      dataflow { lv0 = alloc_tensor((4)) {int64}; gv0 = call_packed(count, (x), lv0) }
      w = call_packed(copy, (x, gv0), t); t
    }
-/
def placing : List Action :=
  [.dimVar "n", .param "x" (some [.var ⟨0⟩, .int 2]) (some (.tensor (some 2) .float16)),
    .emitNamed "t" (.ofOp .allocTensor [.shape [.var ⟨0⟩, .int 2]] (.allocTensor .float16)),
    .openRegion, .emit (.ofOp .allocTensor [.shape [.int 4]] (.allocTensor .int64)),
    .emitOutput (.ofOp .callPacked [.external "count", .tuple [.var ⟨0⟩], .var ⟨2⟩]), .closeRegion,
    .emitNamed "w" (.ofOp .callPacked [.external "copy", .tuple [.var ⟨0⟩, .var ⟨3⟩], .var ⟨1⟩])]

/-- The function that the history builds. -/
def placed : Function := (({ name := "main" } : Builder).performAll placing).toFunction (.var ⟨1⟩)

/-- Both tensors get storage, that of the region in the region. -/
theorem placeTensors_of_history_placed : ∃ g r, placed.placeTensors {} = .ok g ∧
    (placed.storageExpansion {}).Expands placed r g ∧ g.useCount (r ⟨1⟩) = 1 ∧
    g.useCount (r ⟨2⟩) = 1 ∧
    g.vars.map (fun info => (info.name, info.kind)) = [("x", .plain), ("t", .plain),
      ("lv0", .dataflow), ("gv0", .plain), ("w", .plain), ("storage", .plain),
      ("storage", .dataflow)] := by
  obtain ⟨g, r, lowered, expands, once⟩ := (placeTensors_of_history {} (.new "main")
    (show Regular _ placing by decide +kernel)
    (show (performAll _ placing).finish (.var ⟨1⟩) = .ok placed by decide +kernel)
    (show placed.Infers .allocTensor by decide +kernel)
    (show placed.PacksKernels by decide +kernel)).1 (by decide +kernel)
  have names : (placed.placeTensors {}).toOption.map (fun g =>
      g.vars.map fun info => (info.name, info.kind)) = some [("x", .plain), ("t", .plain),
        ("lv0", .dataflow), ("gv0", .plain), ("w", .plain), ("storage", .plain),
        ("storage", .dataflow)] := by decide +kernel
  rw [lowered] at names
  have storages : (placed.storageExpansion {}).besides placed.bindings = [⟨1⟩, ⟨2⟩] := by
    decide +kernel
  rw [storages] at once
  exact ⟨g, r, lowered, expands, once ⟨1⟩ (by decide), once ⟨2⟩ (by decide),
    Option.some.inj names⟩

end Builder

end TensorIR
