import TensorIR.Proofs.Demotion
import TensorIR.Proofs.Dominance
import TensorIR.Proofs.Modules
import TensorIR.Proofs.Placement
import TensorIR.Proofs.ShapeHeap.Loads

/-!
# What the standard pipeline leaves behind

The output of the standard pipeline has no dataflow in it, neither blocks nor variables, and no
shape in a value is symbolic.

A builder that is outside of a region and has plain blocks only stays that way under everything that
the passes after fusion do to it (`Builder.Plain`), so the blocks of what they make are plain. For
the variables this is enough: a finished function is well formed, and in a well-formed function with
plain blocks a variable that is defined, and so any that occurs, is plain. The input of the pipeline
need not be well formed for that, since fusion finishes every function already.

The shapes go last. What shape lowering puts in a binding or the body is a value whose symbolic
shapes have all been filled with variables, and a function that it leaves alone has none.
-/

namespace TensorIR

namespace Function

/-- No block is a dataflow block. -/
def PlainBlocks (f : Function) : Prop := ∀ block ∈ f.blocks, block.kind = .plain

/-- The variable is allocated, and it is a plain one. -/
def IsPlain (f : Function) (v : Var) : Prop := ∃ info, f.info v = .ok info ∧ info.kind = .plain

variable {f g : Function} {scope scope' : Scope}

/-- Outside dataflow blocks only plain variables can be defined. -/
theorem isPlain_of_checkDefinition {v : Var}
    (h : f.checkDefinition .plain scope v = .ok scope') : f.IsPlain v := by
  simp only [checkDefinition] at h
  obtain ⟨info, found, h⟩ := bind_eq_ok.1 h
  obtain ⟨-, h⟩ := guard_eq_ok.1 h
  have recorded : f.info v = .ok info := by
    rw [allocated] at found
    rw [Function.info]
    cases at_ : f.vars[v.index]? with
    | none =>
        rw [at_] at found
        cases found
    | some _ =>
        rw [at_] at found
        cases found
        rfl
  refine ⟨info, recorded, ?_⟩
  split at h
  · exact absurd trivial (guard_eq_ok.1 h).1
  · next notDataflow =>
      cases kind : info.kind with
      | plain => rfl
      | dataflow => exact absurd (by rw [VarInfo.isDataflow, kind]; rfl) notDataflow

theorem isPlain_of_checkParams {params : List Var}
    (h : params.foldlM (f.checkDefinition .plain) scope = .ok scope') :
    ∀ v ∈ params, f.IsPlain v := by
  induction params generalizing scope with
  | nil => exact nofun
  | cons v params ih =>
      obtain ⟨mid, first, rest⟩ := foldlM_cons_eq_ok.1 h
      exact List.forall_mem_cons.2 ⟨isPlain_of_checkDefinition first, ih rest⟩

theorem isPlain_of_checkBindings {bs : List Binding}
    (h : bs.foldlM (f.checkBinding .plain) scope = .ok scope') :
    ∀ v ∈ bs.filterMap Binding.defined?, f.IsPlain v := by
  induction bs generalizing scope with
  | nil => exact nofun
  | cons b bs ih =>
      obtain ⟨mid, first, rest⟩ := foldlM_cons_eq_ok.1 h
      rw [defined_cons]
      refine List.forall_mem_append.2 ⟨fun v defines => ?_, ih rest⟩
      simp only [checkBinding, Option.mem_toList.1 defines] at first
      obtain ⟨-, first⟩ := check_bind_eq_ok.1 first
      obtain ⟨-, first⟩ := check_bind_eq_ok.1 first
      exact isPlain_of_checkDefinition first

theorem isPlain_of_checkBlocks {blocks : List Block} {position : Nat}
    (plain : ∀ block ∈ blocks, block.kind = .plain)
    (h : f.checkBlocks position scope blocks = .ok scope') :
    ∀ v ∈ (blocks.flatMap Block.bindings).filterMap Binding.defined?, f.IsPlain v := by
  induction blocks generalizing scope position with
  | nil => exact nofun
  | cons block blocks ih =>
      obtain ⟨here, later⟩ := List.forall_mem_cons.1 plain
      rw [checkBlocks] at h
      obtain ⟨mid, first, rest⟩ := bind_eq_ok.1 h
      simp only [checkBlock, here] at first
      rw [List.flatMap_cons, List.filterMap_append]
      refine List.forall_mem_append.2 ⟨?_, ih later rest⟩
      split at first
      · cases first
      · obtain ⟨after, bindings, -⟩ := bind_eq_ok.1 first
        exact isPlain_of_checkBindings bindings

/-- Every variable that occurs in a well-formed function with plain blocks is plain. -/
theorem isPlain_of_occurrences (wellFormed : f.check = .ok ()) (plain : f.PlainBlocks) {v : Var}
    (occurs : v ∈ f.occurrences) : f.IsPlain v := by
  have defined := occurrences_defined (dominated_of_check wellFormed) occurs
  simp only [check] at wellFormed
  obtain ⟨-, h⟩ := check_bind_eq_ok.1 wellFormed
  obtain ⟨entry, params, h⟩ := bind_eq_ok.1 h
  obtain ⟨last, blocks, body⟩ := bind_eq_ok.1 h
  rcases List.mem_append.1 defined with param | defined
  · exact isPlain_of_checkParams params v param
  · exact isPlain_of_checkBlocks plain blocks v defined

end Function

/-! ### Blocks -/

namespace Builder

/-- A builder outside of any region that has ended plain blocks only. -/
structure Plain (b : Builder) : Prop where
  outside : b.inDataflow = false
  blocks : ∀ block ∈ b.blocks, block.kind = .plain

variable {b b' : Builder}

theorem plain_reopen (f : Function) : (reopen f).Plain := ⟨rfl, nofun⟩

namespace Plain

theorem append (h : b.Plain) (x : Binding) : (b.append x).Plain := ⟨h.outside, h.blocks⟩

theorem fresh (h : b.Plain) (info : VarInfo) : (b.fresh info).1.Plain := ⟨h.outside, h.blocks⟩

theorem emitNamed (h : b.Plain) (name : String) (value : Expr) :
    (b.emitNamed name value).1.Plain :=
  (h.fresh _).append _

theorem endBlock (h : b.Plain) : (b.endBlock .plain).Plain := by
  refine ⟨?_, forall_endBlock h.blocks fun _ => rfl⟩
  rw [inDataflow_endBlock]
  exact h.outside

theorem sealBlock (h : b.Plain) : b.sealBlock.Plain := by
  rw [Builder.sealBlock, h.outside]
  exact h.endBlock

theorem bind (h : b.Plain) {v : Var} {value : Expr} (bound : b.bind v value = .ok b') :
    b'.Plain := by
  rw [bind_eq_ok_append bound]
  exact h.append _

theorem finish (h : b.Plain) {body : Expr} {f : Function} (finished : b.finish body = .ok f) :
    f.PlainBlocks := by
  rw [Function.PlainBlocks, blocks_of_finish h.outside finished]
  exact h.endBlock.blocks

end Plain

end Builder

namespace Emitter

variable {σ : Type} {emit : Emitter σ} {enter : σ → σ} {function : String} {position : Nat}
  {s s' : σ} {b b' : Builder}

/-- Each emission leaves a plain builder plain. -/
def KeepsPlain (emit : Emitter σ) : Prop :=
  ∀ {position x s b s' b'}, b.Plain → emit position x s b = .ok (s', b') → b'.Plain

theorem plain_emitBindings {xs : List Binding} (keeps : emit.KeepsPlain) (plain : b.Plain)
    (emitted : emit.emitBindings position xs s b = .ok (s', b')) : b'.Plain := by
  induction xs generalizing position s b with
  | nil =>
      cases emitted
      exact plain
  | cons x xs ih =>
      obtain ⟨⟨mid, bmid⟩, head, tail⟩ := bind_eq_ok.1 emitted
      exact ih (keeps plain head) tail

/-- Without dataflow blocks no region is opened. -/
theorem plain_emitBlocks {blocks : List Block} (keeps : emit.KeepsPlain)
    (kinds : ∀ block ∈ blocks, block.kind = .plain) (plain : b.Plain)
    (emitted : emit.emitBlocks enter function position blocks s b = .ok (s', b')) : b'.Plain := by
  induction blocks generalizing position s b with
  | nil =>
      cases emitted
      exact plain
  | cons block blocks ih =>
      obtain ⟨here, later⟩ := List.forall_mem_cons.1 kinds
      obtain ⟨⟨mid, bmid⟩, head, tail⟩ := bind_eq_ok.1 emitted
      rw [emitBlock, here] at head
      obtain ⟨⟨inner, binner⟩, inside, same⟩ := bind_eq_ok.1 head
      cases same
      exact ih later (plain_emitBindings keeps plain inside).sealBlock tail

end Emitter

namespace Function

variable {f g : Function} {target : StorageTarget}

theorem plainBlocks_of_demote (h : f.demote = .ok g) : g.PlainBlocks := by
  let invariant : List Binding → Renaming → Builder → Prop := fun _ _ b => b.Plain
  have keeps : Demotion.Keeps f.bindings invariant := by
    intro kind done x rest ρ b ρ' b' _ plain step
    cases step with
    | kept _ => exact plain.append _
    | renamed _ => exact (plain.fresh _).append _
  obtain ⟨ρ, b, plain, finished⟩ :=
    demote_invariant keeps Builder.Plain.sealBlock (Builder.plain_reopen f) h
  exact plain.finish finished

theorem plainBlocks_of_replaceBindings {emit : Nat → Binding → Builder → Lowered Builder}
    (keeps : ∀ {position x b b'}, b.Plain → emit position x b = .ok b' → b'.Plain)
    (plain : f.PlainBlocks) (h : f.replaceBindings emit = .ok g) : g.PlainBlocks := by
  simp only [replaceBindings] at h
  obtain ⟨⟨⟨⟩, b⟩, emitted, finished⟩ := bind_eq_ok.1 h
  have last := Emitter.plain_emitBlocks (fun plain one => keeps plain (map_unit_eq_ok.1 one)) plain
    (Builder.plain_reopen f) emitted
  exact last.finish (building_eq_ok.1 finished)

theorem plainBlocks_of_allocateOutputs (plain : f.PlainBlocks) (h : f.allocateOutputs = .ok g) :
    g.PlainBlocks := by
  refine plainBlocks_of_replaceBindings (fun {position x b b'} plain emitted => ?_) plain h
  cases DpsCall.step_of_emitted emitted with
  | kept _ => exact plain.append _
  | split _ _ _ => exact (plain.append _).emitNamed _ _

theorem plainBlocks_of_placeTensors (plain : f.PlainBlocks) (h : f.placeTensors target = .ok g) :
    g.PlainBlocks := by
  refine plainBlocks_of_replaceBindings (fun {position x b b'} plain emitted => ?_) plain h
  cases StorageTarget.step_of_emitted emitted with
  | kept _ _ => exact plain.append _
  | placed _ _ _ => exact (plain.emitNamed _ _).append _
  | direct _ _ _ => exact plain.append _

end Function

/-! ### Shapes -/

namespace Expr

variable {e : Expr}

theorem symbolicShapes_annotate (vars : List VarInfo) (e : Expr) :
    (e.annotate vars).symbolicShapes = e.symbolicShapes := by
  cases e with
  | call head args => rfl
  | var _ | shape _ | tuple _ | item _ _ | const _ | external _ | global _ => rfl

mutual

/-- With a variable for each symbolic shape no symbolic shape is left. -/
theorem symbolicShapes_fill {vs : List Var} : ∀ e : Expr,
    vs.length = e.symbolicShapes.length → (e.fill vs).symbolicShapes = []
  | .shape s, h => by
      rw [symbolicShapes] at h
      rw [fill]
      split at h
      · next symbolic =>
          obtain ⟨v, rfl⟩ := List.length_eq_one_iff.1 h
          rw [if_pos symbolic]
          rfl
      · next literal => rw [if_neg literal, symbolicShapes, if_neg literal]
  | .tuple es, h => by
      rw [symbolicShapes] at h
      rw [fill, symbolicShapes, symbolicShapesAll_fillAll es h]
  | .item t _, h => by
      rw [symbolicShapes] at h
      rw [fill, symbolicShapes, symbolicShapes_fill t h]
  | .call _ es, h => by
      rw [symbolicShapes] at h
      rw [fill, symbolicShapes, symbolicShapesAll_fillAll es h]
  | .var _, _ | .const _, _ | .external _, _ | .global _, _ => by rw [fill, symbolicShapes]

theorem symbolicShapesAll_fillAll {vs : List Var} : ∀ es : List Expr,
    vs.length = (symbolicShapesAll es).length → symbolicShapesAll (fillAll vs es) = []
  | [], _ => by rw [fillAll, symbolicShapesAll]
  | e :: es, h => by
      rw [symbolicShapesAll, List.length_append] at h
      obtain ⟨front, back, rfl, frontLength⟩ :
          ∃ front back, vs = front ++ back ∧ front.length = e.symbolicShapes.length :=
        ⟨_, _, (List.take_append_drop e.symbolicShapes.length vs).symm,
          by rw [List.length_take]; omega⟩
      rw [List.length_append] at h
      rw [fillAll_cons back es frontLength, symbolicShapesAll, symbolicShapes_fill e frontLength,
        symbolicShapesAll_fillAll es (by omega), List.append_nil]

end

theorem mem_symbolicShapes {s : Shape} (symbolic : s.isSymbolic = true) :
    .shape s ∈ e.subexprs → s ∈ e.symbolicShapes := by
  induction e using Expr.induction with
  | var _ | const _ | external _ | global _ =>
      intro mem
      cases List.mem_singleton.1 mem
  | shape t =>
      intro mem
      cases List.mem_singleton.1 mem
      rw [symbolicShapes, if_pos symbolic]
      exact List.mem_singleton_self s
  | item t i ih =>
      intro mem
      rcases List.mem_append.1 mem with mem | mem
      · exact ih mem
      · cases List.mem_singleton.1 mem
  | tuple es ih | call _ es ih =>
      intro mem
      rcases List.mem_append.1 mem with mem | mem
      · rw [subexprsAll_eq_flatMap, List.mem_flatMap] at mem
        obtain ⟨e, inList, mem⟩ := mem
        rw [symbolicShapes, symbolicShapesAll_eq_flatMap, List.mem_flatMap]
        exact ⟨e, inList, ih e inList mem⟩
      · cases List.mem_singleton.1 mem

end Expr

theorem Shape.isSymbolic_eq_false {s : Shape} :
    s.isSymbolic = false ↔ ∀ d ∈ s, ∃ n, d = .int n := by
  rw [isSymbolic, List.any_eq_false]
  refine forall₂_congr fun d _ => ?_
  cases d with
  | int n => simp [Dim.literal?]
  | var _ | binary _ _ _ => simp [Dim.literal?]

theorem Function.mem_nodes_expr {f : Function} {e : Expr} :
    .expr e ∈ f.nodes ↔ (∃ b ∈ f.bindings, e ∈ b.value.subexprs) ∨ e ∈ f.body.subexprs := by
  simp only [nodes, Block.nodes, Binding.nodes, bindings, List.mem_append, List.mem_map,
    List.mem_flatMap, List.mem_singleton, reduceCtorEq, and_false, exists_false, false_or,
    or_false, Node.expr.injEq, exists_eq_right, Option.mem_toList, Option.map_eq_some_iff]
  refine or_congr_left ⟨?_, ?_⟩
  · rintro ⟨block, inFunction, b, inBlock, part⟩
    exact ⟨b, ⟨block, inFunction, inBlock⟩, part⟩
  · rintro ⟨b, ⟨block, inFunction, inBlock⟩, part⟩
    exact ⟨block, inFunction, b, inBlock, part⟩

/-- A function without symbolic shapes has literal shapes in its values only. -/
theorem Function.literal_of_mem_nodes {f : Function} (none : f.symbolicShapes = []) {s : Shape}
    (mem : .expr (.shape s) ∈ f.nodes) : ∀ d ∈ s, ∃ n, d = .int n := by
  rw [← Shape.isSymbolic_eq_false, Bool.eq_false_iff]
  intro symbolic
  have listed : s ∈ f.symbolicShapes := by
    rw [symbolicShapes, List.mem_append, List.mem_flatMap]
    rcases mem_nodes_expr.1 mem with ⟨b, inBindings, part⟩ | part
    · exact .inl ⟨b, inBindings, Expr.mem_symbolicShapes symbolic part⟩
    · exact .inr (Expr.mem_symbolicShapes symbolic part)
  rw [none] at listed
  cases listed

/-- A plain builder that has emitted no symbolic shape. -/
structure Builder.Concrete (b : Builder) : Prop extends b.Plain where
  values : ∀ x ∈ b.bindings, x.value.symbolicShapes = []

namespace Builder.Concrete

variable {b b' : Builder} {e : Expr}

theorem append (h : b.Concrete) {x : Binding} (value : x.value.symbolicShapes = []) :
    (b.append x).Concrete := by
  refine ⟨h.toPlain.append x, ?_⟩
  rw [bindings_append]
  exact List.forall_mem_append.2 ⟨h.values, List.forall_mem_singleton.2 value⟩

theorem emitNamed (h : b.Concrete) (name : String) (value : e.symbolicShapes = []) :
    (b.emitNamed name e).1.Concrete := by
  refine ⟨h.toPlain.emitNamed name e, ?_⟩
  rw [bindings_emitNamed]
  refine List.forall_mem_append.2 ⟨h.values, List.forall_mem_singleton.2 ?_⟩
  exact (Expr.symbolicShapes_annotate b.vars e).trans value

theorem sealBlock (h : b.Concrete) : b.sealBlock.Concrete := by
  refine ⟨h.toPlain.sealBlock, ?_⟩
  rw [bindings_sealBlock]
  exact h.values

theorem bind (h : b.Concrete) {v : Var} (value : e.symbolicShapes = [])
    (bound : b.bind v e = .ok b') : b'.Concrete := by
  rw [bind_eq_ok_append bound]
  exact h.append ((Expr.symbolicShapes_annotate b.vars e).trans value)

end Builder.Concrete

namespace ShapeHeap

variable {cx : Context} {st st' : State}

namespace State

theorem concrete_emit (h : st.builder.Concrete) (name : String) {call : Expr}
    (value : call.symbolicShapes = []) : (st.emit name call).1.builder.Concrete :=
  h.emitNamed name value

theorem concrete_store (h : st.builder.Concrete) {shape : Expr} (value : shape.symbolicShapes = [])
    (new : List (Nat × DimVar)) : (st.store cx shape new).builder.Concrete := by
  refine concrete_emit h "_" ?_
  rw [Expr.ofOp, Expr.symbolicShapes, Expr.symbolicShapesAll_eq_flatMap, List.flatMap_cons, value]
  rfl

theorem concrete_queryShape (h : st.builder.Concrete) {tensor : Expr}
    (value : tensor.symbolicShapes = []) : (st.queryShape tensor).1.builder.Concrete := by
  refine concrete_emit h "sh" ?_
  rw [Expr.ofCallee, Expr.symbolicShapes, Expr.symbolicShapesAll_eq_flatMap, List.flatMap_cons,
    value]
  rfl

theorem concrete_refresh (h : st.builder.Concrete) : (st.refresh cx).builder.Concrete := by
  rw [refresh]
  split
  · exact h
  · have ended : ({ st with builder := st.builder.sealBlock } : State).builder.Concrete :=
      h.sealBlock
    exact concrete_emit ended "_" rfl

theorem concrete_load (h : st.builder.Concrete) {s : Shape} {v : Var}
    (loaded : st.load cx s = .ok (st', v)) : st'.builder.Concrete := by
  rw [load] at loaded
  split at loaded
  · obtain ⟨_, _, thrown⟩ := bind_eq_ok.1 loaded
    cases thrown
  · have refreshed : (if st.isStale s then st.refresh cx else st).builder.Concrete := by
      split
      · exact concrete_refresh h
      · exact h
    cases loaded
    exact concrete_emit refreshed "shape" rfl

theorem concrete_loadAll {ss : List Shape} {vs : List Var} (h : st.builder.Concrete)
    (loaded : loadAll cx ss st = .ok (st', vs)) : st'.builder.Concrete := by
  induction ss generalizing st vs with
  | nil =>
      cases loaded
      exact h
  | cons s ss ih =>
      rw [loadAll] at loaded
      obtain ⟨⟨mid, v⟩, head, loaded⟩ := bind_eq_ok.1 loaded
      obtain ⟨⟨last, vs'⟩, tail, loaded⟩ := bind_eq_ok.1 loaded
      cases loaded
      exact ih (concrete_load h head) tail

/-- A lowered expression has no symbolic shape left, and neither have the loads that it reads. -/
theorem concrete_lowerExpr {e e' : Expr} (h : st.builder.Concrete)
    (lowered : lowerExpr cx e st = .ok (st', e')) :
    st'.builder.Concrete ∧ e'.symbolicShapes = [] := by
  rw [lowerExpr_eq] at lowered
  obtain ⟨⟨last, vs⟩, loaded, same⟩ := bind_eq_ok.1 lowered
  cases same
  exact ⟨concrete_loadAll h loaded, Expr.symbolicShapes_fill e (length_loadAll loaded)⟩

theorem concrete_bind {v : Var} {value : Expr} (h : st.builder.Concrete)
    (literal : value.symbolicShapes = []) (bound : st.bind cx v value = .ok st') :
    st'.builder.Concrete := by
  rw [bind] at bound
  obtain ⟨b, built, same⟩ := bind_eq_ok.1 bound
  cases same
  exact h.bind literal (building_eq_ok.1 built)

theorem concrete_storePattern (h : st.builder.Concrete) {value : Expr} {pattern : Shape}
    (literal : value.symbolicShapes = []) :
    (st.storePattern cx value pattern).builder.Concrete := by
  rw [storePattern]
  split
  · exact h
  · split
    · exact concrete_store h literal _
    · exact concrete_store (concrete_queryShape h literal) rfl _

theorem concrete_storeParam {v : Var} (h : st.builder.Concrete)
    (stored : st.storeParam cx v = .ok st') : st'.builder.Concrete := by
  rw [storeParam] at stored
  obtain ⟨info, -, stored⟩ := bind_eq_ok.1 stored
  split at stored
  · cases stored
    exact h
  · cases stored
    exact concrete_store (concrete_queryShape h rfl) rfl _

theorem concrete_lowerBinding {x : Binding} (h : st.builder.Concrete)
    (lowered : st.lowerBinding cx x = .ok st') : st'.builder.Concrete := by
  rw [lowerBinding] at lowered
  obtain ⟨-, lowered⟩ := check_bind_eq_ok.1 lowered
  obtain ⟨⟨mid, value⟩, inner, lowered⟩ := bind_eq_ok.1 lowered
  obtain ⟨concrete, literal⟩ := concrete_lowerExpr h inner
  cases x with
  | define v e => exact concrete_bind concrete literal lowered
  | matchShape v? e pattern =>
      cases v? with
      | some v => exact concrete_bind (concrete_storePattern concrete literal) literal lowered
      | none =>
          cases lowered
          exact concrete_storePattern concrete literal

end State

theorem concrete_start (f : Function) (layout : HeapLayout) :
    (start f layout).1.builder.Concrete := by
  have opened : (Builder.reopen f).Concrete := ⟨Builder.plain_reopen f, nofun⟩
  refine (opened.emitNamed "shape_heap" ?_).sealBlock
  rw [Expr.ofCallee, Expr.symbolicShapes, Expr.symbolicShapesAll, Expr.symbolicShapes, if_neg]
  · rfl
  · rw [Shape.ofInts]
    exact Bool.not_eq_true _ ▸ rfl

theorem concrete_lower {f g : Function} {layout : HeapLayout} {shapeFunction : Option String}
    (lowered : lower f layout shapeFunction = .ok g) :
    g.PlainBlocks ∧ g.symbolicShapes = [] := by
  simp only [lower] at lowered
  obtain ⟨st₁, params, lowered⟩ := bind_eq_ok.1 lowered
  obtain ⟨st₂, bindings, lowered⟩ := bind_eq_ok.1 lowered
  obtain ⟨⟨st₃, body⟩, ofBody, lowered⟩ := bind_eq_ok.1 lowered
  have h₁ := foldlM_keeps (P := fun st : State => st.builder.Concrete)
    (fun _ => State.concrete_storeParam) (concrete_start f layout) params
  have h₂ := foldlM_keeps (P := fun st : State => st.builder.Concrete)
    (fun _ => State.concrete_lowerBinding) h₁ bindings
  have ended : ({ st₂ with builder := st₂.builder.sealBlock } : State).builder.Concrete :=
    h₂.sealBlock
  obtain ⟨h₃, literal⟩ := State.concrete_lowerExpr ended ofBody
  have finished := building_eq_ok.1 lowered
  obtain ⟨same, sameBody, -⟩ := Builder.finish_eq_ok finished
  refine ⟨h₃.toPlain.finish finished, ?_⟩
  rw [Function.symbolicShapes, same, sameBody, literal, List.append_nil]
  exact List.flatMap_eq_nil_iff.2 h₃.values

variable {base : String} {taken : List String} {f g : Function} {needed : Option HeapFunction}

theorem symbolicShapes_of_lowerFunction
    (lowered : lowerFunction base taken f = .ok (g, needed)) : g.symbolicShapes = [] := by
  obtain ⟨none, rfl⟩ | ⟨_, _, lowering⟩ := Function.lowered_of_lowerFunction lowered
  · exact none
  · exact (concrete_lower lowering).2

theorem concrete_lowerFunction (plain : f.PlainBlocks)
    (lowered : lowerFunction base taken f = .ok (g, needed)) :
    g.PlainBlocks ∧ g.symbolicShapes = [] := by
  refine ⟨?_, symbolicShapes_of_lowerFunction lowered⟩
  obtain ⟨-, rfl⟩ | ⟨_, _, lowering⟩ := Function.lowered_of_lowerFunction lowered
  · exact plain
  · exact (concrete_lower lowering).1

end ShapeHeap

namespace Pipeline

variable {config : Config} {m m' : Module} {g : Function}

/-- What the standard pipeline makes of a module, well formed or not, has plain blocks, plain
variables and literal shapes only. -/
theorem standard_plain (h : (standard config).run m = .ok m') (mem : g ∈ m'.functions) :
    (∀ block ∈ g.blocks, block.kind = .plain) ∧ (∀ v ∈ g.occurrences, g.IsPlain v) ∧
      ∀ s, .expr (.shape s) ∈ g.nodes → ∀ d ∈ s, ∃ n, d = .int n := by
  obtain ⟨m₁, m₂, m₃, m₄, fused, demoted, allocated, placed, lowered⟩ := standard_eq_ok h
  obtain ⟨key, found⟩ := Module.mem_functions.1 mem
  obtain ⟨f₄, taken, needed, found₄, lowering⟩ := Module.get?_of_heapShapes lowered found
  obtain ⟨f₃, found₃, placing⟩ := Module.get?_of_mapFunctions placed found₄
  obtain ⟨f₂, found₂, allocating⟩ := Module.get?_of_mapFunctions allocated found₃
  obtain ⟨f₁, found₁, demoting⟩ := Module.get?_of_mapFunctions demoted found₂
  have plain₂ := Function.plainBlocks_of_demote demoting
  have plain₃ := Function.plainBlocks_of_allocateOutputs plain₂ allocating
  have plain₄ := Function.plainBlocks_of_placeTensors plain₃ placing
  obtain ⟨plain, literal⟩ := ShapeHeap.concrete_lowerFunction plain₄ lowering
  have wellFormed :=
    Function.check_of_lowerFunction (Function.check_of_replaceBindings placing) lowering
  exact ⟨plain, fun v occurs => Function.isPlain_of_occurrences wellFormed plain occurs,
    fun s => Function.literal_of_mem_nodes literal⟩

/-- A function with a dataflow block and symbolic shapes:

    lv = multiply(x, x)
    y = call_dps((n,), extern("double"), (lv,))
    (y, (n * 2,))
-/
def doubledSquare : Function where
  name := "main"
  params := [⟨0⟩]
  blocks := [⟨.dataflow, [
    .define ⟨1⟩ (.ofOp .multiply [.var ⟨0⟩, .var ⟨0⟩]),
    .define ⟨2⟩ (.ofOp .callDps [.shape [.var ⟨0⟩], .external "double", .tuple [.var ⟨1⟩]])]⟩]
  body := .tuple [.var ⟨2⟩, .shape [.binary .mul (.var ⟨0⟩) (.int 2)]]
  retTy := none
  vars := [⟨"x", .plain, some [.var ⟨0⟩], some (.tensor (some 1) .float32)⟩,
    ⟨"lv", .dataflow, none, none⟩, ⟨"y", .plain, none, none⟩]
  dimNames := ["n"]

/-- The module of this function alone. -/
def doubledSquareModule : Module := .ofEntries [("main", .function doubledSquare)]

theorem doubledSquare_lowers : ∃ m' g, (standard {}).run doubledSquareModule = .ok m' ∧
    m'.get? "main" = some (.function g) :=
  Module.exists_function (by decide +kernel)

theorem standard_plain_doubledSquare :
    ∃ m' g, (standard {}).run doubledSquareModule = .ok m' ∧ g ∈ m'.functions ∧
      (∀ block ∈ g.blocks, block.kind = .plain) ∧ (∀ v ∈ g.occurrences, g.IsPlain v) ∧
        ∀ s, .expr (.shape s) ∈ g.nodes → ∀ d ∈ s, ∃ n, d = .int n := by
  obtain ⟨m', g, ran, found⟩ := doubledSquare_lowers
  have mem : g ∈ m'.functions := Module.mem_functions.2 ⟨"main", found⟩
  exact ⟨m', g, ran, mem, standard_plain ran mem⟩

end Pipeline

end TensorIR
