import TensorIR.Proofs.Driving
import TensorIR.Proofs.Plain

/-!
# Passes only add

A pass never changes what an identifier stands for. Whatever list of passes a module goes through,
its names stay in front and in order, its heap functions stay as they are, and each of its functions
keeps its own name, its parameters, its return type and its dimension variables, and in front of its
list of variables all that was recorded before (`Pipeline.run_extends`).

For one function this is an invariant of the builder that the function is reopened in, kept by each
operation, so it does not matter which operations a pass performs. For a module it is a preorder,
which each pass is contained in, and so is a list of passes.
-/

namespace TensorIR

/-- The function `g` has all identifiers of `f`, with the same meaning. -/
structure Function.Extends (g f : Function) : Prop where
  name : g.name = f.name
  params : g.params = f.params
  retTy : g.retTy = f.retTy
  dimNames : g.dimNames = f.dimNames
  vars : f.vars <+: g.vars

/-- A builder of a function that will have all identifiers of `f`, with the same meaning. -/
structure Builder.Extends (b : Builder) (f : Function) : Prop where
  name : b.name = f.name
  params : b.params = f.params
  retTy : b.retTy = f.retTy
  dimNames : b.dimNames = f.dimNames
  vars : f.vars <+: b.vars

namespace Builder

variable {b b' : Builder} {f g : Function}

theorem extends_reopen (f : Function) : (reopen f).Extends f :=
  ⟨rfl, rfl, rfl, rfl, List.prefix_rfl⟩

namespace Extends

theorem endBlock (h : b.Extends f) (kind : BlockKind) : (b.endBlock kind).Extends f := by
  rw [Builder.endBlock]
  split
  · exact h
  · exact ⟨h.name, h.params, h.retTy, h.dimNames, h.vars⟩

theorem append (h : b.Extends f) (x : Binding) : (b.append x).Extends f :=
  ⟨h.name, h.params, h.retTy, h.dimNames, h.vars⟩

theorem fresh (h : b.Extends f) (info : VarInfo) : (b.fresh info).1.Extends f :=
  ⟨h.name, h.params, h.retTy, h.dimNames, h.vars.trans (List.prefix_append _ _)⟩

theorem openRegion (h : b.Extends f) (opened : b.openRegion = .ok b') : b'.Extends f := by
  rw [Builder.openRegion] at opened
  split at opened
  · cases opened
  · cases opened
    have ended := h.endBlock .plain
    exact ⟨ended.name, ended.params, ended.retTy, ended.dimNames, ended.vars⟩

theorem closeRegion (h : b.Extends f) : b.closeRegion.1.Extends f := by
  rw [Builder.closeRegion]
  split
  · have ended := h.endBlock .dataflow
    exact ⟨ended.name, ended.params, ended.retTy, ended.dimNames, ended.vars⟩
  · exact h

theorem sealBlock (h : b.Extends f) : b.sealBlock.Extends f := by
  rw [Builder.sealBlock]
  split
  · exact h
  · exact h.endBlock .plain

theorem finish (h : b.Extends f) {body : Expr} (finished : b.finish body = .ok g) :
    g.Extends f := by
  obtain ⟨-, -, rfl, -⟩ := finish_eq_ok_iff.1 finished
  have ended := h.closeRegion.endBlock .plain
  exact ⟨ended.name, ended.params, ended.retTy, ended.dimNames, ended.vars⟩

end Extends

theorem kept_extends (f : Function) : Kept (·.Extends f) where
  push h pushed := by
    rw [push_eq_ok_append pushed]
    exact h.append _
  fresh info h := h.fresh info
  emitNamed _ _ h := (h.fresh _).append _
  openRegion := Extends.openRegion
  closeRegion h _ := h.closeRegion
  sealBlock := Extends.sealBlock

end Builder

/-! ### Functions -/

namespace Function

variable {f g h : Function}

theorem Extends.refl (f : Function) : f.Extends f := ⟨rfl, rfl, rfl, rfl, List.prefix_rfl⟩

theorem Extends.trans (later : h.Extends g) (earlier : g.Extends f) : h.Extends f where
  name := later.name.trans earlier.name
  params := later.params.trans earlier.params
  retTy := later.retTy.trans earlier.retTy
  dimNames := later.dimNames.trans earlier.dimNames
  vars := earlier.vars.trans later.vars

/-- What is recorded of a variable stays on record. -/
theorem Extends.info (grown : g.Extends f) {v : Var} {info : VarInfo}
    (known : f.info v = .ok info) :
    g.info v = .ok info := by
  obtain ⟨more, vars⟩ := grown.vars
  rw [Function.info] at known ⊢
  cases found : f.vars[v.index]? with
  | none =>
      rw [found] at known
      cases known
  | some recorded =>
      have allocated := (List.getElem?_eq_some_iff.1 found).1
      rwa [← vars, List.getElem?_append_left allocated]

/-- What a builder hands out extends the function that was reopened in it, if that is all that is
known of the operations in between. -/
theorem extends_of_finish
    (driven : ∃ (b : Builder) (body : Expr), b.Extends f ∧ b.finish body = .ok g) :
    g.Extends f := by
  obtain ⟨b, body, grown, finished⟩ := driven
  exact grown.finish finished

theorem extends_of_lowerFunction {base : String} {taken : List String}
    {needed : Option HeapFunction}
    (lowered : ShapeHeap.lowerFunction base taken f = .ok (g, needed)) : g.Extends f := by
  obtain ⟨-, rfl⟩ | ⟨layout, shapeFunction, lowering⟩ := lowered_of_lowerFunction lowered
  · exact .refl _
  · exact extends_of_finish ((Builder.kept_extends f).lower (Builder.extends_reopen f) lowering)

end Function

/-! ### Modules -/

namespace Module

/-- The module `m'` has all definitions of `m` under their names and in their order, heap functions
as they were and functions with all of their identifiers. -/
structure Extends (m' m : Module) : Prop where
  names : m.names <+: m'.names
  heapFunctions : ∀ key fn, m.get? key = some (.heapFunction fn) →
    m'.get? key = some (.heapFunction fn)
  functions : ∀ key f, m.get? key = some (.function f) →
    ∃ g, m'.get? key = some (.function g) ∧ g.Extends f

variable {m m' m'' : Module}

theorem Extends.refl (m : Module) : m.Extends m :=
  ⟨List.prefix_rfl, fun _ _ found => found, fun _ f found => ⟨f, found, .refl f⟩⟩

theorem Extends.trans (later : m''.Extends m') (earlier : m'.Extends m) : m''.Extends m where
  names := earlier.names.trans later.names
  heapFunctions key fn found := later.heapFunctions key fn (earlier.heapFunctions key fn found)
  functions key f found := by
    obtain ⟨g, foundNext, once⟩ := earlier.functions key f found
    obtain ⟨h, foundLast, twice⟩ := later.functions key g foundNext
    exact ⟨h, foundLast, twice.trans once⟩

/-- Definitions that are related to those of a module by an extension, and then any others. -/
theorem extends_of_related {R : Function → Function → Prop} {lowered rest : List (String × Item)}
    (grows : ∀ f g, R f g → g.Extends f) (related : Entries.Related R m.entries lowered)
    (all : m'.entries = lowered ++ rest) : m'.Extends m where
  names := by
    rw [names, names, all, List.map_append, related.keys]
    exact List.prefix_append _ _
  heapFunctions key fn found := by
    rw [get?_eq_some_iff] at found ⊢
    rw [all]
    exact List.mem_append_left _ (related.mem_heapFunction found)
  functions key f found := by
    obtain ⟨g, mem, is⟩ := related.mem_left (get?_eq_some_iff.1 found)
    refine ⟨g, get?_eq_some_iff.2 ?_, grows f g is⟩
    rw [all]
    exact List.mem_append_left _ mem

theorem extends_of_mapFunctions {lower : Function → Lowered Function}
    (grows : ∀ f g, lower f = .ok g → g.Extends f) (h : m.mapFunctions lower = .ok m') :
    m'.Extends m :=
  extends_of_related grows (mapFunctions_eq_ok h) (List.append_nil _).symm

theorem extends_of_heapShapes {base : String} (h : m.heapShapes base = .ok m') :
    m'.Extends m := by
  obtain ⟨lowered, generated, entries, all⟩ := entries_heapShapes h
  refine extends_of_related (fun f g lowering => ?_) (lowerEntries_related entries) all
  obtain ⟨taken, needed, lowering⟩ := lowering
  exact Function.extends_of_lowerFunction lowering

end Module

/-! ### Passes -/

theorem Pass.extends_of_run {pass : Pass} {m m' : Module} (h : pass.run m = .ok m') :
    m'.Extends m := by
  have kept := Builder.kept_extends
  have start := Builder.extends_reopen
  cases pass with
  | fusion =>
      refine Module.extends_of_mapFunctions (fun f g fused => ?_) h
      exact Function.extends_of_finish ((kept f).fuse (start f) fused)
  | demotion =>
      refine Module.extends_of_mapFunctions (fun f g demoted => ?_) h
      exact Function.extends_of_finish ((kept f).demote (start f) demoted)
  | destinations =>
      refine Module.extends_of_mapFunctions (fun f g allocated => ?_) h
      exact Function.extends_of_finish ((kept f).allocateOutputs (start f) allocated)
  | storage target =>
      refine Module.extends_of_mapFunctions (fun f g placed => ?_) h
      exact Function.extends_of_finish ((kept f).placeTensors (start f) placed)
  | shapeHeap base => exact Module.extends_of_heapShapes h

namespace Pipeline

variable {p : Pipeline} {m m' : Module}

/-- Any list of passes, in any order and with any settings, only adds to a module. In particular
every variable of each of its functions has the record that it had. -/
theorem run_extends (h : p.run m = .ok m') :
    m'.Extends m ∧ ∀ key f g, m.get? key = some (.function f) → m'.get? key = some (.function g) →
      g.Extends f ∧ ∀ v info, f.info v = .ok info → g.info v = .ok info := by
  have grown : m'.Extends m := by
    refine foldlM_keeps (P := fun m' => m'.Extends m) (fun {m₁ pass m₂} _ before ran => ?_)
      (.refl m) h
    exact (Pass.extends_of_run (run_of_runPass ran)).trans before
  refine ⟨grown, fun key f g found foundLast => ?_⟩
  obtain ⟨g', found', extended⟩ := grown.functions key f found
  rw [found'] at foundLast
  cases foundLast
  exact ⟨extended, fun v info => extended.info⟩

/-- Passes out of their standard order, some of them twice. -/
def shuffled : Pipeline where
  config := { verifyEach := true }
  passes := [.demotion, .fusion, .destinations, .demotion, .storage { alignment := 32 },
    .shapeHeap "shape_func", .fusion, .shapeHeap "shape_func"]

/-- A function with symbolic shapes, and a heap function under the name that lowering would use. -/
def doubledSquareAndHeap : Module := .ofEntries
  [("main", .function doubledSquare), ("shape_func", .heapFunction ⟨"shape_func", 1, []⟩)]

theorem run_extends_shuffled : ∃ m' g, shuffled.run doubledSquareAndHeap = .ok m' ∧
    m'.Extends doubledSquareAndHeap ∧ m'.get? "main" = some (.function g) ∧
    g.info ⟨1⟩ = .ok ⟨"lv", .dataflow, none, none⟩ := by
  obtain ⟨m', g, ran, found⟩ : ∃ m' g, shuffled.run doubledSquareAndHeap = .ok m' ∧
      m'.get? "main" = some (.function g) :=
    Module.exists_function (by decide +kernel)
  obtain ⟨grown, known⟩ := run_extends ran
  have recorded := (known "main" doubledSquare g (by decide +kernel) found).2
  exact ⟨m', g, ran, grown, found, recorded ⟨1⟩ _ (by decide +kernel)⟩

end Pipeline

end TensorIR
