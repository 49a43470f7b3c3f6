import TensorIR.Lowering.ShapeHeap
import TensorIR.Proofs.Alpha.Building

/-!
# Shape lowering on functions alike

Lowering keeps lists of dimension variables and of dimensions: the slots of the heap, what is stored
and what is current. Of two functions alike these lists hold partners in the same places, so that
the slots of partners are the same numbers, the same shapes are loaded at the same times, and the
heap functions that are generated are equal.
-/

namespace TensorIR

open Relator

variable {κ : Correspondence} {f g : Function}

/-! ### The layout -/

theorem Expr.Alike.symbolicShapes {e e' : Expr} (h : Expr.Alike κ e e') :
    List.Forall₂ (Shape.Alike κ) e.symbolicShapes e'.symbolicShapes := by
  have ofAll {es fs : List Expr}
      (ih : List.Forall₂ (fun e e' => List.Forall₂ (Shape.Alike κ) e.symbolicShapes
        e'.symbolicShapes) es fs) :
      List.Forall₂ (Shape.Alike κ) (symbolicShapesAll es) (symbolicShapesAll fs) := by
    rw [symbolicShapesAll_eq_flatMap, symbolicShapesAll_eq_flatMap]
    exact List.rel_flatMap ih fun _ _ h => h
  refine h.induction ?var ?shape ?tuple ?item ?const ?external ?global ?call
  case shape =>
    intro s t alike
    rw [Expr.symbolicShapes, Expr.symbolicShapes, alike.isSymbolic]
    exact rel_ite Iff.rfl (.cons alike .nil) .nil
  case tuple => exact fun _ _ _ ih => ofAll ih
  case item => exact fun _ _ _ _ ih => ih
  case call => exact fun _ _ _ _ _ _ ih => ofAll ih
  case var => exact fun _ _ _ => .nil
  case const | external | global => exact fun _ => .nil

theorem Function.Alike.symbolicShapes (h : Function.Alike κ f g) :
    List.Forall₂ (Shape.Alike κ) f.symbolicShapes g.symbolicShapes :=
  List.rel_append (List.rel_flatMap h.bindings fun _ _ alike => alike.value.symbolicShapes)
    h.body.symbolicShapes

namespace HeapLayout

/-- The layouts have slots for corresponding variables and for dimensions that are alike, in the
same places. -/
structure Alike (κ : Correspondence) (l m : HeapLayout) : Prop where
  vars : List.Forall₂ κ.dims l.vars m.vars
  computed : List.Forall₂ (Dim.Alike κ) l.computed m.computed

namespace Alike

variable {l m : HeapLayout}

theorem size (h : HeapLayout.Alike κ l m) : l.size = m.size := by
  rw [HeapLayout.size, HeapLayout.size, h.vars.length_eq, h.computed.length_eq]

theorem varSlot (h : HeapLayout.Alike κ l m) {v w : DimVar} (paired : κ.dims v w) :
    l.varSlot v = m.varSlot w :=
  rel_idxOf κ.dims_unique h.vars paired

theorem slot (h : HeapLayout.Alike κ l m) {d d' : Dim} (alike : Dim.Alike κ d d') :
    l.slot d = m.slot d' := by
  have computed := rel_idxOf (Dim.alike_unique κ) h.computed alike
  cases alike with
  | var paired => exact h.varSlot paired
  | int _ | binary _ _ _ =>
      rw [HeapLayout.slot, HeapLayout.slot, h.vars.length_eq, computed]
      · rintro v ⟨⟩
      · rintro v ⟨⟩

theorem toHeap (h : HeapLayout.Alike κ l m) {d d' : Dim} (alike : Dim.Alike κ d d') :
    l.toHeap d = m.toHeap d' := by
  induction alike with
  | int _ => rfl
  | var paired => rw [HeapLayout.toHeap, HeapLayout.toHeap, h.varSlot paired]
  | binary op _ _ ihl ihr => rw [HeapLayout.toHeap, HeapLayout.toHeap, ihl, ihr]

theorem heapFunction (h : HeapLayout.Alike κ l m) (name : String) :
    l.heapFunction name = m.heapFunction name := by
  have body : l.computed.map (fun d => (⟨l.slot d, l.toHeap d⟩ : HeapAssign)) =
      m.computed.map fun d => ⟨m.slot d, m.toHeap d⟩ :=
    map_eq_map (h.computed.imp fun d d' alike => by rw [h.slot alike, h.toHeap alike])
  rw [HeapLayout.heapFunction, HeapLayout.heapFunction, h.size, body]

end Alike

theorem alike_bound {s t : Shape} (h : Shape.Alike κ s t) :
    List.Forall₂ κ.dims (bound s) (bound t) := by
  have each : LiftFun (Dim.Alike κ) (Option.Rel κ.dims) Dim.asVar? Dim.asVar? :=
    fun _ _ => Dim.Alike.asVar?
  exact List.rel_filterMap each h

theorem agree_paramShapes (h : Function.Alike κ f g) {vs ws : List Var}
    (params : List.Forall₂ κ.vars vs ws) :
    Agree (List.Forall₂ (Shape.Alike κ)) (paramShapes f vs) (paramShapes g ws) := by
  induction params with
  | nil => exact .ok .nil
  | cons paired _ ih =>
      exact (h.info paired).mapError.bind fun _ _ info => ih.bind fun _ _ shapes =>
        .ok (.cons (Shape.alike_getD info.shape) shapes)

theorem agree_plan (h : Function.Alike κ f g) {ss ts : List Shape}
    (shapes : List.Forall₂ (Shape.Alike κ) ss ts) :
    Agree (HeapLayout.Alike κ) (plan f ss) (plan g ts) := by
  refine (agree_paramShapes h h.params).bind fun params params' alike => ?_
  have each : LiftFun (Binding.Alike κ) (Option.Rel (Shape.Alike κ)) Binding.pattern?
      Binding.pattern? := fun _ _ => Binding.Alike.pattern?
  have patterns := List.rel_filterMap each h.bindings
  have slots := rel_eraseDups κ.dims_unique _ _
    (List.rel_flatMap (List.rel_append alike patterns) fun _ _ => alike_bound)
  dsimp only [Function.swap] at slots ⊢
  generalize (List.flatMap bound (params ++ _)).eraseDups = vars at slots ⊢
  generalize (List.flatMap bound (params' ++ _)).eraseDups = vars' at slots ⊢
  have unbound : Option.Rel κ.dims ((ss.flatMap Shape.vars).find? fun v => !vars.contains v)
      ((ts.flatMap Shape.vars).find? fun v => !vars'.contains v) :=
    rel_find? (List.rel_flatMap shapes fun _ _ => Shape.Alike.vars) fun _ _ paired =>
      congrArg (! ·) (rel_contains κ.dims_unique slots paired)
  revert unbound
  generalize List.find? _ (ss.flatMap Shape.vars) = v
  generalize List.find? _ (ts.flatMap Shape.vars) = w
  rintro (_ | _)
  · exact Agree.throw
  · have notVar : LiftFun (Dim.Alike κ) Iff (fun d => d.asVar?.isNone = true)
        (fun d => d.asVar?.isNone = true) := fun _ _ alike => Bool.eq_iff_iff.1 alike.isNone_asVar?
    have computed := List.rel_filter notVar (List.rel_flatten shapes)
    exact .ok ⟨slots, rel_eraseDups (Dim.alike_unique κ) _ _ computed⟩

end HeapLayout

/-! ### The lowering of a function -/

namespace ShapeHeap

/-- The contexts are those of functions that are alike, with corresponding heaps and the same heap
function. -/
structure Context.Alike (κ : Correspondence) (cx dx : Context) : Prop where
  function : Function.Alike κ cx.function dx.function
  layout : HeapLayout.Alike κ cx.layout dx.layout
  shapeFunction : cx.shapeFunction = dx.shapeFunction
  heap : κ.vars cx.heap dx.heap

/-- The states have emitted what is alike and know corresponding dimensions to be on the heap. -/
structure State.Alike (κ : Correspondence) (s t : State) : Prop where
  builder : Builder.Alike κ s.builder t.builder
  stored : List.Forall₂ κ.dims s.stored t.stored
  current : List.Forall₂ (Dim.Alike κ) s.current t.current

/-- The same position in a shape, and variables that are partners. -/
def EntryAlike (κ : Correspondence) (x y : Nat × DimVar) : Prop := x.1 = y.1 ∧ κ.dims x.2 y.2

theorem ready_eq {vs ws : List DimVar} (stored : List.Forall₂ κ.dims vs ws) {d d' : Dim}
    (alike : Dim.Alike κ d d') : ready vs d = ready ws d' :=
  rel_all alike.vars fun _ _ => rel_contains κ.dims_unique stored

theorem alike_newVars {s t : Shape} (alike : Shape.Alike κ s t) {vs ws : List DimVar}
    (stored : List.Forall₂ κ.dims vs ws) (n : Nat) :
    List.Forall₂ (EntryAlike κ) (newVars vs n s) (newVars ws n t) := by
  induction alike generalizing vs ws n with
  | nil => exact .nil
  | cons head _ ih =>
      cases head with
      | int _ | binary _ _ _ => exact ih stored (n + 1)
      | var paired =>
          rw [newVars, newVars, rel_contains κ.dims_unique stored paired]
          exact rel_ite Iff.rfl (ih stored (n + 1))
            (.cons ⟨rfl, paired⟩ (ih (.cons paired stored) (n + 1)))

namespace State.Alike

variable {cx dx : Context} {s t : State}

theorem emit (h : State.Alike κ s t) (name : String) {e e' : Expr} (call : Expr.Alike κ e e') :
    State.Alike κ (s.emit name e).1 (t.emit name e').1 ∧
      κ.vars (s.emit name e).2 (t.emit name e').2 := by
  obtain ⟨builder, paired⟩ := h.builder.emitNamed name call
  exact ⟨{ h with builder }, paired⟩

theorem queryShape (h : State.Alike κ s t) {e e' : Expr} (tensor : Expr.Alike κ e e') :
    State.Alike κ (s.queryShape e).1 (t.queryShape e').1 ∧
      κ.vars (s.queryShape e).2 (t.queryShape e').2 :=
  h.emit "sh" (Expr.alike_ofCallee _ (.cons tensor .nil))

theorem store (contexts : Context.Alike κ cx dx) (h : State.Alike κ s t) {e e' : Expr}
    (shape : Expr.Alike κ e e') {new new' : List (Nat × DimVar)}
    (entries : List.Forall₂ (EntryAlike κ) new new') :
    State.Alike κ (s.store cx e new) (t.store dx e' new') := by
  have slots : new.map (fun x => (⟨x.1, cx.layout.varSlot x.2⟩ : ShapeSlot)) =
      new'.map fun x => ⟨x.1, dx.layout.varSlot x.2⟩ :=
    map_eq_map (entries.imp fun x y entry => by rw [entry.1, contexts.layout.varSlot entry.2])
  have call (entries : List ShapeSlot) := Expr.alike_ofOp .vmStoreShape (.storeShape entries)
    (.cons shape (.cons (.var contexts.heap) .nil))
  have vars : List.Forall₂ κ.dims (new.map Prod.snd) (new'.map Prod.snd) :=
    List.forall₂_map_left_iff.2 (List.forall₂_map_right_iff.2 (entries.imp fun _ _ => And.right))
  simp only [State.store, slots]
  obtain ⟨emitted, -⟩ := h.emit "_" (call _)
  exact { emitted with stored := List.rel_append vars emitted.stored }

theorem isStale (h : State.Alike κ s t) {d d' : Shape} (alike : Shape.Alike κ d d') :
    s.isStale d = t.isStale d' :=
  rel_any alike fun x y one => by
    rw [one.isNone_asVar?, rel_contains (Dim.alike_unique κ) h.current one]

theorem refresh (contexts : Context.Alike κ cx dx) (h : State.Alike κ s t) :
    State.Alike κ (s.refresh cx) (t.refresh dx) := by
  rw [State.refresh, State.refresh, contexts.shapeFunction]
  cases dx.shapeFunction with
  | none => exact h
  | some name =>
      have call := Expr.alike_ofCallee (.global name) (.cons (.var contexts.heap) .nil)
      have ended : State.Alike κ { s with builder := s.builder.sealBlock }
          { t with builder := t.builder.sealBlock } := { h with builder := h.builder.sealBlock }
      obtain ⟨called, -⟩ := ended.emit "_" call
      have isReady : LiftFun (Dim.Alike κ) Iff (fun d => ready s.stored d = true)
          (fun d => ready t.stored d = true) := fun _ _ one =>
        Bool.eq_iff_iff.1 (ready_eq h.stored one)
      exact { called with current := List.rel_filter isReady contexts.layout.computed }

theorem load (contexts : Context.Alike κ cx dx) (h : State.Alike κ s t) {d d' : Shape}
    (alike : Shape.Alike κ d d') :
    Agree (fun x y => State.Alike κ x.1 y.1 ∧ κ.vars x.2 y.2) (s.load cx d) (t.load dx d') := by
  have missing : Option.Rel κ.dims (d.vars.find? fun v => !s.stored.contains v)
      (d'.vars.find? fun v => !t.stored.contains v) :=
    rel_find? alike.vars fun _ _ paired =>
      congrArg (! ·) (rel_contains κ.dims_unique h.stored paired)
  have slots : d.map cx.layout.slot = d'.map dx.layout.slot :=
    map_eq_map (alike.imp fun _ _ => contexts.layout.slot)
  rw [State.load, State.load]
  revert missing
  generalize List.find? _ d.vars = v
  generalize List.find? _ d'.vars = w
  rintro (_ | _)
  · exact Agree.throw
  · have current : State.Alike κ (if s.isStale d then s.refresh cx else s)
        (if t.isStale d' then t.refresh dx else t) :=
      rel_ite (by rw [h.isStale alike]) (h.refresh contexts) h
    have call := Expr.alike_ofOp .vmLoadShape (.loadShape (d'.map dx.layout.slot))
      (.cons (.var contexts.heap) .nil)
    simp only [slots]
    exact .ok (current.emit "shape" call)

theorem lowerExprs {es fs : List Expr}
    (each : List.Forall₂ (fun e e' => ∀ s t, State.Alike κ s t →
      Agree (fun x y => State.Alike κ x.1 y.1 ∧ Expr.Alike κ x.2 y.2) (lowerExpr cx e s)
        (lowerExpr dx e' t)) es fs) (h : State.Alike κ s t) :
    Agree (fun x y => State.Alike κ x.1 y.1 ∧ Expr.AllAlike κ x.2 y.2)
      (State.lowerExprs cx es s) (State.lowerExprs dx fs t) := by
  induction each generalizing s t with
  | nil => exact .ok ⟨h, .nil⟩
  | cons head _ ih =>
      exact (head s t h).bind fun _ _ first => (ih first.1).bind fun _ _ rest =>
        .ok ⟨rest.1, .cons first.2 rest.2⟩

theorem lowerExpr (contexts : Context.Alike κ cx dx) {e e' : Expr} (alike : Expr.Alike κ e e') :
    ∀ s t, State.Alike κ s t →
      Agree (fun x y => State.Alike κ x.1 y.1 ∧ Expr.Alike κ x.2 y.2) (State.lowerExpr cx e s)
        (State.lowerExpr dx e' t) := by
  refine alike.induction ?var ?shape ?tuple ?item ?const ?external ?global ?call
  case var => exact fun _ _ paired _ _ h => .ok ⟨h, .var paired⟩
  case shape =>
    intro d d' alike s t h
    rw [State.lowerExpr, State.lowerExpr, alike.isSymbolic]
    exact Agree.ite Iff.rfl
      (fun _ => (h.load contexts alike).bind fun _ _ loaded => .ok ⟨loaded.1, .var loaded.2⟩)
      fun _ => .ok ⟨h, .shape alike⟩
  case tuple =>
    exact fun _ _ _ ih s t h => (lowerExprs ih h).bind fun _ _ next =>
      .ok ⟨next.1, .tuple next.2⟩
  case item =>
    exact fun _ _ i _ ih s t h => (ih s t h).bind fun _ _ next => .ok ⟨next.1, .item next.2 i⟩
  case const => exact fun c _ _ h => .ok ⟨h, .const c⟩
  case external => exact fun n _ _ h => .ok ⟨h, .external n⟩
  case global => exact fun n _ _ h => .ok ⟨h, .global n⟩
  case call =>
    exact fun _ _ _ _ head _ ih s t h => (lowerExprs ih h).bind fun _ _ next =>
      .ok ⟨next.1, .call head next.2⟩

theorem bind (h : State.Alike κ s t) {v w : Var} (paired : κ.vars v w) {e e' : Expr}
    (value : Expr.Alike κ e e') : Agree (State.Alike κ) (s.bind cx v e) (t.bind dx w e') :=
  (h.builder.bind paired value).mapError.bind fun _ _ builder => .ok { h with builder }

theorem storePattern (contexts : Context.Alike κ cx dx) (h : State.Alike κ s t) {e e' : Expr}
    (value : Expr.Alike κ e e') {d d' : Shape} (pattern : Shape.Alike κ d d') :
    State.Alike κ (s.storePattern cx e d) (t.storePattern dx e' d') := by
  have new := alike_newVars pattern h.stored 0
  rw [State.storePattern, State.storePattern, value.inferTy? h.builder.records.infos]
  revert new
  generalize newVars s.stored 0 d = xs
  generalize newVars t.stored 0 d' = ys
  intro new
  cases new with
  | nil => exact h
  | cons first rest =>
      have new := List.Forall₂.cons first rest
      obtain ⟨queried, shape⟩ := h.queryShape value
      generalize e'.inferTy? t.builder.vars = ty
      dsimp only
      split
      · exact h.store contexts value new
      · exact queried.store contexts (.var shape) new

theorem storeParam (contexts : Context.Alike κ cx dx) (h : State.Alike κ s t) {v w : Var}
    (paired : κ.vars v w) :
    Agree (State.Alike κ) (State.storeParam cx s v) (State.storeParam dx t w) := by
  refine (contexts.function.info paired).mapError.bind fun i j info => ?_
  have new := alike_newVars (Shape.alike_getD info.shape) h.stored 0
  revert new
  generalize newVars s.stored 0 (i.shape.getD []) = xs
  generalize newVars t.stored 0 (j.shape.getD []) = ys
  intro new
  cases new with
  | nil => exact .ok h
  | cons first rest =>
      obtain ⟨queried, shape⟩ := h.queryShape (.var paired)
      exact .ok (queried.store contexts (.var shape) (.cons first rest))

theorem checkDefined (h : State.Alike κ s t) {v w : Option Var} (defined : Option.Rel κ.vars v w) :
    Agree Eq (s.checkDefined cx v) (t.checkDefined dx w) := by
  cases defined with
  | none => exact .ok rfl
  | some paired =>
      refine (h.builder.info paired).mapError.bind fun _ _ info => ?_
      rw [info.isDataflow]
      exact Agree.ite Iff.rfl (fun _ => .error) fun _ => .ok rfl

theorem lowerBinding (contexts : Context.Alike κ cx dx) (h : State.Alike κ s t) {x y : Binding}
    (alike : Binding.Alike κ x y) :
    Agree (State.Alike κ) (s.lowerBinding cx x) (t.lowerBinding dx y) := by
  refine (h.checkDefined alike.defined?).check ?_
  refine (lowerExpr contexts alike.value s t h).bind fun x' y' next => ?_
  cases alike with
  | define paired _ => exact next.1.bind paired next.2
  | matchShape defined _ pattern =>
      have stored := next.1.storePattern contexts next.2 pattern
      cases defined with
      | none => exact .ok stored
      | some paired => exact stored.bind paired next.2

end State.Alike

theorem alike_start (functions : Function.Alike κ f g) {l m : HeapLayout}
    (layouts : HeapLayout.Alike κ l m) :
    State.Alike κ (start f l).1 (start g m).1 ∧ κ.vars (start f l).2 (start g m).2 := by
  simp only [start, layouts.size]
  have call (size : Int64) : Expr.Alike κ
      (.ofCallee (.external Builtin.allocShapeHeap) [.shape (.ofInts [size])])
      (.ofCallee (.external Builtin.allocShapeHeap) [.shape (.ofInts [size])]) :=
    Expr.alike_ofCallee _ (.cons (.shape (Shape.alike_ofInts _)) .nil)
  obtain ⟨builder, heap⟩ := (Builder.alike_reopen functions).emitNamed "shape_heap" (call _)
  exact ⟨⟨builder.sealBlock, .nil, .nil⟩, heap⟩

theorem agree_lower (functions : Function.Alike κ f g) {l m : HeapLayout}
    (layouts : HeapLayout.Alike κ l m) (name : Option String) :
    Agree (Function.Alike κ) (lower f l name) (lower g m name) := by
  obtain ⟨started, heap⟩ := alike_start functions layouts
  have contexts : Context.Alike κ ⟨f, l, name, (start f l).2⟩ ⟨g, m, name, (start g m).2⟩ :=
    ⟨functions, layouts, rfl, heap⟩
  refine Agree.bind (Agree.foldlM functions.params ?_ started) fun s t stored => ?_
  · exact fun _ _ _ _ states paired => states.storeParam contexts paired
  refine Agree.bind (Agree.foldlM functions.bindings ?_ stored) fun s t lowered => ?_
  · exact fun _ _ _ _ states alike => states.lowerBinding contexts alike
  have ended : State.Alike κ { s with builder := s.builder.sealBlock }
      { t with builder := t.builder.sealBlock } :=
    { lowered with builder := lowered.builder.sealBlock }
  exact (State.Alike.lowerExpr contexts functions.body _ _ ended).bind fun _ _ next =>
    (next.1.builder.finish next.2).mapError

/-- Functions alike are lowered alike, and need equal heap functions. -/
theorem agree_lowerFunction (functions : Function.Alike κ f g) (base : String)
    (taken : List String) :
    Agree (fun x y => Function.Alike κ x.1 y.1 ∧ x.2 = y.2) (lowerFunction base taken f)
      (lowerFunction base taken g) := by
  have shapes := functions.symbolicShapes
  rw [lowerFunction, lowerFunction]
  revert shapes
  generalize f.symbolicShapes = ss
  generalize g.symbolicShapes = ts
  intro shapes
  cases shapes with
  | nil => exact .ok ⟨functions, rfl⟩
  | cons first rest =>
      refine (HeapLayout.agree_plan functions (.cons first rest)).bind fun l m layouts => ?_
      rw [rel_isEmpty layouts.computed]
      refine Agree.ite Iff.rfl (fun _ => ?_) fun _ => ?_
      · exact (agree_lower functions layouts none).bind fun _ _ lowered => .ok ⟨lowered, rfl⟩
      · exact (agree_lower functions layouts _).bind fun _ _ lowered =>
          .ok ⟨lowered, congrArg some (layouts.heapFunction _)⟩

end ShapeHeap

end TensorIR
