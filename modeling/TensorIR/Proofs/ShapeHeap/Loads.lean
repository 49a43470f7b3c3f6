import TensorIR.Expr.Vars
import TensorIR.Lowering.ShapeHeap
import TensorIR.Proofs.Emission

/-!
# Loads in place of shapes

Lowering an expression walks its tree, emits a load at each symbolic shape, and rebuilds the tree
around the variables that name the loads. The two halves of that can be told apart: the loads are
those of `Expr.symbolicShapes`, one after the other (`State.loadAll`), and the rebuilt tree is the
old one with its symbolic shapes replaced from left to right (`Expr.fill`). `lowerExpr_eq` is the
equation, and after it nobody has to walk an expression while a state changes.

`Expr.restore` goes back. It puts shapes in the place of the variables that name their loads, and it
undoes `fill` when the loads are known and none of their variables is read by the old expression.
-/

namespace TensorIR

namespace Expr

mutual

/-- The expression with its symbolic shapes replaced from left to right by the given variables. -/
def fill (vs : List Var) : Expr → Expr
  | shape s => if s.isSymbolic then (vs.head?.map var).getD (shape s) else shape s
  | tuple fields => tuple (fillAll vs fields)
  | item t i => item (t.fill vs) i
  | call head args => call head (fillAll vs args)
  | var v => var v
  | const c => const c
  | external s => external s
  | global n => global n

/-- A list of expressions with their symbolic shapes replaced from left to right. -/
def fillAll (vs : List Var) : List Expr → List Expr
  | [] => []
  | e :: es => e.fill vs :: fillAll (vs.drop e.symbolicShapes.length) es

end

mutual

/-- The expression with the variables of loads replaced by the shapes that are loaded. -/
def restore (loads : List (Var × Shape)) : Expr → Expr
  | var v => ((loads.lookup v).map shape).getD (var v)
  | tuple fields => tuple (restoreAll loads fields)
  | item t i => item (t.restore loads) i
  | call head args => call head (restoreAll loads args)
  | shape s => shape s
  | const c => const c
  | external s => external s
  | global n => global n

/-- Restoring each expression of a list. -/
def restoreAll (loads : List (Var × Shape)) : List Expr → List Expr
  | [] => []
  | e :: es => e.restore loads :: restoreAll loads es

end

theorem bare_restore_annotate (vars : List VarInfo) (loads : List (Var × Shape)) (e : Expr) :
    ((e.annotate vars).restore loads).bare = (e.restore loads).bare := by
  cases e with
  | call head args =>
      rw [annotate, restore, restore]
      rfl
  | var _ | shape _ | tuple _ | item _ _ | const _ | external _ | global _ => rfl

theorem restoreAll_eq_map (loads : List (Var × Shape)) (es : List Expr) :
    restoreAll loads es = es.map (restore loads) := by
  induction es with
  | nil => rfl
  | cons e es ih => rw [restoreAll, ih, List.map_cons]

/-- Without loads there is nothing to put back. -/
theorem restore_nil (e : Expr) : e.restore [] = e := by
  induction e using Expr.induction with
  | var _ | shape _ | const _ | external _ | global _ => rfl
  | item t i ih => rw [restore, ih]
  | tuple es ih | call head es ih =>
      rw [restore, restoreAll_eq_map, List.map_congr_left ih, List.map_id']

mutual

/-- The surplus of a list of variables is not looked at. -/
theorem fill_append {vs : List Var} (ws : List Var) : ∀ e : Expr,
    vs.length = e.symbolicShapes.length → e.fill (vs ++ ws) = e.fill vs
  | .shape s, h => by
      rw [symbolicShapes] at h
      rw [fill, fill]
      split at h
      · next symbolic =>
          obtain ⟨v, rfl⟩ := List.length_eq_one_iff.1 h
          rfl
      · next literal => rw [if_neg literal, if_neg literal]
  | .tuple es, h => by
      rw [symbolicShapes] at h
      rw [fill, fill, fillAll_append ws es h]
  | .item t _, h => by
      rw [symbolicShapes] at h
      rw [fill, fill, fill_append ws t h]
  | .call _ es, h => by
      rw [symbolicShapes] at h
      rw [fill, fill, fillAll_append ws es h]
  | .var _, _ | .const _, _ | .external _, _ | .global _, _ => by rw [fill, fill]

theorem fillAll_append {vs : List Var} (ws : List Var) : ∀ es : List Expr,
    vs.length = (symbolicShapesAll es).length → fillAll (vs ++ ws) es = fillAll vs es
  | [], _ => by rw [fillAll, fillAll]
  | e :: es, h => by
      rw [symbolicShapesAll, List.length_append] at h
      obtain ⟨front, back, rfl, frontLength⟩ :
          ∃ front back, vs = front ++ back ∧ front.length = e.symbolicShapes.length :=
        ⟨_, _, (List.take_append_drop e.symbolicShapes.length vs).symm,
          by rw [List.length_take]; omega⟩
      rw [List.length_append] at h
      rw [fillAll, fillAll, List.append_assoc, ← frontLength, List.drop_left, List.drop_left,
        fill_append _ e frontLength, fill_append _ e frontLength,
        fillAll_append ws es (by omega)]

end

/-- Filling a list uses up the variables of its head before those of its tail. -/
theorem fillAll_cons {vs : List Var} (ws : List Var) {e : Expr} (es : List Expr)
    (h : vs.length = e.symbolicShapes.length) :
    fillAll (vs ++ ws) (e :: es) = e.fill vs :: fillAll ws es := by
  rw [fillAll, fill_append ws e h, ← h, List.drop_left]

mutual

/-- Putting the loaded shapes back gives the expression from before. -/
theorem restore_fill {loads : List (Var × Shape)} {vs : List Var} : ∀ e : Expr,
    vs.map (fun v => loads.lookup v) = e.symbolicShapes.map some →
    (∀ v ∈ e.reads, loads.lookup v = none) → (e.fill vs).restore loads = e
  | .shape s, named, _ => by
      rw [symbolicShapes] at named
      rw [fill]
      split at named
      · next symbolic =>
          obtain ⟨v, rest, rfl, found, _⟩ := List.map_eq_cons_iff.1 named
          rw [if_pos symbolic, List.head?_cons, Option.map_some, Option.getD_some, restore, found]
          rfl
      · next literal => rw [if_neg literal, restore]
  | .tuple es, named, unread => by
      rw [symbolicShapes] at named
      rw [reads] at unread
      rw [fill, restore, restoreAll_fillAll es named unread]
  | .item t _, named, unread => by
      rw [symbolicShapes] at named
      rw [reads] at unread
      rw [fill, restore, restore_fill t named unread]
  | .call _ es, named, unread => by
      rw [symbolicShapes] at named
      rw [reads] at unread
      rw [fill, restore, restoreAll_fillAll es named unread]
  | .var v, _, unread => by
      rw [fill, restore, unread v (by rw [reads]; exact List.mem_singleton_self v)]
      rfl
  | .const _, _, _ | .external _, _, _ | .global _, _, _ => by rw [fill, restore]

theorem restoreAll_fillAll {loads : List (Var × Shape)} {vs : List Var} : ∀ es : List Expr,
    vs.map (fun v => loads.lookup v) = (symbolicShapesAll es).map some →
    (∀ v ∈ readsAll es, loads.lookup v = none) → restoreAll loads (fillAll vs es) = es
  | [], _, _ => by rw [fillAll, restoreAll]
  | e :: es, named, unread => by
      rw [symbolicShapesAll, List.map_append] at named
      rw [readsAll] at unread
      obtain ⟨front, back, rfl, ofHead, ofTail⟩ := List.map_eq_append_iff.1 named
      have length : front.length = e.symbolicShapes.length := by
        simpa using congrArg List.length ofHead
      rw [fillAll_cons back es length, restoreAll,
        restore_fill e ofHead fun v hv => unread v (List.mem_append_left _ hv),
        restoreAll_fillAll es ofTail fun v hv => unread v (List.mem_append_right _ hv)]

end

/-- A variable that comes out of filling was there before, or names a load. -/
theorem asVar?_fill {e : Expr} {vs : List Var} {u : Var} (h : (e.fill vs).asVar? = some u) :
    e = .var u ∨ u ∈ vs := by
  cases e with
  | var v =>
      left
      rw [fill] at h
      exact congrArg var (Option.some.inj h)
  | shape s =>
      right
      rw [fill] at h
      split at h
      · cases vs with
        | nil => cases h
        | cons v vs =>
            cases h
            exact List.mem_cons_self
      · cases h
  | tuple _ | item _ _ | const _ | external _ | global _ | call _ _ =>
      rw [fill] at h
      cases h

end Expr

namespace ShapeHeap.State

variable {cx : Context}

/-- Emits the loads of a list of symbolic shapes, and gives the variables that name them. -/
def loadAll (cx : Context) : List Shape → State → Lowered (State × List Var)
  | [], st => .ok (st, [])
  | s :: ss, st => do
    let (st, v) ← st.load cx s
    let (st, vs) ← loadAll cx ss st
    return (st, v :: vs)

theorem loadAll_append (ss ts : List Shape) (st : State) :
    loadAll cx (ss ++ ts) st = do
      let (st, vs) ← loadAll cx ss st
      let (st, ws) ← loadAll cx ts st
      return (st, vs ++ ws) := by
  induction ss generalizing st with
  | nil =>
      simp only [List.nil_append, loadAll, ok_bind]
      cases loadAll cx ts st with
      | error e => rfl
      | ok r => rfl
  | cons s ss ih =>
      simp only [List.cons_append, loadAll, ih]
      cases st.load cx s with
      | error e => rfl
      | ok r =>
          simp only [ok_bind]
          cases loadAll cx ss r.1 with
          | error e => rfl
          | ok r' =>
              simp only [ok_bind, pure_eq]
              cases loadAll cx ts r'.1 with
              | error e => rfl
              | ok r'' => rfl

theorem length_loadAll {ss : List Shape} {st st' : State} {vs : List Var}
    (h : loadAll cx ss st = .ok (st', vs)) : vs.length = ss.length := by
  induction ss generalizing st vs with
  | nil =>
      cases h
      rfl
  | cons s ss ih =>
      rw [loadAll] at h
      obtain ⟨⟨mid, v⟩, _, h⟩ := bind_eq_ok.1 h
      obtain ⟨⟨last, ws⟩, tail, h⟩ := bind_eq_ok.1 h
      cases h
      rw [List.length_cons, List.length_cons, ih tail]

mutual

/-- Lowering an expression emits the loads of its symbolic shapes and puts their names in. -/
theorem lowerExpr_eq : ∀ (e : Expr) (st : State),
    lowerExpr cx e st = do
      let (st, vs) ← loadAll cx e.symbolicShapes st
      return (st, e.fill vs)
  | .shape s, st => by
      rw [lowerExpr, Expr.symbolicShapes]
      split
      · next symbolic =>
          simp only [loadAll, Expr.fill, symbolic]
          cases st.load cx s with
          | error e => rfl
          | ok r => rfl
      · next literal =>
          simp only [loadAll, Expr.fill, if_neg literal]
          rfl
  | .tuple es, st => by
      rw [lowerExpr, Expr.symbolicShapes, lowerExprs_eq es]
      cases loadAll cx (Expr.symbolicShapesAll es) st with
      | error e => rfl
      | ok r => rfl
  | .item t i, st => by
      rw [lowerExpr, Expr.symbolicShapes, lowerExpr_eq t]
      cases loadAll cx t.symbolicShapes st with
      | error e => rfl
      | ok r => rfl
  | .call head es, st => by
      rw [lowerExpr, Expr.symbolicShapes, lowerExprs_eq es]
      cases loadAll cx (Expr.symbolicShapesAll es) st with
      | error e => rfl
      | ok r => rfl
  | .var _, _ | .const _, _ | .external _, _ | .global _, _ => by rw [lowerExpr]; rfl

theorem lowerExprs_eq : ∀ (es : List Expr) (st : State),
    lowerExprs cx es st = do
      let (st, vs) ← loadAll cx (Expr.symbolicShapesAll es) st
      return (st, Expr.fillAll vs es)
  | [], st => by rw [lowerExprs]; rfl
  | e :: es, st => by
      rw [lowerExprs, Expr.symbolicShapesAll, loadAll_append, lowerExpr_eq e]
      cases head : loadAll cx e.symbolicShapes st with
      | error e => rfl
      | ok r =>
          obtain ⟨mid, vs⟩ := r
          simp only [ok_bind, pure_eq]
          rw [lowerExprs_eq es]
          cases loadAll cx (Expr.symbolicShapesAll es) mid with
          | error e => rfl
          | ok r' =>
              simp only [ok_bind, pure_eq]
              rw [Expr.fillAll_cons _ es (length_loadAll head)]

end

end ShapeHeap.State

end TensorIR
