import TensorIR.Proofs.Broadcasting

/-!
# Broadcasting is a partial join

A shape stretches to another if, aligned at their ends, each of its dimensions is the other's or a
unit. Two shapes broadcast if there is a shape that both stretch to, and they broadcast to the least
one (`Shape.bounds_broadcast?`). So what is known of a result is given by the shapes that it
stretches to, its bounds, and these are the common bounds of the operands. Whatever is unknown has
no bounds at all.

All laws follow by comparing bounds (`Shape.eq_of_bounds`), with no look at dimensions: that
broadcasting commutes and associates, because conjunction does, also where one of the steps has no
result; and that for nested elementwise operations it makes no difference in which order the
operands stand, how they are grouped, or how often one is given.
-/

namespace TensorIR

/-- What stands in a place of a shape, and in that place of one that it stretches to. -/
inductive Dim.Under : Option Dim → Option Dim → Prop where
  | missing (d : Option Dim) : Under none d
  | unit (d : Dim) : Under (some (.int 1)) (some d)
  | same (d : Dim) : Under (some d) (some d)

/-- Aligned at their ends, each dimension of the first shape is that of the second or a unit. -/
def Shape.Stretches (s t : Shape) : Prop := ∀ i, Dim.Under (fromLast s i) (fromLast t i)

/-- The second argument is known and stretches to the shape. -/
def Shape.Bounds (u : Shape) (x : Option Shape) : Prop := ∃ s, x = some s ∧ s.Stretches u

namespace Dim

variable {x y z t : Option Dim}

theorem under_refl (x : Option Dim) : Under x x := by
  cases x with
  | none => exact .missing none
  | some d => exact .same d

theorem Under.antisymm (h : Under x y) (h' : Under y x) : x = y := by
  cases h with
  | same d => rfl
  | missing _ | unit _ => cases h' <;> rfl

/-- In each place, what is under the result is what is under both sides. -/
theorem under_axis (axis : Axis (.int 1) x y z) : Under z t ↔ Under x t ∧ Under y t := by
  cases axis with
  | beyond | same _ => exact and_self_iff.symm
  | left m => exact (and_iff_left (.missing t)).symm
  | right n => exact (and_iff_right (.missing t)).symm
  | leftUnit n =>
      refine (and_iff_right_of_imp fun under => ?_).symm
      cases under <;> exact .unit _
  | rightUnit m =>
      refine (and_iff_left_of_imp fun under => ?_).symm
      cases under <;> exact .unit _

theorem exists_axis (left : Under x t) (right : Under y t) : ∃ z, Axis (.int 1) x y z := by
  cases left with
  | missing _ => exact ⟨y, axis_none_left.2 rfl⟩
  | unit d =>
      cases right with
      | missing _ => exact ⟨_, .left _⟩
      | unit _ => exact ⟨_, .same _⟩
      | same _ => exact ⟨_, .leftUnit _⟩
  | same d =>
      cases right with
      | missing _ => exact ⟨_, .left _⟩
      | unit _ => exact ⟨_, .rightUnit _⟩
      | same _ => exact ⟨_, .same _⟩

end Dim

namespace Shape

variable {a b s t u : Shape} {x y : Option Shape} {shapes : List (Option Shape)}

theorem stretches_refl (s : Shape) : s.Stretches s := fun i => Dim.under_refl (fromLast s i)

theorem Stretches.antisymm (h : s.Stretches t) (h' : t.Stretches s) : s = t :=
  eq_of_fromLast fun i => (h i).antisymm (h' i)

theorem stretches_nil (u : Shape) : Stretches [] u := fun i => .missing (fromLast u i)

@[simp]
theorem bounds_some : u.Bounds (some s) ↔ s.Stretches u := by
  simp [Bounds]

@[simp]
theorem not_bounds_none : ¬ u.Bounds none := by
  simp [Bounds]

/-- What is known of a shape is determined by its bounds. -/
theorem eq_of_bounds (same : ∀ u : Shape, u.Bounds x ↔ u.Bounds y) : x = y := by
  cases x with
  | none =>
      cases y with
      | none => rfl
      | some t => exact absurd ((same t).2 (bounds_some.2 (stretches_refl t))) not_bounds_none
  | some s =>
      have left := (same s).1 (bounds_some.2 (stretches_refl s))
      cases y with
      | none => exact absurd left not_bounds_none
      | some t =>
          have right := (same t).2 (bounds_some.2 (stretches_refl t))
          exact congrArg some ((bounds_some.1 right).antisymm (bounds_some.1 left))

/-- What both shapes stretch to is what they broadcast to, and what that stretches to. -/
theorem bounds_broadcast? : u.Bounds (a.broadcast? b) ↔ a.Stretches u ∧ b.Stretches u := by
  constructor
  · rintro ⟨c, found, stretches⟩
    have axes := broadcast?_eq_some_iff.1 found
    exact forall_and.1 fun i => (Dim.under_axis (axes i)).1 (stretches i)
  · rintro ⟨left, right⟩
    cases found : a.broadcast? b with
    | none =>
        obtain ⟨i, clash⟩ := exists_clash found
        obtain ⟨z, axis⟩ := Dim.exists_axis (left i) (right i)
        exact absurd axis (clash z)
    | some c =>
        have axes := broadcast?_eq_some_iff.1 found
        exact bounds_some.2 fun i => (Dim.under_axis (axes i)).2 ⟨left i, right i⟩

theorem broadcast?_comm (a b : Shape) : a.broadcast? b = b.broadcast? a :=
  eq_of_bounds fun u => by rw [bounds_broadcast?, bounds_broadcast?, and_comm]

theorem broadcast?_self (a : Shape) : a.broadcast? a = some a :=
  eq_of_bounds fun u => by rw [bounds_broadcast?, bounds_some, and_self]

theorem broadcast?_nil (a : Shape) : a.broadcast? [] = some a :=
  eq_of_bounds fun u => by
    rw [bounds_broadcast?, bounds_some, and_iff_left (stretches_nil u)]

theorem bounds_bind_left (x : Option Shape) (c : Shape) :
    u.Bounds (x >>= fun s => s.broadcast? c) ↔ u.Bounds x ∧ c.Stretches u := by
  cases x with
  | none => simp
  | some s => simpa using bounds_broadcast?

theorem bounds_bind_right (a : Shape) (y : Option Shape) :
    u.Bounds (y >>= fun s => a.broadcast? s) ↔ a.Stretches u ∧ u.Bounds y := by
  cases y with
  | none => simp
  | some s => simpa using bounds_broadcast?

theorem broadcast?_assoc (a b c : Shape) :
    (a.broadcast? b >>= fun x => x.broadcast? c) = b.broadcast? c >>= fun y => a.broadcast? y :=
  eq_of_bounds fun u => by
    rw [bounds_bind_left, bounds_bind_right, bounds_broadcast?, bounds_broadcast?, and_assoc]

/-! ### Any number of operands -/

theorem bounds_foldlM : u.Bounds (shapes.foldlM (fun acc s => s.bind acc.broadcast?) a) ↔
    a.Stretches u ∧ ∀ x ∈ shapes, u.Bounds x := by
  induction shapes generalizing a with
  | nil => simp [pure]
  | cons x shapes ih =>
      rw [List.foldlM_cons, List.forall_mem_cons, ← and_assoc, ← bounds_bind_right]
      show u.Bounds ((x.bind a.broadcast?).bind _) ↔ u.Bounds (x.bind a.broadcast?) ∧ _
      cases x.bind a.broadcast? with
      | none => simp
      | some c => simpa using ih

theorem bounds_broadcastAll? :
    u.Bounds (broadcastAll? shapes) ↔ shapes ≠ [] ∧ ∀ x ∈ shapes, u.Bounds x := by
  cases shapes with
  | nil => simp [broadcastAll?]
  | cons first rest =>
      rw [and_iff_right (List.cons_ne_nil first rest), List.forall_mem_cons]
      cases first with
      | none =>
          have unknown : broadcastAll? (none :: rest) = none := rfl
          simp [unknown]
      | some a =>
          rw [bounds_some]
          exact bounds_foldlM

end Shape

/-- The operators that are inferred operand by operand. -/
def Op.Elementwise (op : Op) : Prop := op = .add ∨ op = .multiply ∨ op = .fma

instance (op : Op) : Decidable op.Elementwise := inferInstanceAs (Decidable (_ ∨ _ ∨ _))

/-- The shape of the result is not annotated, and is broadcast from the operands. -/
def CallHead.joins (head : CallHead) : Bool :=
  match head.callee with
  | .op op => head.shape.isNone && op.Elementwise
  | .external _ | .global _ => false

namespace Expr

variable {vars : List VarInfo} {head : CallHead} {args : List Expr} {u : Shape}

theorem inferShape?_of_joins (joins : head.joins = true) :
    (call head args).inferShape? vars = Shape.broadcastAll? (args.map (inferShape? vars)) := by
  rw [CallHead.joins] at joins
  rw [inferShape?, inferShapes_eq_map]
  split at joins
  · next op callee =>
      rw [Bool.and_eq_true, Option.isNone_iff_eq_none, decide_eq_true_eq] at joins
      rw [joins.1, callee]
      rcases joins.2 with rfl | rfl | rfl <;> rfl
  · cases joins
  · cases joins

mutual

/-- The operands of nested elementwise calls from left to right. An expression of another kind is
its only operand. So is an elementwise call that has none or that has an annotated shape. -/
def operands : Expr → List Expr
  | call head args => if head.joins ∧ args ≠ [] then operandsAll args else [call head args]
  | var v => [var v]
  | shape s => [shape s]
  | tuple fields => [tuple fields]
  | item t i => [item t i]
  | const c => [const c]
  | external s => [external s]
  | global n => [global n]

/-- The operands of a list of expressions, from left to right. -/
def operandsAll : List Expr → List Expr
  | [] => []
  | e :: es => e.operands ++ operandsAll es

end

theorem operandsAll_eq_flatMap (es : List Expr) : operandsAll es = es.flatMap operands := by
  induction es with
  | nil => rfl
  | cons e es ih => rw [operandsAll, ih, List.flatMap_cons]

/-- What an expression stretches to is what all of its operands stretch to. -/
theorem bounds_inferShape? (e : Expr) :
    u.Bounds (e.inferShape? vars) ↔ ∀ o ∈ e.operands, u.Bounds (o.inferShape? vars) := by
  have alone (e : Expr) :
      u.Bounds (e.inferShape? vars) ↔ ∀ o ∈ [e], u.Bounds (o.inferShape? vars) := by
    rw [List.forall_mem_singleton]
  induction e using Expr.induction with
  | var _ | shape _ | tuple _ _ | item _ _ _ | const _ | external _ | global _ => exact alone _
  | call head args ih =>
      rw [operands]
      split
      · next nested =>
          have nonempty : args.map (inferShape? vars) ≠ [] := mt List.map_eq_nil_iff.1 nested.2
          rw [inferShape?_of_joins nested.1, Shape.bounds_broadcastAll?, and_iff_right nonempty,
            List.forall_mem_map, operandsAll_eq_flatMap, List.forall_mem_flatMap]
          exact forall₂_congr ih
      · exact alone _

end Expr

/-- Broadcasting is commutative, idempotent and associative, also where it has no result, and the
empty shape is neutral. What is inferred of nested elementwise calls depends on the operands, and
neither on their order nor on their grouping. -/
theorem Shape.broadcast?_join :
    (∀ a b : Shape, a.broadcast? b = b.broadcast? a) ∧
    (∀ a : Shape, a.broadcast? a = some a) ∧
    (∀ a : Shape, a.broadcast? [] = some a) ∧
    (∀ a b c : Shape, (a.broadcast? b >>= fun x => x.broadcast? c) =
      b.broadcast? c >>= fun y => a.broadcast? y) ∧
    ∀ (vars : List VarInfo) (e f : Expr), (∀ o, o ∈ e.operands ↔ o ∈ f.operands) →
      e.inferShape? vars = f.inferShape? vars := by
  refine ⟨broadcast?_comm, broadcast?_self, broadcast?_nil, broadcast?_assoc, ?_⟩
  intro vars e f same
  refine eq_of_bounds fun u => ?_
  rw [e.bounds_inferShape?, f.bounds_inferShape?]
  exact forall_congr' fun o => imp_congr_left (same o)

/-- The operands of a fused operation, and of the sum that it stands for, turned round. -/
theorem Shape.broadcast?_join_turned :
    let vars : List VarInfo := [⟨"x", .plain, some [.var ⟨0⟩, .int 1], none⟩,
      ⟨"y", .plain, some [.var ⟨1⟩], none⟩, ⟨"z", .plain, some [.int 1, .var ⟨1⟩], none⟩]
    let fused := Expr.ofOp .fma [.var ⟨0⟩, .var ⟨1⟩, .var ⟨2⟩]
    let sum := Expr.ofOp .add [.var ⟨2⟩, .ofOp .multiply [.var ⟨1⟩, .var ⟨0⟩]]
    (∀ o, o ∈ fused.operands ↔ o ∈ sum.operands) ∧
      fused.inferShape? vars = sum.inferShape? vars ∧
      sum.inferShape? vars = some [.var ⟨0⟩, .var ⟨1⟩] := by
  intro vars fused sum
  have same : ∀ o, o ∈ fused.operands ↔ o ∈ sum.operands := by
    intro o
    have reversed : sum.operands = fused.operands.reverse := by decide
    rw [reversed, List.mem_reverse]
  exact ⟨same, broadcast?_join.2.2.2.2 vars fused sum same, by decide⟩

end TensorIR
