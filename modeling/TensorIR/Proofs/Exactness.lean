import TensorIR.HeapFunction
import TensorIR.Proofs.Arithmetic
import TensorIR.Proofs.Result

/-!
# Exact evaluation

Dimensions and heap functions have ideal values as well, computed on integers without bounds. What
is evaluated with checks is never anything else: a dimension that has a value has the ideal one, and
a heap function that runs to its end leaves the cells that the ideal run leaves
(`evaluation_exact`). Evaluation is strict, so a value of the whole is also a value of every part,
and what a part evaluates to fits because it is a 64-bit integer.

A cell that is assigned may be read by a later assignment. The two heaps therefore run side by side,
and an assignment is read at the heap that those before it leave.
-/

namespace TensorIR

/-! ### Dimensions -/

namespace Dim

/-- The value of a dimension over the unbounded integers. -/
def ideal? (ρ : DimVar → Option Int) : Dim → Option Int
  | int n => some n.toInt
  | var v => ρ v
  | binary op lhs rhs => do op.ideal? (← lhs.ideal? ρ) (← rhs.ideal? ρ)

/-- The dimension itself and all dimensions that stand in it. -/
def parts : Dim → List Dim
  | int n => [int n]
  | var v => [var v]
  | binary op lhs rhs => binary op lhs rhs :: (lhs.parts ++ rhs.parts)

/-- The ideal value of the dimension, and that of every part of it, is in range. -/
def Fits (ρ : DimVar → Option Int) (d : Dim) : Prop :=
  ∀ e ∈ d.parts, ∃ m, e.ideal? ρ = some m ∧ InRange m

/-- The values of variables as integers without bounds. -/
def unbounded (ρ : DimVar → Option Int64) (v : DimVar) : Option Int := (ρ v).map Int64.toInt

variable {ρ : DimVar → Option Int64} {d : Dim} {n : Int64}

theorem eval_exact (value : d.eval ρ = some n) : d.ideal? (unbounded ρ) = some n.toInt := by
  induction d generalizing n with
  | int k =>
      cases value
      rfl
  | var v => exact congrArg (Option.map Int64.toInt) value
  | binary op lhs rhs ihl ihr =>
      obtain ⟨a, b, left, right, applied⟩ := eval_binary_eq_some.1 value
      rw [ideal?, ihl left, ihr right]
      exact ArithOp.apply_exact applied

theorem eval_parts (value : d.eval ρ = some n) : ∀ e ∈ d.parts, ∃ m, e.eval ρ = some m := by
  induction d generalizing n with
  | int _ | var _ => exact List.forall_mem_singleton.2 ⟨n, value⟩
  | binary op lhs rhs ihl ihr =>
      obtain ⟨a, b, left, right, -⟩ := eval_binary_eq_some.1 value
      exact List.forall_mem_cons.2
        ⟨⟨n, value⟩, List.forall_mem_append.2 ⟨ihl left, ihr right⟩⟩

theorem fits_of_eval (value : d.eval ρ = some n) : d.Fits (unbounded ρ) := by
  intro e part
  obtain ⟨m, value⟩ := eval_parts value e part
  exact ⟨m.toInt, eval_exact value, inRange_toInt m⟩

end Dim

/-! ### Expressions over a heap -/

/-- The cells of a heap as the values of variables: a variable stands for the cell at its index. -/
def cells {α : Type} (heap : List α) (v : DimVar) : Option α := heap[v.index]?

theorem unbounded_cells (heap : List Int64) :
    Dim.unbounded (cells heap) = cells (heap.map Int64.toInt) :=
  funext fun v => (List.getElem?_map (f := Int64.toInt) (l := heap) (i := v.index)).symm

namespace HeapExpr

/-- The dimension with the same arithmetic, over variables that stand for cells. -/
def toDim : HeapExpr → Dim
  | int n => .int n
  | load slot => .var ⟨slot⟩
  | binary op lhs rhs => .binary op lhs.toDim rhs.toDim

variable {heap : List Int64} {target : Nat} {n : Int64}

theorem eval_eq_ok {e : HeapExpr} :
    e.eval heap target = .ok n ↔ e.toDim.eval (cells heap) = some n := by
  induction e generalizing n with
  | int k =>
      exact ⟨fun h => congrArg some (Except.ok.inj h), fun h => congrArg _ (Option.some.inj h)⟩
  | load slot =>
      rw [eval, toDim, Dim.eval, cells]
      cases heap[slot]? <;> simp
  | binary op lhs rhs ihl ihr =>
      rw [eval, toDim, Dim.eval_binary_eq_some]
      constructor
      · intro value
        obtain ⟨a, left, value⟩ := bind_eq_ok.1 value
        obtain ⟨b, right, value⟩ := bind_eq_ok.1 value
        refine ⟨a, b, ihl.1 left, ihr.1 right, ?_⟩
        split at value
        · next applied =>
            cases value
            exact applied
        · cases value
      · rintro ⟨a, b, left, right, applied⟩
        rw [ihl.2 left, ihr.2 right]
        simp only [ok_bind, applied]

end HeapExpr

/-! ### Heap functions -/

namespace HeapAssign

/-- An assignment to cells that hold unbounded integers. -/
def ideal? (s : HeapAssign) (heap : List Int) : Option (List Int) := do
  let n ← s.value.toDim.ideal? (cells heap)
  if s.slot < heap.length then return heap.set s.slot n else none

/-- A list of assignments, in order, to cells that hold unbounded integers. -/
def idealAll? (ss : List HeapAssign) (heap : List Int) : Option (List Int) :=
  ss.foldlM (fun heap s => s.ideal? heap) heap

variable {s : HeapAssign} {ss ts : List HeapAssign} {heap heap' : List Int64}

theorem run_eq_ok : s.run heap = .ok heap' ↔
    ∃ n, s.value.eval heap s.slot = .ok n ∧ s.slot < heap.length ∧ heap' = heap.set s.slot n := by
  rw [run]
  constructor
  · intro ran
    obtain ⟨n, value, ran⟩ := bind_eq_ok.1 ran
    split at ran
    · next inHeap =>
        cases ran
        exact ⟨n, value, inHeap, rfl⟩
    · cases ran
  · rintro ⟨n, value, inHeap, rfl⟩
    rw [value, ok_bind, if_pos inHeap]
    rfl

theorem runAll_cons_eq : runAll (s :: ss) heap = (heap', none) ↔
    ∃ mid, s.run heap = .ok mid ∧ runAll ss mid = (heap', none) := by
  rw [runAll]
  cases s.run heap with
  | ok mid => simp
  | error e => simp

/-- A step of the run is a step of the ideal run. -/
theorem run_exact (ran : s.run heap = .ok heap') :
    s.ideal? (heap.map Int64.toInt) = some (heap'.map Int64.toInt) := by
  obtain ⟨n, value, inHeap, rfl⟩ := run_eq_ok.1 ran
  rw [ideal?, ← unbounded_cells, Dim.eval_exact (HeapExpr.eval_eq_ok.1 value), List.map_set]
  exact if_pos (by rwa [List.length_map])

theorem runAll_exact (ran : runAll ss heap = (heap', none)) :
    idealAll? ss (heap.map Int64.toInt) = some (heap'.map Int64.toInt) := by
  induction ss generalizing heap with
  | nil =>
      cases ran
      rfl
  | cons s ss ih =>
      obtain ⟨mid, step, rest⟩ := runAll_cons_eq.1 ran
      rw [idealAll?, List.foldlM_cons, run_exact step]
      exact ih rest

theorem runAll_append (ran : runAll (ss ++ ts) heap = (heap', none)) :
    ∃ mid, runAll ss heap = (mid, none) ∧ runAll ts mid = (heap', none) := by
  induction ss generalizing heap with
  | nil => exact ⟨heap, rfl, ran⟩
  | cons s ss ih =>
      obtain ⟨next, step, rest⟩ := runAll_cons_eq.1 ran
      obtain ⟨mid, before, after⟩ := ih rest
      exact ⟨mid, runAll_cons_eq.2 ⟨next, step, before⟩, after⟩

/-- Each assignment of a run that ends is computed exactly, at the cells that those before it
leave. -/
theorem fits_of_runAll (ran : runAll (ss ++ s :: ts) heap = (heap', none)) :
    ∃ mid, idealAll? ss (heap.map Int64.toInt) = some mid ∧ s.value.toDim.Fits (cells mid) := by
  obtain ⟨mid, before, rest⟩ := runAll_append ran
  obtain ⟨next, step, -⟩ := runAll_cons_eq.1 rest
  obtain ⟨n, value, -, -⟩ := run_eq_ok.1 step
  refine ⟨mid.map Int64.toInt, runAll_exact before, ?_⟩
  rw [← unbounded_cells]
  exact Dim.fits_of_eval (HeapExpr.eval_eq_ok.1 value)

end HeapAssign

/-- A dimension that has a value has the ideal one, and so has every part of it, within the range. A
heap function that runs to its end leaves what the ideal run of its assignments leaves, and every
value on the way is within the range. In ideal arithmetic a quotient is rounded down, and so a
remainder is zero or has the sign of the divisor. -/
theorem evaluation_exact :
    (∀ (ρ : DimVar → Option Int64) (d : Dim) (n : Int64), d.eval ρ = some n →
      d.ideal? (Dim.unbounded ρ) = some n.toInt ∧ d.Fits (Dim.unbounded ρ)) ∧
    (∀ (f : HeapFunction) (heap heap' : List Int64), f.run heap = (heap', none) →
      HeapAssign.idealAll? f.body (heap.map Int64.toInt) = some (heap'.map Int64.toInt) ∧
      ∀ before s after, f.body = before ++ s :: after →
        ∃ mid, HeapAssign.idealAll? before (heap.map Int64.toInt) = some mid ∧
          s.value.toDim.Fits (cells mid)) ∧
    ∀ m n r : Int, ArithOp.floorMod.ideal? m n = some r → r = 0 ∨ r.sign = n.sign := by
  refine ⟨fun ρ d n value => ⟨Dim.eval_exact value, Dim.fits_of_eval value⟩,
    fun f heap heap' ran => ⟨HeapAssign.runAll_exact ran, fun before s after split => ?_⟩,
    fun m n r => ArithOp.sign_of_floorMod⟩
  rw [HeapFunction.run, split] at ran
  exact HeapAssign.fits_of_runAll ran

/-- Minus seven by two is minus four, and that leaves minus one modulo minus three. On the heap, the
second assignment reads the quotient that the first one computes. -/
theorem evaluation_exact_negative :
    let ρ : DimVar → Option Int64 := fun v => [-7, 2][v.index]?
    let d : Dim := .binary .floorMod (.binary .floorDiv (.var ⟨0⟩) (.var ⟨1⟩)) (.int (-3))
    let f : HeapFunction := ⟨"shape_func", 3,
      [⟨1, .binary .floorDiv (.load 0) (.int (-2))⟩, ⟨2, .binary .floorMod (.load 1) (.int 3)⟩]⟩
    (d.eval ρ = some (-1) ∧ d.ideal? (Dim.unbounded ρ) = some (-1) ∧ d.Fits (Dim.unbounded ρ)) ∧
      (f.run [7, 0, 0] = ([7, -4, 2], none) ∧
        HeapAssign.idealAll? f.body [7, 0, 0] = some [7, -4, 2] ∧
        ∃ mid, HeapAssign.idealAll? [⟨1, .binary .floorDiv (.load 0) (.int (-2))⟩] [7, 0, 0] =
            some mid ∧
          (HeapExpr.binary .floorMod (.load 1) (.int 3)).toDim.Fits (cells mid)) ∧
      ArithOp.floorMod.ideal? 7 (-2) = some (-1) ∧
        ((-1 : Int) = 0 ∨ (-1 : Int).sign = (-2 : Int).sign) := by
  intro ρ d f
  have value : d.eval ρ = some (-1) := by decide
  have ran : f.run [7, 0, 0] = ([7, -4, 2], none) := by decide
  have rest : ArithOp.floorMod.ideal? 7 (-2) = some (-1) := by
    rw [ArithOp.ideal?_floorMod (by decide), floor_eq_fdiv]
    decide
  obtain ⟨dims, heaps, signs⟩ := evaluation_exact
  obtain ⟨run, assignments⟩ := heaps f _ _ ran
  exact ⟨⟨value, dims ρ d _ value⟩, ⟨ran, run, assignments [_] _ [] rfl⟩, rest, signs _ _ _ rest⟩

end TensorIR
