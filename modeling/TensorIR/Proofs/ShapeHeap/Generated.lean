import Mathlib.Data.List.Range
import TensorIR.Proofs.Occurrences
import TensorIR.Proofs.ShapeHeap.Correctness

/-!
# The generated heap function

The heap function of a layout computes the planned dimensions and does nothing else. What it reads
are the slots of variables and what it writes are the computed slots, each once and in order, so no
assignment sees the result of another: the arithmetic in place and the symbolic dimensions, under
the variables as they were before the call, have the same values. `heapFunction_run` is this for any
heap that holds the layout. It may be longer; what lies beyond the layout stays as it is.
-/

namespace TensorIR

theorem Function.nodup_boundDimVars (f : Function) : f.boundDimVars.Nodup := nodup_eraseDups _

theorem Function.nodup_computedDims (f : Function) : f.computedDims.Nodup := nodup_eraseDups _

/-- The slots that an expression reads. -/
def HeapExpr.loads : HeapExpr → List Nat
  | int _ => []
  | load slot => [slot]
  | binary _ lhs rhs => lhs.loads ++ rhs.loads

namespace HeapLayout

/-- What a heap of cells becomes when every computed slot gets the value of its dimension. -/
structure Computes (layout : HeapLayout) (cells cells' : List Int64) : Prop where
  length : cells'.length = cells.length
  computed : ∀ d ∈ layout.computed, cells'[layout.slot d]? = d.eval (layout.read cells)
  others : ∀ i, (∀ d ∈ layout.computed, layout.slot d ≠ i) → cells'[i]? = cells[i]?

/-- The first computed dimension that has no value under what the cells hold. -/
def firstUndefined? (layout : HeapLayout) (cells : List Int64) : Option Dim :=
  layout.computed.find? fun d => (d.eval (layout.read cells)).isNone

variable {layout : HeapLayout}

theorem wellFormed_of_plan {f : Function}
    (planned : HeapLayout.plan f f.symbolicShapes = .ok layout) : layout.WellFormed := by
  obtain ⟨rfl, bound⟩ := plan_eq_ok planned
  exact Function.wellFormed_layout bound

/-- The variables of a layout have the first slots, in order. -/
theorem map_varSlot (distinct : layout.vars.Nodup) :
    layout.vars.map layout.varSlot = List.range layout.vars.length := by
  refine List.ext_getElem (by simp) fun i hi _ => ?_
  have inVars : i < layout.vars.length := by simpa using hi
  simp [varSlot, distinct.idxOf_getElem i inVars]

theorem loads_toHeap (d : Dim) : (layout.toHeap d).loads = d.vars.map layout.varSlot := by
  induction d with
  | int n => rfl
  | var v => rfl
  | binary op lhs rhs ihl ihr =>
      rw [toHeap, HeapExpr.loads, ihl, ihr, Dim.vars, List.map_append]

/-- The heap function reads slots of variables only. -/
theorem loads_heapFunction (wf : layout.WellFormed) (name : String) :
    ∀ s ∈ (layout.heapFunction name).body, ∀ i ∈ s.value.loads, i < layout.vars.length := by
  intro s hs i hi
  obtain ⟨d, hd, rfl⟩ := List.mem_map.1 hs
  rw [loads_toHeap] at hi
  obtain ⟨v, hv, rfl⟩ := List.mem_map.1 hi
  exact varSlot_lt ((wf d hd).2 v hv)

/-- The heap function writes the slots after those of the variables, one after the other. -/
theorem slots_heapFunction (wf : layout.WellFormed) (distinct : layout.computed.Nodup)
    (name : String) :
    (layout.heapFunction name).body.map HeapAssign.slot =
      List.range' layout.vars.length layout.computed.length := by
  show (layout.computed.map fun d => (⟨layout.slot d, layout.toHeap d⟩ : HeapAssign)).map
    HeapAssign.slot = _
  rw [List.map_map]
  refine List.ext_getElem (by simp) fun i hi _ => ?_
  have inComputed : i < layout.computed.length := by simpa using hi
  have notVar := (wf _ (List.getElem_mem inComputed)).1
  simp [slot_computed notVar, distinct.idxOf_getElem i inComputed]

/-- A call of the generated function succeeds exactly if every computed dimension has a value, with
each variable read from its slot. Then each computed slot holds its value and no other cell has
changed. If a dimension has none, the call fails with the arithmetic of the first such, and never by
a slot that is out of range. -/
theorem heapFunction_run {f : Function} {cells : List Int64} (name : String)
    (planned : HeapLayout.plan f f.symbolicShapes = .ok layout)
    (size : layout.size ≤ cells.length) :
    ∃ cells' outcome, (layout.heapFunction name).run cells = (cells', outcome) ∧
      (outcome = none ↔ ∀ d ∈ layout.computed, (d.eval (layout.read cells)).isSome) ∧
      (outcome = none → layout.Computes cells cells') ∧
      ∀ e, outcome = some e →
        ∃ d, layout.firstUndefined? cells = some d ∧ e = .arithmetic (layout.slot d) := by
  rcases runAll_computed (wellFormed_of_plan planned) size (fun d hd => hd) with
    ⟨all, cells', ran, length, values, others⟩ | ⟨d, first, cells', ran⟩
  · refine ⟨cells', none, ran, ?_, ?_, nofun⟩
    · simpa using all
    · intro _
      exact ⟨length, values, others⟩
  · refine ⟨cells', some (.arithmetic (layout.slot d)), ran, ?_, nofun, ?_⟩
    · have undefined : d.eval (layout.read cells) = none := by simpa using List.find?_some first
      constructor
      · intro succeeded
        cases succeeded
      · intro all
        have defined := all d (List.mem_of_find?_eq_some first)
        rw [undefined] at defined
        cases defined
    · intro e failed
      cases failed
      exact ⟨d, first, rfl⟩

/-- With five and four for the variables of `lateDivisor`, the generated function leaves ten and
twenty-five and does not touch the cell past its heap. -/
theorem heapFunction_run_lateDivisor :
    HeapLayout.plan lateDivisor lateDivisor.symbolicShapes = .ok lateDivisor.layout ∧
      lateDivisor.layout.size ≤ [5, 4, 0, 0, 9].length ∧
      (lateDivisor.layout.heapFunction "shape_func").run [5, 4, 0, 0, 9] =
        ([5, 4, 10, 25, 9], none) ∧
      lateDivisor.layout.Computes [5, 4, 0, 0, 9] [5, 4, 10, 25, 9] := by
  have planned : HeapLayout.plan lateDivisor lateDivisor.symbolicShapes =
    .ok lateDivisor.layout := by decide +kernel
  have size : lateDivisor.layout.size ≤ ([5, 4, 0, 0, 9] : List Int64).length := by decide +kernel
  have ran : (lateDivisor.layout.heapFunction "shape_func").run [5, 4, 0, 0, 9] =
    ([5, 4, 10, 25, 9], none) := by decide +kernel
  obtain ⟨cells', outcome, same, -, computes, -⟩ :=
    heapFunction_run "shape_func" planned size
  rw [ran] at same
  cases same
  exact ⟨planned, size, ran, computes rfl⟩

/-- Where the divisor is zero, the call fails at its slot. -/
example : ((lateDivisor.layout.heapFunction "shape_func").run [5, 0, 0, 0, 9]).2 =
    some (.arithmetic 3) := by decide +kernel

end HeapLayout

end TensorIR
