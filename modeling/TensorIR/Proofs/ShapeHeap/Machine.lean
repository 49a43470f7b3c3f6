import Mathlib.Data.List.Basic
import Mathlib.Data.List.Find
import TensorIR.Lowering.ShapeHeap.Layout
import TensorIR.Proofs.Result

/-!
# The cells of a shape heap

What lowered code does to its heap comes down to two operations on a list of cells. A store copies
dimensions of a shape into cells, and a call of the heap function computes one cell after the other.
Both are total where the slots are those of a layout and the heap has its size, except that the
arithmetic of a computed dimension may have no value. The lemmas say what each operation leaves in
every cell.

The heap function recomputes every computed slot at every call. It reads only the slots of
variables, and no computed slot is among them, so the values it computes are all determined by the
heap from before the call.
-/

namespace TensorIR

theorem Dim.eval_congr {ρ ρ' : DimVar → Option Int64} {d : Dim} (h : ∀ v ∈ d.vars, ρ v = ρ' v) :
    d.eval ρ = d.eval ρ' := by
  induction d with
  | int n => rfl
  | var v => exact h v (List.mem_singleton_self v)
  | binary op lhs rhs ihl ihr =>
      rw [vars] at h
      rw [eval, eval, ihl fun v hv => h v (List.mem_append_left _ hv),
        ihr fun v hv => h v (List.mem_append_right _ hv)]

/-- Copies dimensions of a shape into cells, unless a dimension or a cell is missing. -/
def storeDims (dims : List Int64) : List ShapeSlot → List Int64 → Option (List Int64)
  | [], cells => some cells
  | entry :: entries, cells =>
    match dims[entry.dim]? with
    | some n =>
      if entry.slot < cells.length then storeDims dims entries (cells.set entry.slot n) else none
    | none => none

namespace HeapLayout

/-- The dimensions of a layout are computed from variables that have a slot, and are no variables
themselves. -/
def WellFormed (layout : HeapLayout) : Prop :=
  ∀ d ∈ layout.computed, d.asVar? = none ∧ ∀ v ∈ d.vars, v ∈ layout.vars

/-- The content of the cell that the layout has for a dimension variable. -/
def read (layout : HeapLayout) (cells : List Int64) (v : DimVar) : Option Int64 :=
  cells[layout.varSlot v]?

/-- The entries of a store of variables, each with the position of its dimension. -/
def entries (layout : HeapLayout) (new : List (Nat × DimVar)) : List ShapeSlot :=
  new.map fun (dim, v) => ⟨dim, layout.varSlot v⟩

variable {layout : HeapLayout} {cells : List Int64}

/-! ### Slots -/

theorem varSlot_lt {v : DimVar} (h : v ∈ layout.vars) : layout.varSlot v < layout.vars.length :=
  List.idxOf_lt_length_of_mem h

theorem varSlot_inj {v u : DimVar} (h : v ∈ layout.vars) :
    layout.varSlot v = layout.varSlot u ↔ v = u := List.idxOf_inj h

theorem slot_computed {d : Dim} (h : d.asVar? = none) :
    layout.slot d = layout.vars.length + layout.computed.idxOf d := by
  cases d with
  | var v => cases h
  | int _ | binary _ _ _ => rfl

theorem slot_lt {d : Dim} (wf : layout.WellFormed) (h : d ∈ layout.computed) :
    layout.slot d < layout.size := by
  rw [slot_computed (wf d h).1, size]
  exact Nat.add_lt_add_left (List.idxOf_lt_length_of_mem h) _

theorem slot_inj {d e : Dim} (wf : layout.WellFormed) (hd : d ∈ layout.computed)
    (he : e ∈ layout.computed) : layout.slot d = layout.slot e ↔ d = e := by
  rw [slot_computed (wf d hd).1, slot_computed (wf e he).1, Nat.add_left_cancel_iff]
  exact List.idxOf_inj hd

theorem varSlot_ne_slot {v : DimVar} {d : Dim} (wf : layout.WellFormed) (hv : v ∈ layout.vars)
    (hd : d ∈ layout.computed) : layout.varSlot v ≠ layout.slot d := by
  have := varSlot_lt hv
  rw [slot_computed (wf d hd).1]
  omega

/-! ### Stores -/

/-- A store of variables gives each its value and leaves all other cells alone. -/
theorem storeDims_entries {new : List (Nat × DimVar)} {dims : List Int64}
    {value : DimVar → Option Int64} (size : layout.vars.length ≤ cells.length)
    (bound : ∀ p v, (p, v) ∈ new → v ∈ layout.vars)
    (given : ∀ p v, (p, v) ∈ new → ∃ n, dims[p]? = some n ∧ value v = some n) :
    ∃ cells', storeDims dims (layout.entries new) cells = some cells' ∧
      cells'.length = cells.length ∧
      (∀ v ∈ new.map Prod.snd, cells'[layout.varSlot v]? = value v) ∧
      ∀ i, (∀ v ∈ new.map Prod.snd, layout.varSlot v ≠ i) → cells'[i]? = cells[i]? := by
  induction new generalizing cells with
  | nil => exact ⟨cells, rfl, rfl, nofun, fun i _ => rfl⟩
  | cons entry new ih =>
      obtain ⟨p, v⟩ := entry
      obtain ⟨n, dim, known⟩ := given p v List.mem_cons_self
      have inVars := bound p v List.mem_cons_self
      have inHeap : layout.varSlot v < cells.length := Nat.lt_of_lt_of_le (varSlot_lt inVars) size
      have size' : layout.vars.length ≤ (cells.set (layout.varSlot v) n).length := by
        rwa [List.length_set]
      obtain ⟨cells', stored, length, values, others⟩ :=
        ih size' (fun p u hu => bound p u (List.mem_cons_of_mem _ hu))
          (fun p u hu => given p u (List.mem_cons_of_mem _ hu))
      refine ⟨cells', ?_, by rw [length, List.length_set], ?_, ?_⟩
      · rw [entries, List.map_cons, storeDims]
        simp only [dim, if_pos inHeap]
        exact stored
      · rw [List.map_cons, List.forall_mem_cons]
        refine ⟨?_, values⟩
        by_cases again : v ∈ new.map Prod.snd
        · exact values v again
        · -- Only another variable of the list could share the slot, and slots tell variables apart.
          rw [others, List.getElem?_set_self inHeap, known]
          intro u hu same
          rw [eq_comm, varSlot_inj inVars] at same
          exact again (same ▸ hu)
      · intro i free
        rw [List.map_cons, List.forall_mem_cons] at free
        rw [others i free.2, List.getElem?_set_ne free.1]

/-! ### Calls of the heap function -/

/-- A dimension as arithmetic on cells has the value of the dimension under what the cells hold. -/
theorem eval_toHeap {d : Dim} (target : Nat) (size : layout.vars.length ≤ cells.length)
    (bound : ∀ v ∈ d.vars, v ∈ layout.vars) :
    (layout.toHeap d).eval cells target =
      match d.eval (layout.read cells) with
      | some n => .ok n
      | none => .error (.arithmetic target) := by
  induction d with
  | int n => rfl
  | var v =>
      have inHeap : layout.varSlot v < cells.length :=
        Nat.lt_of_lt_of_le (varSlot_lt (bound v (List.mem_singleton_self v))) size
      rw [toHeap, HeapExpr.eval, Dim.eval, read, List.getElem?_eq_getElem inHeap]
  | binary op lhs rhs ihl ihr =>
      rw [Dim.vars] at bound
      rw [toHeap, HeapExpr.eval, Dim.eval, ihl fun v hv => bound v (List.mem_append_left _ hv),
        ihr fun v hv => bound v (List.mem_append_right _ hv)]
      cases lhs.eval (layout.read cells) with
      | none => rfl
      | some a =>
          cases rhs.eval (layout.read cells) with
          | none => rfl
          | some b => rfl

/-- Computing a list of slots: either all of the dimensions have a value under the cells and each
slot gets it, or the computation stops at the first that has none. The heap may have more cells than
the layout. -/
theorem runAll_computed {ds : List Dim} (wf : layout.WellFormed) (size : layout.size ≤ cells.length)
    (sub : ∀ d ∈ ds, d ∈ layout.computed) :
    ((∀ d ∈ ds, (d.eval (layout.read cells)).isSome) ∧
      ∃ cells', HeapAssign.runAll (ds.map fun d => ⟨layout.slot d, layout.toHeap d⟩) cells =
          (cells', none) ∧
        cells'.length = cells.length ∧
        (∀ d ∈ ds, cells'[layout.slot d]? = d.eval (layout.read cells)) ∧
        ∀ i, (∀ d ∈ ds, layout.slot d ≠ i) → cells'[i]? = cells[i]?) ∨
    (∃ d, ds.find? (fun d => (d.eval (layout.read cells)).isNone) = some d ∧
      ∃ cells', HeapAssign.runAll (ds.map fun d => ⟨layout.slot d, layout.toHeap d⟩) cells =
        (cells', some (.arithmetic (layout.slot d)))) := by
  induction ds generalizing cells with
  | nil =>
      left
      exact ⟨nofun, cells, rfl, rfl, nofun, fun i _ => rfl⟩
  | cons d ds ih =>
      have mem := sub d List.mem_cons_self
      have varsFit : layout.vars.length ≤ cells.length := Nat.le_trans (Nat.le_add_right _ _) size
      have inHeap : layout.slot d < cells.length := Nat.lt_of_lt_of_le (slot_lt wf mem) size
      have step := eval_toHeap (layout.slot d) varsFit (wf d mem).2
      rw [List.map_cons, HeapAssign.runAll, HeapAssign.run, List.find?_cons]
      cases value : d.eval (layout.read cells) with
      | none =>
          right
          rw [value] at step
          exact ⟨d, rfl, cells, by rw [step]; rfl⟩
      | some n =>
          rw [value] at step
          rw [step]
          simp only [ok_bind, if_pos inHeap, pure_eq]
          -- The slot that is written holds no variable, so nothing else changes its value.
          have sameRead : ∀ e ∈ ds,
              e.eval (layout.read (cells.set (layout.slot d) n)) = e.eval (layout.read cells) := by
            intro e he
            refine Dim.eval_congr fun v hv => ?_
            have inVars := (wf e (sub e (List.mem_cons_of_mem d he))).2 v hv
            rw [read, read, List.getElem?_set_ne (varSlot_ne_slot wf inVars mem).symm]
          have size' : layout.size ≤ (cells.set (layout.slot d) n).length := by
            rwa [List.length_set]
          rcases ih size' (fun e he => sub e (List.mem_cons_of_mem d he)) with
            ⟨all, cells', ran, length, values, others⟩ | ⟨e, first, cells', ran⟩
          · left
            refine ⟨?_, cells', ran, by rw [length, List.length_set], ?_, ?_⟩
            · rw [List.forall_mem_cons]
              refine ⟨by rw [value]; rfl, fun e he => ?_⟩
              rw [← sameRead e he]
              exact all e he
            · rw [List.forall_mem_cons]
              refine ⟨?_, fun e he => by rw [values e he, sameRead e he]⟩
              by_cases again : d ∈ ds
              · rw [values d again, sameRead d again]
              · rw [others, List.getElem?_set_self inHeap, value]
                intro e he same
                rw [slot_inj wf (sub e (List.mem_cons_of_mem d he)) mem] at same
                exact again (same ▸ he)
            · intro i free
              rw [List.forall_mem_cons] at free
              rw [others i free.2, List.getElem?_set_ne free.1]
          · right
            refine ⟨e, ?_, cells', ran⟩
            rw [← first]
            exact List.find?_congr fun x hx => by rw [sameRead x hx]

end HeapLayout

end TensorIR
