import Mathlib.Algebra.Order.BigOperators.Group.List
import Mathlib.Algebra.Order.Group.Nat
import TensorIR.Expr.Vars
import TensorIR.Function

/-!
# Renaming as a function

Passes rename by a finite map that grows as they go. What they have made is best compared under one
function on all variables, and two laws are needed for that: renaming looks at the variables that
are read and at no others, and two renamings in a row are one.

A renaming that keeps the variables of a function apart extends to one that keeps all variables
apart (`Var.exists_injective`).
-/

namespace TensorIR

namespace Expr

variable {r r' : Var → Var}

theorem rename_congr {e : Expr} : (∀ v ∈ e.reads, r v = r' v) → e.rename r = e.rename r' := by
  induction e using Expr.induction with
  | var v =>
      intro same
      rw [rename, rename, same v (by rw [reads]; exact List.mem_singleton_self v)]
  | shape _ | const _ | external _ | global _ => exact fun _ => rfl
  | item t i ih =>
      intro same
      rw [rename, rename, ih same]
  | tuple es ih | call _ es ih =>
      intro same
      rw [reads, readsAll_eq_flatMap] at same
      rw [rename, rename, renameAll_eq_map, renameAll_eq_map, List.map_congr_left]
      exact fun e mem => ih e mem fun v read => same v (List.mem_flatMap.2 ⟨e, mem, read⟩)

theorem rename_rename (e : Expr) : (e.rename r).rename r' = e.rename (r' ∘ r) := by
  induction e using Expr.induction with
  | var _ | shape _ | const _ | external _ | global _ => rfl
  | item t i ih => rw [rename, rename, rename, ih]
  | tuple es ih | call _ es ih =>
      rw [rename, rename, rename, renameAll_eq_map, renameAll_eq_map, renameAll_eq_map,
        List.map_map]
      exact congrArg _ (List.map_congr_left ih)

/-! ### What a renamed expression was -/

theorem rename_eq_var {e : Expr} {t : Var} (h : e.rename r = var t) :
    ∃ u, e = var u ∧ r u = t := by
  cases e with
  | var u => exact ⟨u, rfl, var.inj h⟩
  | call _ _ | shape _ | tuple _ | item _ _ | const _ | external _ | global _ => cases h

theorem rename_eq_call {e : Expr} {head : CallHead} {args : List Expr}
    (h : e.rename r = call head args) :
    ∃ args', e = call head args' ∧ args'.map (rename r) = args := by
  cases e with
  | call head' args' =>
      rw [rename, renameAll_eq_map, call.injEq] at h
      exact ⟨args', by rw [h.1], h.2⟩
  | var _ | shape _ | tuple _ | item _ _ | const _ | external _ | global _ => cases h

theorem rename_eq_shape {e : Expr} {s : Shape} : e.rename r = shape s ↔ e = shape s := by
  cases e <;> simp [rename]

theorem rename_eq_external {e : Expr} {symbol : String} :
    e.rename r = external symbol ↔ e = external symbol := by
  cases e <;> simp [rename]

theorem rename_eq_tuple {e : Expr} {fields : List Expr} :
    e.rename r = tuple fields ↔ ∃ es, e = tuple es ∧ es.map (rename r) = fields := by
  cases e <;> simp [rename, renameAll_eq_map]

end Expr

/-- The binding with the variable that it defines and those that it reads renamed. -/
def Binding.rename (r : Var → Var) : Binding → Binding
  | .define v value => .define (r v) (value.rename r)
  | .matchShape v value pattern => .matchShape (v.map r) (value.rename r) pattern

namespace Binding

variable (r : Var → Var) (x : Binding)

theorem defined?_rename : (x.rename r).defined? = x.defined?.map r := by
  cases x <;> rfl

theorem value_rename : (x.rename r).value = x.value.rename r := by
  cases x <;> rfl

theorem pattern?_rename : (x.rename r).pattern? = x.pattern? := by
  cases x <;> rfl

theorem filterMap_defined_rename (xs : List Binding) :
    (xs.map (rename r)).filterMap defined? = (xs.filterMap defined?).map r := by
  rw [List.filterMap_map, List.map_filterMap]
  exact congrArg (List.filterMap · xs) (funext (defined?_rename r))

end Binding

/-- A renaming that keeps finitely many variables apart can be changed elsewhere so that it keeps
all variables apart. -/
theorem Var.exists_injective {r : Var → Var} {vs : List Var}
    (apart : ∀ v ∈ vs, ∀ w ∈ vs, r v = r w → v = w) :
    ∃ r' : Var → Var, Function.Injective r' ∧ ∀ v ∈ vs, r' v = r v := by
  obtain ⟨bound, above⟩ : ∃ bound, ∀ v ∈ vs, (r v).index < bound :=
    ⟨(vs.map fun v => (r v).index + 1).sum, fun v mem =>
      List.single_le_sum (fun _ _ => Nat.zero_le _) _ (List.mem_map_of_mem mem)⟩
  refine ⟨fun v => if v ∈ vs then r v else ⟨bound + v.index⟩, fun v w same => ?_,
    fun v mem => if_pos mem⟩
  by_cases hv : v ∈ vs <;> by_cases hw : w ∈ vs
  · simp only [if_pos hv, if_pos hw] at same
    exact apart v hv w hw same
  · simp only [if_pos hv, if_neg hw] at same
    have below := congrArg Var.index same ▸ above v hv
    simp only at below
    omega
  · simp only [if_neg hv, if_pos hw] at same
    have below := congrArg Var.index same.symm ▸ above w hw
    simp only at below
    omega
  · simp only [if_neg hv, if_neg hw, Var.mk.injEq] at same
    cases v
    cases w
    exact congrArg Var.mk (Nat.add_left_cancel same)

end TensorIR
