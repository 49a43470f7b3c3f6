import Mathlib.Algebra.Order.BigOperators.Group.List
import Mathlib.Algebra.Order.Group.Nat
import TensorIR.Proofs.Alpha.Deciding

/-!
# Comparing expressions by themselves

Two expressions that belong to no function are compared from no pairs. Nothing in them defines a
variable, so every read is of a free one, and has to be of the same variable on both sides.
Dimension variables are paired on encounter all the same, as if either expression had brought its
own. So the comparison finds more than equal expressions: it decides whether one becomes the other
when its dimension variables are renamed one-to-one. Equality is this together with the same
dimension variables in the same places, and the two agree on expressions without dimension variables
only.
-/

namespace TensorIR

open Relator

/-- The correspondence that pairs variables with themselves. -/
def Correspondence.ofDims {dims : DimVar → DimVar → Prop} (unique : BiUnique dims) :
    Correspondence where
  vars := Eq
  dims := dims
  vars_unique := ⟨fun _ _ _ same same' => same.trans same'.symm,
    fun _ _ _ same same' => same.symm.trans same'⟩
  dims_unique := unique

namespace Expr

variable {a b : Expr}

theorem agrees_empty {dims : DimVar → DimVar → Prop} (unique : BiUnique dims) (vs : List Var) :
    Pairing.Agrees {} (.ofDims unique) vs :=
  fun _ _ _ => decide_eq_true_iff

/-- The function that returns an expression. It has names for dimension variables below a bound. -/
def returned (bound : Nat) (e : Expr) : Function where
  name := "main"
  params := []
  blocks := []
  body := e
  retTy := none
  vars := []
  dimNames := List.replicate bound "d"

theorem exists_bound (ds : List DimVar) : ∃ bound, ∀ d ∈ ds, d.index < bound :=
  ⟨(ds.map DimVar.index).sum + 1, fun _ mem =>
    Nat.lt_succ_of_le (List.le_sum_of_mem (List.mem_map_of_mem mem))⟩

theorem alphaEq_iff_alike : a.alphaEq b = true ↔
    ∃ (dims : DimVar → DimVar → Prop) (unique : BiUnique dims),
      Expr.Alike (.ofDims unique) a b := by
  rw [alphaEq]
  constructor
  · intro equal
    obtain ⟨p, compared⟩ := Option.isSome_iff_exists.1 equal
    obtain ⟨bound, below⟩ := exists_bound (a.dimVars ++ b.dimVars)
    rw [List.forall_mem_append] at below
    have named (e : Expr) : (e.returned bound).dimNames.length = bound := List.length_replicate
    have reaches : Pairing.Reaches (a.returned bound) (b.returned bound) [] {} p _ :=
      Pairing.reaches_expr? ((named a).symm ▸ below.1) ((named b).symm ▸ below.2) compared
    have unique := (reaches.sound Function.sound_empty).dims
    have within : p.Within (.ofDims unique) := by
      refine ⟨?_, fun x mem => mem⟩
      rw [reaches.vars]
      exact List.forall_mem_nil _
    exact ⟨_, unique, reaches.claim _ within (agrees_empty unique _)⟩
  · rintro ⟨dims, unique, alike⟩
    have within : Pairing.Within {} (.ofDims unique) :=
      ⟨List.forall_mem_nil _, List.forall_mem_nil _⟩
    obtain ⟨p, compared, -⟩ := Pairing.follows_expr? alike {} within (agrees_empty unique _)
    rw [compared]
    rfl

theorem alphaEq_iff_exists : a.alphaEq b = true ↔
    ∃ δ : DimVar → DimVar, Set.InjOn δ {d | d ∈ a.dimVars} ∧ a.relabel id δ = b := by
  rw [alphaEq_iff_alike]
  constructor
  · rintro ⟨dims, unique, alike⟩
    obtain ⟨δ, graph⟩ := exists_map_of_unique unique.2
    exact ⟨δ, Function.injOn_of_alike unique.1 graph alike.dimVars,
      alike.relabel (fun _ _ same => same) graph⟩
  · rintro ⟨δ, inj, rfl⟩
    exact ⟨_, unique_graph inj, alike_relabel (fun _ _ => rfl) fun d mem => ⟨mem, rfl⟩⟩

/-- A renaming that leaves the list of the dimension variables that occur as it is renames none of
them. -/
theorem fixed_of_dimVars {φ : Var → Var} {δ : DimVar → DimVar}
    (same : (a.relabel φ δ).dimVars = a.dimVars) : ∀ d ∈ a.dimVars, δ d = d := by
  rw [dimVars_relabel] at same
  exact List.map_eq_map_iff.1 (same.trans (List.map_id _).symm)

theorem eq_iff_alphaEq : a = b ↔ a.alphaEq b = true ∧ a.dimVars = b.dimVars := by
  rw [alphaEq_iff_exists]
  constructor
  · rintro rfl
    exact ⟨⟨id, Set.injOn_id _, relabel_eq_self (fun _ _ => rfl) fun _ _ => rfl⟩, rfl⟩
  · rintro ⟨⟨δ, -, rfl⟩, same⟩
    exact (relabel_eq_self (fun _ _ => rfl) (fixed_of_dimVars same.symm)).symm

/-- Two expressions compare equal exactly if the one becomes the other when its dimension variables
are renamed one-to-one. They are equal if moreover the same dimension variables occur in the same
order. An expression compares equal to itself and to no other exactly if no dimension variable
occurs in it. -/
theorem alphaEq_iff_relabels (a b : Expr) :
    (a.alphaEq b = true ↔
      ∃ δ : DimVar → DimVar, Set.InjOn δ {d | d ∈ a.dimVars} ∧ a.relabel id δ = b) ∧
    (a = b ↔ a.alphaEq b = true ∧ a.dimVars = b.dimVars) ∧
    ((∀ e : Expr, a.alphaEq e = true ↔ a = e) ↔ a.dimVars = []) := by
  refine ⟨alphaEq_iff_exists, eq_iff_alphaEq, fun decides => ?_, fun closed e => ?_⟩
  · -- Every dimension variable can be renamed to the next one.
    have injective : Function.Injective fun d : DimVar => (⟨d.index + 1⟩ : DimVar) := by
      rintro ⟨m⟩ ⟨n⟩ same
      exact congrArg DimVar.mk (Nat.succ.inj (DimVar.mk.inj same))
    have renamed := (decides _).1 (alphaEq_iff_exists.2 ⟨_, injective.injOn, rfl⟩)
    refine List.eq_nil_iff_forall_not_mem.2 fun d mem => ?_
    have fixed := fixed_of_dimVars (congrArg dimVars renamed.symm) d mem
    exact Nat.succ_ne_self d.index (congrArg DimVar.index fixed)
  · rw [eq_iff_alphaEq]
    refine (and_iff_left_of_imp fun equal => ?_).symm
    obtain ⟨δ, -, rfl⟩ := alphaEq_iff_exists.1 equal
    rw [dimVars_relabel, closed, List.map_nil]

/-- Two shapes of one dimension each, which are not the same, compare equal as expressions. -/
theorem alphaEq_renamed :
    (shape [.var ⟨0⟩]).alphaEq (shape [.var ⟨1⟩]) = true ∧
      shape [.var ⟨0⟩] ≠ shape [.var ⟨1⟩] ∧ ([.var ⟨0⟩] : Shape) ≠ [.var ⟨1⟩] := by
  decide

/-- Two dimension variables are not renamed to one. -/
example : (shape [.var ⟨0⟩, .var ⟨1⟩]).alphaEq (shape [.var ⟨0⟩, .var ⟨0⟩]) = false := by decide

end Expr

end TensorIR
