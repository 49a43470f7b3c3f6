import Mathlib.Data.List.Forall2
import TensorIR.Proofs.Inference

/-!
# Compatible types

A type with unknown ranks and lengths stands for all the types that come of filling them in, and two
types are compatible exactly if there is one in which nothing is unknown that both of them stand for
(`compatible_iff`). The rest follows from that and not from the comparison: compatibility is
symmetric because such an instance is one of both types, and a type loses compatible types when it
is filled in because it loses instances. It is not transitive. A rank that is unknown agrees with
two that differ from each other, and one instance cannot have both.

The instance is made place by place, so the statements about types come with statements about the
lists of fields of tuples, which have instances field by field.
-/

namespace TensorIR

namespace Ty

/-- `t.InstanceOf a` if `t` is `a` with some of its unknown ranks and lengths filled in. -/
inductive InstanceOf : Ty → Ty → Prop where
  | tensor {r s : Option Nat} (kept : ∀ n ∈ r, n ∈ s) (e : ElemType) :
      InstanceOf (.tensor s e) (.tensor r e)
  | shape {r s : Option Nat} (kept : ∀ n ∈ r, n ∈ s) : InstanceOf (.shape s) (.shape r)
  | object : InstanceOf .object .object
  | tuple {ts as : List Ty} (fields : List.Forall₂ InstanceOf ts as) :
      InstanceOf (.tuple ts) (.tuple as)

/-- No rank and no length in the type is unknown. -/
inductive Known : Ty → Prop where
  | tensor (r : Nat) (e : ElemType) : Known (.tensor (some r) e)
  | shape (n : Nat) : Known (.shape (some n))
  | object : Known .object
  | tuple {ts : List Ty} (fields : ∀ t ∈ ts, Known t) : Known (.tuple ts)

theorem agree_iff {r s : Option Nat} :
    agree r s = true ↔ ∃ n, (∀ k ∈ r, k ∈ some n) ∧ ∀ k ∈ s, k ∈ some n := by
  cases r <;> cases s <;> simp [agree]

mutual

theorem exists_instance : ∀ a b : Ty, a.compatible b = true →
    ∃ t : Ty, t.Known ∧ t.InstanceOf a ∧ t.InstanceOf b
  | tensor r e, b, compatible => by
      cases b with
      | tensor s e' =>
          rw [Ty.compatible, Bool.and_eq_true, beq_iff_eq] at compatible
          obtain ⟨rfl, ranks⟩ := compatible
          obtain ⟨n, left, right⟩ := agree_iff.1 ranks
          exact ⟨.tensor (some n) e, .tensor n e, .tensor left e, .tensor right e⟩
      | shape _ | object | tuple _ => cases compatible
  | shape r, b, compatible => by
      cases b with
      | shape s =>
          rw [Ty.compatible] at compatible
          obtain ⟨n, left, right⟩ := agree_iff.1 compatible
          exact ⟨.shape (some n), .shape n, .shape left, .shape right⟩
      | tensor _ _ | object | tuple _ => cases compatible
  | object, b, compatible => by
      cases b with
      | object => exact ⟨.object, .object, .object, .object⟩
      | tensor _ _ | shape _ | tuple _ => cases compatible
  | tuple as, b, compatible => by
      cases b with
      | tuple bs =>
          rw [Ty.compatible] at compatible
          obtain ⟨ts, known, left, right⟩ := exists_instances as bs compatible
          exact ⟨.tuple ts, .tuple known, .tuple left, .tuple right⟩
      | tensor _ _ | shape _ | object => cases compatible

theorem exists_instances : ∀ as bs : List Ty, compatibleAll as bs = true →
    ∃ ts : List Ty, (∀ t ∈ ts, t.Known) ∧ List.Forall₂ InstanceOf ts as ∧
      List.Forall₂ InstanceOf ts bs
  | [], [], _ => ⟨[], List.forall_mem_nil _, .nil, .nil⟩
  | [], _ :: _, compatible | _ :: _, [], compatible => by cases compatible
  | a :: as, b :: bs, compatible => by
      rw [compatibleAll, Bool.and_eq_true] at compatible
      obtain ⟨t, known, left, right⟩ := exists_instance a b compatible.1
      obtain ⟨ts, allKnown, lefts, rights⟩ := exists_instances as bs compatible.2
      exact ⟨t :: ts, List.forall_mem_cons.2 ⟨known, allKnown⟩, .cons left lefts,
        .cons right rights⟩

end

mutual

theorem compatible_of_instance : ∀ (t : Ty) {a b : Ty}, t.Known → t.InstanceOf a →
    t.InstanceOf b → a.compatible b = true
  | _, _, _, .tensor n _, .tensor left _, .tensor right _ => by
      rw [compatible, beq_self_eq_true, Bool.true_and]
      exact agree_iff.2 ⟨n, left, right⟩
  | _, _, _, .shape n, .shape left, .shape right => by
      rw [compatible]
      exact agree_iff.2 ⟨n, left, right⟩
  | _, _, _, .object, .object, .object => rfl
  | .tuple ts, _, _, .tuple known, .tuple left, .tuple right => by
      rw [compatible]
      exact compatibleAll_of_instances ts known left right

theorem compatibleAll_of_instances : ∀ (ts : List Ty) {as bs : List Ty}, (∀ t ∈ ts, t.Known) →
    List.Forall₂ InstanceOf ts as → List.Forall₂ InstanceOf ts bs → compatibleAll as bs = true
  | [], _, _, _, .nil, .nil => rfl
  | t :: ts, _, _, known, .cons left lefts, .cons right rights => by
      rw [List.forall_mem_cons] at known
      rw [compatibleAll, compatible_of_instance t known.1 left right,
        compatibleAll_of_instances ts known.2 lefts rights, Bool.and_self]

end

mutual

theorem InstanceOf.trans : ∀ (t : Ty) {a b : Ty}, t.InstanceOf a → a.InstanceOf b → t.InstanceOf b
  | _, _, _, .tensor kept e, .tensor kept' _ => .tensor (fun n mem => kept n (kept' n mem)) e
  | _, _, _, .shape kept, .shape kept' => .shape fun n mem => kept n (kept' n mem)
  | _, _, _, .object, .object => .object
  | .tuple ts, _, _, .tuple fields, .tuple fields' => .tuple (instances_trans ts fields fields')

theorem instances_trans : ∀ (ts : List Ty) {as bs : List Ty}, List.Forall₂ InstanceOf ts as →
    List.Forall₂ InstanceOf as bs → List.Forall₂ InstanceOf ts bs
  | [], _, _, .nil, .nil => .nil
  | t :: ts, _, _, .cons head tail, .cons head' tail' =>
      .cons (InstanceOf.trans t head head') (instances_trans ts tail tail')

end

theorem compatible_iff {a b : Ty} :
    a.compatible b = true ↔ ∃ t : Ty, t.Known ∧ t.InstanceOf a ∧ t.InstanceOf b :=
  ⟨exists_instance a b, fun ⟨t, known, left, right⟩ => compatible_of_instance t known left right⟩

/-- Two types are compatible exactly if they have a common instance in which nothing is unknown.
Every type is compatible with itself, compatibility is symmetric, and whatever is compatible with an
instance of a type is compatible with the type. -/
theorem compatible_iff_instance :
    (∀ a b : Ty, a.compatible b = true ↔
      ∃ t : Ty, t.Known ∧ t.InstanceOf a ∧ t.InstanceOf b) ∧
    (∀ a : Ty, a.compatible a = true) ∧
    (∀ a b : Ty, a.compatible b = b.compatible a) ∧
    ∀ a a' b : Ty, a'.InstanceOf a → a'.compatible b = true → a.compatible b = true := by
  refine ⟨fun a b => compatible_iff, compatible_self, fun a b => ?_, fun a a' b filled => ?_⟩
  · rw [Bool.eq_iff_iff, compatible_iff, compatible_iff]
    exact exists_congr fun t => and_congr_right fun _ => and_comm
  · rw [compatible_iff, compatible_iff]
    rintro ⟨t, known, left, right⟩
    exact ⟨t, known, left.trans t filled, right⟩

/-- The rank of the first field and the length in the second one are unknown on different sides. -/
theorem compatible_iff_instance_nested :
    let a : Ty := .tuple [.tensor none .float32, .tuple [.shape none, .object]]
    let a' : Ty := .tuple [.tensor (some 2) .float32, .tuple [.shape none, .object]]
    let b : Ty := .tuple [.tensor none .float32, .tuple [.shape (some 3), .object]]
    (∃ t : Ty, t.Known ∧ t.InstanceOf a' ∧ t.InstanceOf b) ∧
      a'.InstanceOf a ∧ a'.compatible b = true ∧ a.compatible b = true := by
  intro a a' b
  have compatible : a'.compatible b = true := by decide
  have filled : a'.InstanceOf a :=
    .tuple (.cons (.tensor (by decide) .float32)
      (.cons (.tuple (.cons (.shape (by decide)) (.cons .object .nil))) .nil))
  obtain ⟨instances, -, -, loses⟩ := compatible_iff_instance
  exact ⟨(instances a' b).1 compatible, filled, compatible, loses a a' b filled compatible⟩

/-- Compatibility is not transitive. -/
example : (Ty.shape (some 1)).compatible (.shape none) = true ∧
    (Ty.shape none).compatible (.shape (some 2)) = true ∧
    (Ty.shape (some 1)).compatible (.shape (some 2)) = false := by decide

end Ty

end TensorIR
