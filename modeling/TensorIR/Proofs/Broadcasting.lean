import Mathlib.Data.List.Basic
import TensorIR.Proofs.Dimensions
import TensorIR.Proofs.Folding

/-!
# Broadcasting, place by place

Two lists of dimensions are aligned at their ends, and each place of the result has what the two
have there: the one dimension if there is only one or if both are the same, and the other one beside
a unit (`Axis`). `Broadcasts` says so of every place, counted from the last. It is a relation on
lists of any entries, and it is used twice. On dimensions, where entries are the same only if they
are written the same, it is exactly what `Shape.broadcast?` finds; on 64-bit integers, it is the
rule by which run-time shapes broadcast.

The two meet in one fact: a map that keeps the unit keeps the relation. Evaluation is such a map,
and so what is found without the values of the variables is right for all values, also where these
make dimensions equal, or equal to one, that are not so as written (`Shape.broadcast?_sound`). For
literals, the way from integers to dimensions is such a map as well, and nothing is missed.
-/

namespace TensorIR

/-- What stands in one place of two aligned lists, and of the list that they broadcast to. -/
inductive Axis {α : Type} (unit : α) : Option α → Option α → Option α → Prop where
  | beyond : Axis unit none none none
  | left (m : α) : Axis unit (some m) none (some m)
  | right (n : α) : Axis unit none (some n) (some n)
  | same (m : α) : Axis unit (some m) (some m) (some m)
  | leftUnit (n : α) : Axis unit (some unit) (some n) (some n)
  | rightUnit (m : α) : Axis unit (some m) (some unit) (some m)

/-- The entry at the given distance from the last. -/
def fromLast {α : Type} (xs : List α) (i : Nat) : Option α := xs.reverse[i]?

/-- Aligned at their ends, the first two lists broadcast to the third. -/
def Broadcasts {α : Type} (unit : α) (xs ys zs : List α) : Prop :=
  ∀ i, Axis unit (fromLast xs i) (fromLast ys i) (fromLast zs i)

section Relation

variable {α β : Type} {unit : α} {x y z z' : Option α} {xs ys zs zs' : List α}

theorem fromLast_map (f : α → β) (xs : List α) (i : Nat) :
    fromLast (xs.map f) i = (fromLast xs i).map f := by
  rw [fromLast, ← List.map_reverse, List.getElem?_map, fromLast]

theorem eq_of_fromLast (same : ∀ i, fromLast xs i = fromLast ys i) : xs = ys :=
  List.reverse_injective (List.ext_getElem? same)

theorem Axis.unique (h : Axis unit x y z) (h' : Axis unit x y z') : z = z' := by
  cases h <;> cases h' <;> rfl

theorem axis_none_left : Axis unit none y z ↔ z = y := by
  constructor
  · intro axis
    cases axis <;> rfl
  · rintro rfl
    cases z with
    | none => exact .beyond
    | some n => exact .right n

theorem axis_none_right : Axis unit x none z ↔ z = x := by
  constructor
  · intro axis
    cases axis <;> rfl
  · rintro rfl
    cases z with
    | none => exact .beyond
    | some m => exact .left m

theorem Axis.map {f : α → β} {unit' : β} (kept : f unit = unit') (h : Axis unit x y z) :
    Axis unit' (x.map f) (y.map f) (z.map f) := by
  subst kept
  cases h with
  | beyond => exact .beyond
  | left m => exact .left (f m)
  | right n => exact .right (f n)
  | same m => exact .same (f m)
  | leftUnit n => exact .leftUnit (f n)
  | rightUnit m => exact .rightUnit (f m)

theorem Broadcasts.unique (h : Broadcasts unit xs ys zs) (h' : Broadcasts unit xs ys zs') :
    zs = zs' :=
  eq_of_fromLast fun i => (h i).unique (h' i)

theorem Broadcasts.map {f : α → β} {unit' : β} (kept : f unit = unit')
    (h : Broadcasts unit xs ys zs) : Broadcasts unit' (xs.map f) (ys.map f) (zs.map f) := by
  intro i
  rw [fromLast_map, fromLast_map, fromLast_map]
  exact (h i).map kept

end Relation

/-! ### What is found as written -/

theorem Dim.join?_eq_some_iff {a b c : Dim} :
    a.join? b = some c ↔ Axis (.int 1) (some a) (some b) (some c) := by
  rw [join?]
  constructor
  · intro joined
    split at joined
    · next kept =>
        cases joined
        obtain rfl | rfl := kept
        · exact .same a
        · exact .rightUnit a
    · split at joined
      · next unit =>
          cases joined
          subst unit
          exact .leftUnit b
      · cases joined
  · intro axis
    cases axis with
    | same _ => rw [if_pos (.inl rfl)]
    | rightUnit _ => rw [if_pos (.inr rfl)]
    | leftUnit _ =>
        split
        · next kept =>
            obtain rfl | rfl := kept
            · rfl
            · rfl
        · rw [if_pos rfl]

namespace Shape

variable {a b s : Shape}

theorem axes_cons {d e : Dim} : (∀ i : Nat, Axis (Dim.int 1) (d :: a)[i]? (e :: b)[i]? s[i]?) ↔
    ∃ f s', s = f :: s' ∧ Axis (.int 1) (some d) (some e) (some f) ∧
      ∀ i : Nat, Axis (Dim.int 1) a[i]? b[i]? s'[i]? := by
  constructor
  · intro axes
    have first := axes 0
    cases s with
    | nil => cases first
    | cons f s' => exact ⟨f, s', rfl, first, fun i => axes (i + 1)⟩
  · rintro ⟨f, s', rfl, first, rest⟩ i
    cases i with
    | zero => exact first
    | succ i => exact rest i

theorem broadcastInner?_eq_some_iff :
    broadcastInner? a b = some s ↔ ∀ i : Nat, Axis (Dim.int 1) a[i]? b[i]? s[i]? := by
  fun_induction broadcastInner? a b generalizing s with
  | case1 b =>
      simp only [List.getElem?_nil, axis_none_left, ← List.ext_getElem?_iff]
      exact Option.some_inj.trans eq_comm
  | case2 d a =>
      simp only [List.getElem?_nil, axis_none_right, ← List.ext_getElem?_iff]
      exact Option.some_inj.trans eq_comm
  | case3 d a e b ih =>
      rw [axes_cons]
      constructor
      · intro found
        obtain ⟨f, joined, found⟩ := Option.bind_eq_some_iff.1 found
        obtain ⟨s', rest, same⟩ := Option.bind_eq_some_iff.1 found
        cases same
        exact ⟨f, s', rfl, Dim.join?_eq_some_iff.1 joined, ih.1 rest⟩
      · rintro ⟨f, s', rfl, first, rest⟩
        rw [Dim.join?_eq_some_iff.2 first, ih.2 rest]
        rfl

theorem exists_clash_inner (unknown : broadcastInner? a b = none) :
    ∃ i : Nat, ∀ z, ¬ Axis (Dim.int 1) a[i]? b[i]? z := by
  fun_induction broadcastInner? a b with
  | case1 b => cases unknown
  | case2 d a => cases unknown
  | case3 d a e b ih =>
      cases joined : d.join? e with
      | none =>
          refine ⟨0, fun z axis => ?_⟩
          cases z with
          | none => cases axis
          | some f =>
              rw [Dim.join?_eq_some_iff.2 axis] at joined
              cases joined
      | some f =>
          cases rest : broadcastInner? a b with
          | none =>
              obtain ⟨i, clash⟩ := ih rest
              exact ⟨i + 1, clash⟩
          | some s => simp [joined, rest] at unknown

/-- As written, two shapes broadcast by the rule, and only if they do by the rule. -/
theorem broadcast?_eq_some_iff : a.broadcast? b = some s ↔ Broadcasts (.int 1) a b s := by
  rw [broadcast?, Option.map_eq_some_iff]
  constructor
  · rintro ⟨s', inner, rfl⟩ i
    rw [fromLast, fromLast, fromLast, List.reverse_reverse]
    exact broadcastInner?_eq_some_iff.1 inner i
  · intro broadcasts
    exact ⟨s.reverse, broadcastInner?_eq_some_iff.2 broadcasts, List.reverse_reverse s⟩

/-- Where nothing is found, two dimensions in one place are in the way. -/
theorem exists_clash (unknown : a.broadcast? b = none) :
    ∃ i, ∀ z, ¬ Axis (.int 1) (fromLast a i) (fromLast b i) z :=
  exists_clash_inner (Option.map_eq_none_iff.1 unknown)

/-! ### What is right for all values -/

section Values

variable {ρ : DimVar → Option Int64} {xs ys : List Int64}

theorem eval_eq_some_iff : a.mapM (Dim.eval ρ) = some xs ↔ a.map (Dim.eval ρ) = xs.map some := by
  induction a generalizing xs with
  | nil => cases xs <;> simp
  | cons d a ih =>
      constructor
      · intro dims
        obtain ⟨n, rest, rfl, head, tail⟩ := eval_cons.1 dims
        rw [List.map_cons, List.map_cons, head, ih.1 tail]
      · intro dims
        cases xs with
        | nil => cases dims
        | cons n rest =>
            obtain ⟨head, tail⟩ := List.cons.inj dims
            exact eval_cons.2 ⟨n, rest, rfl, head, ih.2 tail⟩

/-- The value of a dimension, and zero for one that has none. -/
def valueOf (ρ : DimVar → Option Int64) (d : Dim) : Int64 := (d.eval ρ).getD 0

theorem eval_map_valueOf (known : ∀ d ∈ a, (d.eval ρ).isSome) :
    a.mapM (Dim.eval ρ) = some (a.map (valueOf ρ)) := by
  rw [eval_eq_some_iff, List.map_map]
  refine List.map_congr_left fun d mem => ?_
  obtain ⟨n, value⟩ := Option.isSome_iff_exists.1 (known d mem)
  rw [Function.comp, valueOf, value, Option.getD_some]

theorem isSome_of_eval (dims : a.mapM (Dim.eval ρ) = some xs) : ∀ d ∈ a, (d.eval ρ).isSome := by
  intro d mem
  have listed : d.eval ρ ∈ xs.map some := by
    rw [← eval_eq_some_iff.1 dims]
    exact List.mem_map_of_mem mem
  obtain ⟨n, -, value⟩ := List.mem_map.1 listed
  rw [← value, Option.isSome_some]

theorem map_valueOf (dims : a.mapM (Dim.eval ρ) = some xs) : a.map (valueOf ρ) = xs := by
  have again := eval_map_valueOf (isSome_of_eval dims)
  exact Option.some.inj (again.symm.trans dims)

theorem broadcasts_values (found : a.broadcast? b = some s)
    (left : a.mapM (Dim.eval ρ) = some xs) (right : b.mapM (Dim.eval ρ) = some ys) :
    s.mapM (Dim.eval ρ) = some (s.map (valueOf ρ)) ∧ Broadcasts 1 xs ys (s.map (valueOf ρ)) := by
  constructor
  · refine eval_map_valueOf fun d mem => ?_
    cases mem_broadcast? found d mem with
    | inl mem => exact isSome_of_eval left d mem
    | inr mem => exact isSome_of_eval right d mem
  · rw [← map_valueOf left, ← map_valueOf right]
    exact (broadcast?_eq_some_iff.1 found).map rfl

theorem not_broadcasts_of_literals (unknown : (ofInts xs).broadcast? (ofInts ys) = none)
    (zs : List Int64) : ¬ Broadcasts 1 xs ys zs := by
  intro broadcasts
  have written : Broadcasts (.int 1) (ofInts xs) (ofInts ys) (ofInts zs) := broadcasts.map rfl
  rw [broadcast?_eq_some_iff.2 written] at unknown
  cases unknown

end Values

/-- What two shapes broadcast to as written has a value wherever both shapes have one, and this is
the one list that their values broadcast to. Two shapes of literals broadcast to nothing only if
their values do not. -/
theorem broadcast?_sound :
    (∀ (a b s : Shape) (ρ : DimVar → Option Int64) (xs ys : List Int64),
      a.broadcast? b = some s →
      a.mapM (Dim.eval ρ) = some xs → b.mapM (Dim.eval ρ) = some ys →
      ∃ zs, s.mapM (Dim.eval ρ) = some zs ∧ ∀ ws, Broadcasts 1 xs ys ws ↔ ws = zs) ∧
    ∀ xs ys : List Int64, (ofInts xs).broadcast? (ofInts ys) = none →
      ∀ zs, ¬ Broadcasts 1 xs ys zs := by
  refine ⟨fun a b s ρ xs ys found left right => ?_, fun xs ys => not_broadcasts_of_literals⟩
  obtain ⟨value, broadcasts⟩ := broadcasts_values found left right
  refine ⟨_, value, fun ws => ⟨fun other => other.unique broadcasts, ?_⟩⟩
  rintro rfl
  exact broadcasts

/-- Here `n` is one and `m` is two, so that dimensions coincide which are not the same as written:
`(n, 1, m)` and `(2 * n, m)` broadcast to `(n, 2 * n, m)`. -/
theorem broadcast?_sound_coinciding :
    let ρ : DimVar → Option Int64 := fun v => [1, 2][v.index]?
    let n : Dim := .var ⟨0⟩
    let m : Dim := .var ⟨1⟩
    (∃ zs, Shape.broadcast? [n, .int 1, m] [.binary .mul (.int 2) n, m] =
          some [n, .binary .mul (.int 2) n, m] ∧
        [n, .binary .mul (.int 2) n, m].mapM (Dim.eval ρ) = some zs ∧
        ∀ ws, Broadcasts 1 [1, 1, 2] [2, 2] ws ↔ ws = zs) ∧
      ∀ zs : List Int64, ¬ Broadcasts 1 [4, 2, 3] [4, 3] zs := by
  intro ρ n m
  have found : Shape.broadcast? [n, .int 1, m] [.binary .mul (.int 2) n, m] =
      some [n, .binary .mul (.int 2) n, m] := by decide
  obtain ⟨zs, value, broadcasts⟩ := broadcast?_sound.1 _ _ _ ρ [1, 1, 2] [2, 2] found
    (by decide) (by decide)
  exact ⟨⟨zs, found, value, broadcasts⟩, broadcast?_sound.2 [4, 2, 3] [4, 3] (by decide)⟩

end Shape

end TensorIR
