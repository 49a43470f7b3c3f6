import Mathlib.Data.List.Forall2
import TensorIR.Proofs.Result

/-!
# Lists, options and results in step

Two runs of one program on related data give related data. For lists, related means place by place
(`List.Forall₂`), for options both absent or both present (`Option.Rel`), and for results that both
runs fail, for whatever reason, or that neither does (`Agree`).

The list functions that compare elements, as a look-up or a count does, keep in step only where the
relation pairs every element with at most one other (`Relator.BiUnique`), for then two elements are
equal on the one side exactly if their partners are on the other.
-/

namespace TensorIR

open Relator

variable {α β γ δ ε ε' : Type} {R : α → β → Prop} {S : γ → δ → Prop}

theorem rel_ite {c d : Prop} [Decidable c] [Decidable d] {a a' : α} {b b' : β} (same : c ↔ d)
    (yes : R a b) (no : R a' b') : R (if c then a else a') (if d then b else b') := by
  by_cases holds : c
  · rw [if_pos holds, if_pos (same.1 holds)]
    exact yes
  · rw [if_neg holds, if_neg (fun h => holds (same.2 h))]
    exact no

/-! ### Options -/

theorem rel_bind {x : Option α} {y : Option β} {f : α → Option γ} {g : β → Option δ}
    (h : Option.Rel R x y) (both : ∀ a b, R a b → Option.Rel S (f a) (g b)) :
    Option.Rel S (x.bind f) (y.bind g) := by
  cases h with
  | none => exact .none
  | some related => exact both _ _ related

theorem rel_map {x : Option α} {y : Option β} {f : α → γ} {g : β → δ}
    (h : Option.Rel R x y) (both : ∀ a b, R a b → S (f a) (g b)) :
    Option.Rel S (x.map f) (y.map g) := by
  cases h with
  | none => exact .none
  | some related => exact .some (both _ _ related)

theorem rel_imp {R' : α → β → Prop} {x : Option α} {y : Option β} (h : Option.Rel R x y)
    (weaker : ∀ a b, R a b → R' a b) : Option.Rel R' x y := by
  cases h with
  | none => exact .none
  | some related => exact .some (weaker _ _ related)

theorem rel_orElse {x x' : Option α} {y y' : Option β} (h : Option.Rel R x y)
    (h' : Option.Rel R x' y') : Option.Rel R (x <|> x') (y <|> y') := by
  cases h with
  | none => exact h'
  | some related => exact .some related

theorem rel_getD {x : Option α} {y : Option β} {a : α} {b : β} (h : Option.Rel R x y)
    (default : R a b) : R (x.getD a) (y.getD b) := by
  cases h with
  | none => exact default
  | some related => exact related

/-- Options of what is equal are equal. -/
theorem rel_eq_iff {x y : Option α} : Option.Rel Eq x y ↔ x = y := by
  constructor
  · rintro (⟨⟨⟩⟩ | _) <;> rfl
  · rintro rfl
    cases x with
    | none => exact .none
    | some a => exact .some rfl

theorem biUnique_option (unique : BiUnique R) : BiUnique (Option.Rel R) := by
  constructor
  · rintro x y z (h | _) (h' | _)
    · exact congrArg some (unique.1 h h')
    · rfl
  · rintro x y z (h | _) (h' | _)
    · exact congrArg some (unique.2 h h')
    · rfl

/-! ### Lists -/

theorem rel_isEmpty {xs : List α} {ys : List β} (h : List.Forall₂ R xs ys) :
    xs.isEmpty = ys.isEmpty := by
  cases h <;> rfl

theorem rel_getElem? {xs : List α} {ys : List β} (h : List.Forall₂ R xs ys) (i : Nat) :
    Option.Rel R xs[i]? ys[i]? := by
  induction h generalizing i with
  | nil => exact .none
  | cons head _ ih =>
      cases i with
      | zero => exact .some head
      | succ i => exact ih i

/-- Two lists that grow by partners at the end. -/
theorem rel_getElem?_concat {xs : List α} {ys : List β} {i j : Nat} {a : α} {b : β}
    (last : i = xs.length ↔ j = ys.length) (old : Option.Rel R xs[i]? ys[j]?) (new : R a b) :
    Option.Rel R (xs ++ [a])[i]? (ys ++ [b])[j]? := by
  have other {ζ : Type} {zs : List ζ} {z : ζ} {n : Nat} (h : n ≠ zs.length) :
      (zs ++ [z])[n]? = zs[n]? := by
    grind
  by_cases h : i = xs.length
  · rw [h, last.1 h, List.getElem?_concat_length, List.getElem?_concat_length]
    exact .some new
  · rw [other h, other fun h' => h (last.2 h')]
    exact old

theorem exists_partner {xs : List α} {ys : List β} (h : List.Forall₂ R xs ys) {a : α}
    (mem : a ∈ xs) : ∃ b ∈ ys, R a b := by
  induction h with
  | nil => cases mem
  | @cons x y xs ys head _ ih =>
      rcases List.mem_cons.1 mem with rfl | mem
      · exact ⟨y, List.mem_cons_self, head⟩
      · obtain ⟨b, mem, related⟩ := ih mem
        exact ⟨b, List.mem_cons_of_mem _ mem, related⟩

/-- Functions that agree on partners give equal lists. -/
theorem map_eq_map {xs : List α} {ys : List β} {f : α → γ} {g : β → γ}
    (h : List.Forall₂ (fun a b => f a = g b) xs ys) : xs.map f = ys.map g := by
  induction h with
  | nil => rfl
  | cons head _ ih => rw [List.map_cons, List.map_cons, head, ih]

theorem rel_findSome? {xs : List α} {ys : List β} {f : α → Option γ} {g : β → Option δ}
    (h : List.Forall₂ R xs ys) (both : ∀ a b, R a b → Option.Rel S (f a) (g b)) :
    Option.Rel S (xs.findSome? f) (ys.findSome? g) := by
  induction h with
  | nil => exact .none
  | @cons a b xs ys head _ ih =>
      rw [List.findSome?_cons, List.findSome?_cons]
      have found := both a b head
      revert found
      generalize f a = x
      generalize g b = y
      rintro (found | _)
      · exact .some found
      · exact ih

theorem rel_find? {xs : List α} {ys : List β} {p : α → Bool} {q : β → Bool}
    (h : List.Forall₂ R xs ys) (both : ∀ a b, R a b → p a = q b) :
    Option.Rel R (xs.find? p) (ys.find? q) := by
  induction h with
  | nil => exact .none
  | @cons a b xs ys head _ ih =>
      rw [List.find?_cons, List.find?_cons, both a b head]
      cases q b with
      | true => exact .some head
      | false => exact ih

theorem rel_any {xs : List α} {ys : List β} {p : α → Bool} {q : β → Bool}
    (h : List.Forall₂ R xs ys) (both : ∀ a b, R a b → p a = q b) : xs.any p = ys.any q := by
  induction h with
  | nil => rfl
  | cons head _ ih => rw [List.any_cons, List.any_cons, both _ _ head, ih]

theorem rel_all {xs : List α} {ys : List β} {p : α → Bool} {q : β → Bool}
    (h : List.Forall₂ R xs ys) (both : ∀ a b, R a b → p a = q b) : xs.all p = ys.all q := by
  induction h with
  | nil => rfl
  | cons head _ ih => rw [List.all_cons, List.all_cons, both _ _ head, ih]

theorem rel_foldlM {xs : List α} {ys : List β} {f : γ → α → Option γ} {g : δ → β → Option δ}
    (h : List.Forall₂ R xs ys)
    (both : ∀ c d a b, S c d → R a b → Option.Rel S (f c a) (g d b)) {c : γ} {d : δ}
    (start : S c d) : Option.Rel S (xs.foldlM f c) (ys.foldlM g d) := by
  induction h generalizing c d with
  | nil => exact .some start
  | cons head _ ih => exact rel_bind (both _ _ _ _ start head) fun _ _ next => ih next

section Compare

variable [DecidableEq α] [DecidableEq β] {xs : List α} {ys : List β} {a : α} {b : β}

theorem rel_contains (unique : BiUnique R) (h : List.Forall₂ R xs ys) (related : R a b) :
    xs.contains a = ys.contains b := by
  rw [Bool.eq_iff_iff, List.contains_iff_mem, List.contains_iff_mem]
  exact List.rel_mem unique related h

theorem rel_beq (unique : BiUnique R) {a' : α} {b' : β} (related : R a b) (related' : R a' b') :
    (a == a') = (b == b') := by
  rw [Bool.eq_iff_iff, beq_iff_eq, beq_iff_eq]
  exact rel_eq unique related related'

theorem rel_lookup (unique : BiUnique R) {xs : List (α × γ)} {ys : List (β × δ)}
    (h : List.Forall₂ (fun x y => R x.1 y.1 ∧ S x.2 y.2) xs ys) (related : R a b) :
    Option.Rel S (xs.lookup a) (ys.lookup b) := by
  induction h with
  | nil => exact .none
  | @cons x y xs ys head _ ih =>
      rw [List.lookup_cons, List.lookup_cons, rel_beq unique related head.1]
      cases b == y.1 with
      | true => exact .some head.2
      | false => exact ih

theorem rel_count (unique : BiUnique R) (h : List.Forall₂ R xs ys) (related : R a b) :
    xs.count a = ys.count b := by
  induction h with
  | nil => rfl
  | cons head _ ih =>
      rw [List.count_cons, List.count_cons, ih, rel_beq unique head related]

theorem rel_idxOf (unique : BiUnique R) (h : List.Forall₂ R xs ys) (related : R a b) :
    xs.idxOf a = ys.idxOf b := by
  induction h with
  | nil => rfl
  | cons head _ ih =>
      rw [List.idxOf_cons, List.idxOf_cons, ih, rel_beq unique head related]

theorem rel_eraseDups (unique : BiUnique R) (xs : List α) (ys : List β)
    (h : List.Forall₂ R xs ys) : List.Forall₂ R xs.eraseDups ys.eraseDups := by
  match xs, ys with
  | [], [] => exact .nil
  | [], _ :: _ | _ :: _, [] => cases h
  | a :: xs, b :: ys =>
      obtain ⟨head, tail⟩ := List.forall₂_cons.1 h
      rw [List.eraseDups_cons, List.eraseDups_cons]
      refine .cons head (rel_eraseDups unique _ _ (List.rel_filter ?_ tail))
      intro x y related
      simp [rel_eq unique related head]
termination_by xs.length
decreasing_by
  rw [List.length_cons]
  exact Nat.lt_succ_of_le (List.length_filter_le _ _)

end Compare

/-! ### Results -/

/-- Both fail, or both succeed with related results. -/
inductive Agree (R : α → β → Prop) : Except ε α → Except ε' β → Prop where
  | ok {a b} (h : R a b) : Agree R (.ok a) (.ok b)
  | error {e e'} : Agree R (.error e) (.error e')

namespace Agree

variable {x : Except ε α} {y : Except ε' β}

theorem bind {f : α → Except ε γ} {g : β → Except ε' δ} (h : Agree R x y)
    (both : ∀ a b, R a b → Agree S (f a) (g b)) : Agree S (x >>= f) (y >>= g) := by
  cases h with
  | ok related => exact both _ _ related
  | error => exact .error

theorem map {f : α → γ} {g : β → δ} (h : Agree R x y) (both : ∀ a b, R a b → S (f a) (g b)) :
    Agree S (f <$> x) (g <$> y) := by
  cases h with
  | ok related => exact .ok (both _ _ related)
  | error => exact .error

/-- Results agree if each success on one side has a related one on the other. -/
theorem intro (left : ∀ a, x = .ok a → ∃ b, y = .ok b ∧ R a b)
    (right : ∀ b, y = .ok b → ∃ a, x = .ok a) : Agree R x y := by
  cases x with
  | ok a =>
      obtain ⟨b, rfl, related⟩ := left a rfl
      exact .ok related
  | error e =>
      cases y with
      | ok b =>
          obtain ⟨a, same⟩ := right b rfl
          cases same
      | error e' => exact .error

/-- Steps that are followed by an error do not matter. -/
theorem throw {f : α → ε} {g : β → ε'} :
    Agree S (x >>= fun a => (.error (f a) : Except ε γ))
      (y >>= fun b => (.error (g b) : Except ε' δ)) := by
  cases x <;> cases y <;> exact .error

/-- The same after a step that is only a check. -/
theorem check {x : Except ε Unit} {y : Except ε' Unit} {f : Except ε γ} {g : Except ε' δ}
    (h : Agree Eq x y) (both : Agree S f g) : Agree S (x >>= fun _ => f) (y >>= fun _ => g) :=
  h.bind fun _ _ _ => both

theorem mapError {ζ ζ' : Type} {f : ε → ζ} {g : ε' → ζ'} (h : Agree R x y) :
    Agree R (x.mapError f) (y.mapError g) := by
  cases h with
  | ok related => exact .ok related
  | error => exact .error

theorem ite {c d : Prop} [Decidable c] [Decidable d] {x' : Except ε α} {y' : Except ε' β}
    (same : c ↔ d) (yes : c → Agree R x y) (no : ¬ c → Agree R x' y') :
    Agree R (if c then x else x') (if d then y else y') := by
  by_cases holds : c
  · rw [if_pos holds, if_pos (same.1 holds)]
    exact yes holds
  · rw [if_neg holds, if_neg (fun h => holds (same.2 h))]
    exact no holds

theorem foldlM {xs : List γ} {ys : List δ} {f : α → γ → Except ε α} {g : β → δ → Except ε' β}
    (h : List.Forall₂ S xs ys) (both : ∀ a b c d, R a b → S c d → Agree R (f a c) (g b d))
    {a : α} {b : β} (start : R a b) : Agree R (xs.foldlM f a) (ys.foldlM g b) := by
  induction h generalizing a b with
  | nil => exact .ok start
  | cons head _ ih => exact (both _ _ _ _ start head).bind fun _ _ next => ih next

theorem mapM {xs : List γ} {ys : List δ} {f : γ → Except ε α} {g : δ → Except ε' β}
    (h : List.Forall₂ S xs ys) (both : ∀ c d, S c d → Agree R (f c) (g d)) :
    Agree (List.Forall₂ R) (xs.mapM f) (ys.mapM g) := by
  induction h with
  | nil => exact .ok .nil
  | cons head _ ih =>
      rw [List.mapM_cons, List.mapM_cons]
      exact (both _ _ head).bind fun _ _ first => ih.bind fun _ _ rest => .ok (.cons first rest)

/-- What is known of the two results if neither is an error. -/
theorem strengthen {T : α → β → Prop} (h : Agree R x y)
    (both : ∀ a b, x = .ok a → y = .ok b → T a b) : Agree T x y := by
  cases h with
  | ok _ => exact .ok (both _ _ rfl rfl)
  | error => exact .error

theorem exists_iff (h : Agree R x y) : (∃ a, x = .ok a) ↔ ∃ b, y = .ok b := by
  cases h with
  | ok _ => exact ⟨fun _ => ⟨_, rfl⟩, fun _ => ⟨_, rfl⟩⟩
  | error => exact ⟨nofun, nofun⟩

theorem of_ok {a : α} {b : β} (h : Agree R x y) (left : x = .ok a) (right : y = .ok b) : R a b := by
  subst left right
  cases h with
  | ok related => exact related

end Agree

end TensorIR
