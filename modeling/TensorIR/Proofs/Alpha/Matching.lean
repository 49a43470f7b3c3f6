import TensorIR.Function.Alpha
import TensorIR.Proofs.Alpha.Alike
import TensorIR.Proofs.Dominance
import TensorIR.Proofs.Scoping

/-!
# What a comparison finds

Two well-formed functions that compare equal are alike under some correspondence.

Each step of a comparison leads from one pairing to a larger one, and whatever correspondence
contains the larger pairing makes the compared parts alike (`Reaches`). No step decides by itself,
since a later one may still refuse; it is the last pairing that becomes the correspondence, extended
by the variables that are yet to be allocated. All that an expression asks of the correspondence is
that the reads that agree are those of partners (`Pairing.Agrees`). A read could also succeed as one
of the same free variable on both sides. In a well-formed function it cannot: the checker's scope
knows the variables that have been paired and no others.
-/

namespace TensorIR

open Relator

namespace Pairs

variable {α : Type} {pairs : Pairs α} {a b : α}

/-- The two identifiers are paired with each other. -/
def Related (pairs : Pairs α) (a b : α) : Prop := (a, b) ∈ pairs

theorem unique_nil : BiUnique (Related ([] : Pairs α)) := by
  constructor
  · intro a b c h
    cases h
  · intro a b c h
    cases h

theorem unique_cons (unique : BiUnique pairs.Related) (left : a ∉ pairs.map Prod.fst)
    (right : b ∉ pairs.map Prod.snd) : BiUnique (Related ((a, b) :: pairs)) := by
  constructor
  · rintro a₁ a₂ c (_ | ⟨_, h₁⟩) (_ | ⟨_, h₂⟩)
    · rfl
    · exact absurd (List.mem_map_of_mem h₂) right
    · exact absurd (List.mem_map_of_mem h₁) right
    · exact unique.1 h₁ h₂
  · rintro c b₁ b₂ (_ | ⟨_, h₁⟩) (_ | ⟨_, h₂⟩)
    · rfl
    · exact absurd (List.mem_map_of_mem h₂) left
    · exact absurd (List.mem_map_of_mem h₁) left
    · exact unique.2 h₁ h₂

variable [DecidableEq α]

theorem right?_eq_none_iff : pairs.right? a = none ↔ a ∉ pairs.map Prod.fst := by
  rw [right?, List.lookup_eq_none_iff, List.mem_map]
  constructor
  · rintro absent ⟨pair, mem, rfl⟩
    simpa using absent pair mem
  · intro absent pair mem
    exact bne_iff_ne.2 fun same => absent ⟨pair, mem, same.symm⟩

theorem left?_eq_none_iff : pairs.left? b = none ↔ b ∉ pairs.map Prod.snd := by
  rw [left?, Option.map_eq_none_iff, List.find?_eq_none, List.mem_map]
  constructor
  · rintro absent ⟨pair, mem, rfl⟩
    simpa using absent pair mem
  · intro absent pair mem same
    exact absent ⟨pair, mem, of_decide_eq_true same⟩

theorem related_of_right? (h : pairs.right? a = some b) : pairs.Related a b := by
  obtain ⟨before, after, rfl, -⟩ := List.lookup_eq_some_iff.1 h
  exact List.mem_append_right _ List.mem_cons_self

theorem related_of_left? (h : pairs.left? b = some a) : pairs.Related a b := by
  obtain ⟨⟨a', b'⟩, found, same⟩ := Option.map_eq_some_iff.1 h
  have first : a' = a := same
  have second : b' = b := by simpa using List.find?_some found
  subst first second
  exact List.mem_of_find?_eq_some found

theorem related_of_standing (h : pairs.standing a b = .paired) : pairs.Related a b := by
  rw [standing] at h
  split at h
  · cases h
  · next right _ =>
      split at h
      · next both => exact both.1 ▸ related_of_right? right
      · cases h
  · cases h

theorem absent_of_standing (h : pairs.standing a b = .free) :
    a ∉ pairs.map Prod.fst ∧ b ∉ pairs.map Prod.snd := by
  rw [standing] at h
  split at h
  · next right left => exact ⟨right?_eq_none_iff.1 right, left?_eq_none_iff.1 left⟩
  · split at h
    · cases h
    · cases h
  · cases h

/-- Partners never clash with pairs of partners. -/
theorem standing_of_related {R : α → α → Prop} (unique : BiUnique R)
    (within : ∀ x ∈ pairs, R x.1 x.2) (related : R a b) :
    pairs.standing a b = if a ∈ pairs.map Prod.fst then .paired else .free := by
  rw [standing]
  cases right : pairs.right? a with
  | none =>
      rw [if_neg (right?_eq_none_iff.1 right)]
      cases left : pairs.left? b with
      | none => rfl
      | some a' =>
          have mem := related_of_left? left
          have same : a' = a := unique.1 (within _ mem) related
          subst same
          exact absurd (List.mem_map_of_mem mem) (right?_eq_none_iff.1 right)
  | some b' =>
      have mem := related_of_right? right
      have same : b' = b := unique.2 (within _ mem) related
      subst same
      rw [if_pos (List.mem_map_of_mem mem)]
      cases left : pairs.left? b' with
      | none => exact absurd (List.mem_map_of_mem mem) (left?_eq_none_iff.1 left)
      | some a' => exact if_pos ⟨rfl, unique.1 (within _ (related_of_left? left)) related⟩

end Pairs

namespace Pairing

/-- All pairs are of partners. -/
structure Within (p : Pairing) (κ : Correspondence) : Prop where
  vars : ∀ x ∈ p.vars, κ.vars x.1 x.2
  dims : ∀ x ∈ p.dims, κ.dims x.1 x.2

/-- Every identifier has one pair at most, and the functions allocate what is paired. -/
structure Sound (f g : Function) (p : Pairing) : Prop where
  vars : BiUnique p.vars.Related
  dims : BiUnique p.dims.Related
  allocated : ∀ x ∈ p.vars, x.1.index < f.vars.length ∧ x.2.index < g.vars.length
  named : ∀ x ∈ p.dims, x.1.index < f.dimNames.length ∧ x.2.index < g.dimNames.length

/-- A comparison leads from one pairing to a larger one, which has `new` pairs of variables on top.
`claim` holds of all correspondences that the larger one is within. -/
structure Reaches (f g : Function) (new : Pairs Var) (p p' : Pairing)
    (claim : Correspondence → Prop) : Prop where
  vars : p'.vars = new ++ p.vars
  dims : p.dims ⊆ p'.dims
  sound : p.Sound f g → p'.Sound f g
  infos : ∀ κ, p'.Within κ → ∀ x ∈ new,
    Option.Rel (VarInfo.Alike κ) f.vars[x.1.index]? g.vars[x.2.index]?
  claim : ∀ κ, p'.Within κ → claim κ

variable {f g : Function} {new new' : Pairs Var} {p p₁ p' : Pairing}
  {A B : Correspondence → Prop}

theorem Reaches.within (h : Reaches f g new p p' A) {κ : Correspondence} (within : p'.Within κ) :
    p.Within κ := by
  refine ⟨fun x mem => within.vars x ?_, fun x mem => within.dims x (h.dims mem)⟩
  rw [h.vars]
  exact List.mem_append_right _ mem

theorem Reaches.refl (holds : ∀ κ, p.Within κ → A κ) : Reaches f g [] p p A :=
  ⟨rfl, List.Subset.refl _, id, fun _ _ => List.forall_mem_nil _, holds⟩

theorem Reaches.imp (h : Reaches f g new p p' A) (weaker : ∀ κ, A κ → B κ) :
    Reaches f g new p p' B :=
  ⟨h.vars, h.dims, h.sound, h.infos, fun κ within => weaker κ (h.claim κ within)⟩

theorem Reaches.trans (h : Reaches f g new p p₁ A) (h' : Reaches f g new' p₁ p' B) :
    Reaches f g (new' ++ new) p p' (fun κ => A κ ∧ B κ) where
  vars := by rw [h'.vars, h.vars, List.append_assoc]
  dims := List.Subset.trans h.dims h'.dims
  sound := h'.sound ∘ h.sound
  infos κ within x mem := by
    rcases List.mem_append.1 mem with mem | mem
    · exact h'.infos κ within x mem
    · exact h.infos κ (h'.within within) x mem
  claim κ within := ⟨h.claim κ (h'.within within), h'.claim κ within⟩

/-! ### Steps of a comparison that succeeded -/

theorem reaches_dimVar? {v w : DimVar} (left : v.index < f.dimNames.length)
    (right : w.index < g.dimNames.length) (h : p.dimVar? v w = some p') :
    Reaches f g [] p p' (fun κ => κ.dims v w) := by
  rw [dimVar?] at h
  split at h
  · next paired =>
      cases h
      exact .refl fun κ within => within.dims _ (Pairs.related_of_standing paired)
  · next free =>
      obtain ⟨newLeft, newRight⟩ := Pairs.absent_of_standing free
      cases h
      refine ⟨rfl, List.subset_cons_self _ _, fun sound => ?_, fun _ _ => List.forall_mem_nil _,
        fun κ within => within.dims _ List.mem_cons_self⟩
      exact { sound with
        dims := Pairs.unique_cons sound.dims newLeft newRight
        named := List.forall_mem_cons.2 ⟨⟨left, right⟩, sound.named⟩ }
  · cases h

theorem reaches_dim? {d d' : Dim} (left : ∀ v ∈ d.vars, v.index < f.dimNames.length)
    (right : ∀ v ∈ d'.vars, v.index < g.dimNames.length) (h : dim? d d' p = some p') :
    Reaches f g [] p p' (fun κ => Dim.Alike κ d d') := by
  induction d generalizing d' p p' with
  | int m =>
      cases d' with
      | int n =>
          obtain ⟨rfl, ⟨⟩⟩ := Option.ite_none_right_eq_some.1 h
          exact .refl fun κ _ => .int m
      | var _ | binary _ _ _ => cases h
  | var v =>
      cases d' with
      | var w =>
          refine (reaches_dimVar? (left v ?_) (right w ?_) h).imp fun κ => Dim.Alike.var
          · exact List.mem_singleton_self v
          · exact List.mem_singleton_self w
      | int _ | binary _ _ _ => cases h
  | binary op l r ihl ihr =>
      cases d' with
      | binary op' l' r' =>
          obtain ⟨rfl, operands⟩ := Option.ite_none_right_eq_some.1 h
          obtain ⟨mid, first, second⟩ := Option.bind_eq_some_iff.1 operands
          rw [Dim.vars, List.forall_mem_append] at left right
          have lhs := ihl left.1 right.1 first
          have rhs := ihr left.2 right.2 second
          exact (lhs.trans rhs).imp fun κ both => .binary op both.1 both.2
      | int _ | var _ => cases h

theorem reaches_shape? {s t : Shape} (left : ∀ v ∈ s.vars, v.index < f.dimNames.length)
    (right : ∀ v ∈ t.vars, v.index < g.dimNames.length) (h : shape? s t p = some p') :
    Reaches f g [] p p' (fun κ => Shape.Alike κ s t) := by
  induction s generalizing t p with
  | nil =>
      cases t with
      | nil =>
          cases h
          exact .refl fun _ _ => .nil
      | cons _ _ => cases h
  | cons d s ih =>
      cases t with
      | nil => cases h
      | cons d' t =>
          obtain ⟨mid, first, rest⟩ := Option.bind_eq_some_iff.1 h
          rw [Shape.vars, List.flatMap_cons, List.forall_mem_append] at left right
          have head := reaches_dim? left.1 right.1 first
          exact (head.trans (ih left.2 right.2 rest)).imp fun κ both => .cons both.1 both.2

theorem reaches_annotation? {s t : Option Shape}
    (left : ∀ v ∈ (s.getD []).vars, v.index < f.dimNames.length)
    (right : ∀ v ∈ (t.getD []).vars, v.index < g.dimNames.length)
    (h : annotation? s t p = some p') :
    Reaches f g [] p p' (fun κ => Option.Rel (Shape.Alike κ) s t) := by
  cases s with
  | none =>
      cases t with
      | none =>
          cases h
          exact .refl fun _ _ => .none
      | some _ => cases h
  | some s =>
      cases t with
      | none => cases h
      | some t => exact (reaches_shape? left right h).imp fun κ => .some

section Expressions

/-- Among given variables, the reads that agree are those of partners. -/
def Agrees (p : Pairing) (κ : Correspondence) (vs : List Var) : Prop :=
  ∀ v ∈ vs, ∀ w, p.readsAgree v w = true ↔ κ.vars v w

theorem Agrees.of_vars {κ : Correspondence} {vs : List Var} (h : p.Agrees κ vs)
    (same : p'.vars = p.vars) : p'.Agrees κ vs := by
  simp only [Agrees, readsAgree, same]
  exact h

theorem agrees_append {κ : Correspondence} {vs ws : List Var} :
    p.Agrees κ (vs ++ ws) ↔ p.Agrees κ vs ∧ p.Agrees κ ws :=
  List.forall_mem_append

theorem reaches_exprs? {es es' : List Expr}
    (each : ∀ e ∈ es, ∀ {p p' e'}, (∀ d ∈ e.dimVars, d.index < f.dimNames.length) →
      (∀ d ∈ e'.dimVars, d.index < g.dimNames.length) → expr? e e' p = some p' →
      Reaches f g [] p p' (fun κ => p.Agrees κ e.reads → Expr.Alike κ e e'))
    (left : ∀ d ∈ Expr.dimVarsAll es, d.index < f.dimNames.length)
    (right : ∀ d ∈ Expr.dimVarsAll es', d.index < g.dimNames.length)
    (h : exprs? es es' p = some p') :
    Reaches f g [] p p' (fun κ => p.Agrees κ (Expr.readsAll es) → Expr.AllAlike κ es es') := by
  induction es generalizing es' p with
  | nil =>
      cases es' with
      | nil =>
          cases h
          exact .refl fun _ _ _ => .nil
      | cons _ _ => cases h
  | cons e es ih =>
      cases es' with
      | nil => cases h
      | cons e' es' =>
          obtain ⟨mid, first, rest⟩ := Option.bind_eq_some_iff.1 h
          rw [Expr.dimVarsAll, List.forall_mem_append] at left right
          have head := each e List.mem_cons_self left.1 right.1 first
          have tail := ih (fun e mem => each e (List.mem_cons_of_mem _ mem)) left.2 right.2 rest
          refine (head.trans tail).imp fun κ both agrees => ?_
          rw [Expr.readsAll, agrees_append] at agrees
          exact .cons (both.1 agrees.1) (both.2 (agrees.2.of_vars head.vars))

theorem reaches_expr? {e e' : Expr} (left : ∀ d ∈ e.dimVars, d.index < f.dimNames.length)
    (right : ∀ d ∈ e'.dimVars, d.index < g.dimNames.length) (h : expr? e e' p = some p') :
    Reaches f g [] p p' (fun κ => p.Agrees κ e.reads → Expr.Alike κ e e') := by
  induction e using Expr.induction generalizing e' p p' with
  | var v =>
      cases e' with
      | var w =>
          obtain ⟨agree, ⟨⟩⟩ := Option.ite_none_right_eq_some.1 h
          exact .refl fun κ _ agrees => .var ((agrees v (List.mem_singleton_self v) w).1 agree)
      | _ => cases h
  | shape s =>
      cases e' with
      | shape t => exact (reaches_shape? left right h).imp fun κ alike _ => .shape alike
      | _ => cases h
  | tuple es ih =>
      cases e' with
      | tuple es' =>
          exact (reaches_exprs? ih left right h).imp fun κ alike agrees => .tuple (alike agrees)
      | _ => cases h
  | item e i ih =>
      cases e' with
      | item e' j =>
          obtain ⟨rfl, tuple⟩ := Option.ite_none_right_eq_some.1 h
          rw [Expr.dimVars] at left right
          exact (ih left right tuple).imp fun κ alike agrees => .item (alike agrees) i
      | _ => cases h
  | const c =>
      cases e' with
      | const c' =>
          obtain ⟨rfl, ⟨⟩⟩ := Option.ite_none_right_eq_some.1 h
          exact .refl fun κ _ _ => .const c
      | _ => cases h
  | external s =>
      cases e' with
      | external t =>
          obtain ⟨rfl, ⟨⟩⟩ := Option.ite_none_right_eq_some.1 h
          exact .refl fun κ _ _ => .external s
      | _ => cases h
  | global n =>
      cases e' with
      | global m =>
          obtain ⟨rfl, ⟨⟩⟩ := Option.ite_none_right_eq_some.1 h
          exact .refl fun κ _ _ => .global n
      | _ => cases h
  | call head es ih =>
      cases e' with
      | call head' es' =>
          obtain ⟨same, h⟩ := Option.ite_none_right_eq_some.1 h
          obtain ⟨mid, first, second⟩ := Option.bind_eq_some_iff.1 h
          rw [Expr.dimVars, List.forall_mem_append] at left right
          have args := reaches_exprs? ih left.2 right.2 first
          have annotation := reaches_annotation? left.1 right.1 second
          exact (args.trans annotation).imp fun κ both agrees =>
            .call ⟨same.1, same.2.1, same.2.2, both.2⟩ (both.1 agrees)
      | _ => cases h

variable {scope scope' : Scope}

/-- All that the scope sees has been paired. -/
def Covers (p : Pairing) (scope : Scope) : Prop := scope.Holds (p.vars.map Prod.fst).reverse

theorem agrees_of_checkExpr {κ : Correspondence} {e : Expr} (covers : p.Covers scope)
    (checked : f.checkExpr scope e = .ok ()) (within : p.Within κ) : p.Agrees κ e.reads := by
  intro v mem w
  have paired := List.mem_reverse.1 (Function.mem_of_checkExpr covers checked v mem)
  rw [readsAgree]
  constructor
  · intro agree
    split at agree
    · next follows => exact within.vars _ (Pairs.related_of_standing follows)
    · next free =>
        -- The scope sees the variable, so it is not a free one.
        exact absurd paired (Pairs.absent_of_standing free).1
    · cases agree
  · intro partners
    rw [Pairs.standing_of_related κ.vars_unique within.vars partners, if_pos paired]

theorem reaches_checkedExpr {e e' : Expr} (covers : p.Covers scope)
    (left : f.checkExpr scope e = .ok ()) (right : g.checkExpr scope' e' = .ok ())
    (h : expr? e e' p = some p') : Reaches f g [] p p' (fun κ => Expr.Alike κ e e') := by
  have reaches : Reaches f g [] p p' _ :=
    reaches_expr? (Function.checkExpr_eq_ok.1 left).2 (Function.checkExpr_eq_ok.1 right).2 h
  exact { reaches with
    claim := fun κ within =>
      reaches.claim κ within (agrees_of_checkExpr covers left (reaches.within within)) }

end Expressions

end Pairing

theorem Mismatch.ofOption_eq_ok {α : Type} {x : Option α} {a : α} :
    Mismatch.ofOption x = .ok a ↔ x = some a := by
  cases x with
  | none => exact ⟨nofun, nofun⟩
  | some b => exact ⟨fun h => by cases h; rfl, fun h => by cases h; rfl⟩

namespace Function

open Pairing
open Mismatch (ofOption_eq_ok)

variable {f g : Function} {p p' : Pairing} {scope scope₁ scope' scope₁' : Scope}
  {kind kind' : BlockKind}

theorem shapesNamed_of_check (h : f.check = .ok ()) : ShapesNamed f.vars f.dimNames := by
  simp only [check] at h
  have named := checkShape_eq_ok.1 (check_bind_eq_ok.1 h).1
  intro info mem v occurs
  obtain ⟨d, inShape, occurs⟩ := List.mem_flatMap.1 occurs
  exact named v (List.mem_flatMap.2 ⟨d, List.mem_flatMap.2 ⟨info, mem, inShape⟩, occurs⟩)

theorem info_eq_ok {v : Var} {info : VarInfo} :
    f.info v = .ok info ↔ f.vars[v.index]? = some info := by
  rw [Function.info]
  cases f.vars[v.index]? with
  | none =>
      constructor
      · intro h
        cases h
      · intro h
        cases h
  | some found =>
      rw [Option.some_inj]
      exact pure_eq_ok

theorem covers_of_reaches {new : Pairs Var} {claim : Correspondence → Prop}
    (reaches : Reaches f g new p p' claim)
    (holds : scope.Holds ((p.vars.map Prod.fst).reverse ++ (new.map Prod.fst).reverse)) :
    p'.Covers scope := by
  rw [Covers, reaches.vars, List.map_append, List.reverse_append]
  exact holds

section Sound

variable (left : ShapesNamed f.vars f.dimNames) (right : ShapesNamed g.vars g.dimNames)
include left right

theorem reaches_definition {v w : Var} (h : f.matchDefinition g v w p = .ok p') :
    Reaches f g [(v, w)] p p' (fun κ => κ.vars v w) := by
  simp only [matchDefinition] at h
  obtain ⟨i, recorded, h⟩ := bind_eq_ok.1 h
  obtain ⟨j, recorded', h⟩ := bind_eq_ok.1 h
  rw [mapError_eq_ok, info_eq_ok] at recorded recorded'
  obtain ⟨mid, infos, h⟩ := bind_eq_ok.1 h
  rw [ofOption_eq_ok] at infos h
  obtain ⟨same, infos⟩ := Option.ite_none_right_eq_some.1 infos
  have annotation : Reaches f g [] p mid (fun κ => Option.Rel (Shape.Alike κ) i.shape j.shape) :=
    reaches_annotation? (left i (List.mem_of_getElem? recorded))
      (right j (List.mem_of_getElem? recorded')) infos
  rw [define?] at h
  split at h
  · next free =>
      obtain ⟨newLeft, newRight⟩ := Pairs.absent_of_standing free
      cases h
      refine ⟨congrArg _ annotation.vars, annotation.dims, fun sound => ?_, ?_,
        fun κ within => within.vars _ List.mem_cons_self⟩
      · have sound := annotation.sound sound
        have allocated := (List.getElem?_eq_some_iff.1 recorded).1
        have allocated' := (List.getElem?_eq_some_iff.1 recorded').1
        exact { sound with
          vars := Pairs.unique_cons sound.vars newLeft newRight
          allocated := List.forall_mem_cons.2 ⟨⟨allocated, allocated'⟩, sound.allocated⟩ }
      · intro κ within x mem
        rw [List.mem_singleton.1 mem, recorded, recorded']
        have inner : mid.Within κ :=
          ⟨fun x mem => within.vars x (List.mem_cons_of_mem _ mem), within.dims⟩
        exact .some ⟨same.1, same.2, annotation.claim κ inner⟩
  · cases h
  · cases h

theorem reaches_params {vs ws : List Var}
    (checked : vs.foldlM (f.checkDefinition .plain) scope = .ok scope₁) (covers : p.Covers scope)
    (h : f.matchParams g vs ws p = .ok p') :
    ∃ new, Reaches f g new p p' (fun κ => List.Forall₂ κ.vars vs ws) ∧ p'.Covers scope₁ := by
  induction vs generalizing ws p scope with
  | nil =>
      cases ws with
      | nil =>
          cases h
          cases checked
          exact ⟨[], .refl fun _ _ => .nil, covers⟩
      | cons _ _ => cases h
  | cons v vs ih =>
      cases ws with
      | nil => cases h
      | cons w ws =>
          rw [matchParams] at h
          obtain ⟨mid, first, rest⟩ := bind_eq_ok.1 h
          obtain ⟨scopeMid, checkedFirst, checkedRest⟩ := foldlM_cons_eq_ok.1 checked
          have head := reaches_definition left right first
          have covers' := covers_of_reaches head (holds_checkDefinition covers checkedFirst).1
          obtain ⟨new, tail, covers''⟩ := ih checkedRest covers' rest
          exact ⟨_, (head.trans tail).imp fun κ both => .cons both.1 both.2, covers''⟩

theorem reaches_binding {x y : Binding} (checked : f.checkBinding kind scope x = .ok scope₁)
    (checked' : g.checkBinding kind' scope' y = .ok scope₁') (covers : p.Covers scope)
    (h : f.matchBinding g x y p = .ok p') :
    ∃ new, Reaches f g new p p' (fun κ => Binding.Alike κ x y) ∧ p'.Covers scope₁ := by
  have holds := (holds_checkBinding covers checked).1
  simp only [checkBinding] at checked checked'
  obtain ⟨values, checked⟩ := check_bind_eq_ok.1 checked
  obtain ⟨values', checked'⟩ := check_bind_eq_ok.1 checked'
  cases x with
  | define v e =>
      cases y with
      | define w e' =>
          rw [matchBinding] at h
          obtain ⟨mid, value, definition⟩ := bind_eq_ok.1 h
          have value := reaches_checkedExpr covers values values' (ofOption_eq_ok.1 value)
          have both := value.trans (reaches_definition left right definition)
          exact ⟨_, both.imp fun κ both => .define both.2 both.1, covers_of_reaches both holds⟩
      | matchShape _ _ _ => cases h
  | matchShape v e s =>
      cases y with
      | define _ _ => cases h
      | matchShape w e' t =>
          obtain ⟨patterns, -⟩ := check_bind_eq_ok.1 checked
          obtain ⟨patterns', -⟩ := check_bind_eq_ok.1 checked'
          rw [matchBinding] at h
          obtain ⟨mid, value, h⟩ := bind_eq_ok.1 h
          obtain ⟨mid', pattern, h⟩ := bind_eq_ok.1 h
          have value := reaches_checkedExpr covers values values' (ofOption_eq_ok.1 value)
          have pattern := reaches_shape? (checkShape_eq_ok.1 patterns)
            (checkShape_eq_ok.1 patterns') (ofOption_eq_ok.1 pattern)
          have both := value.trans pattern
          cases v with
          | none =>
              cases w with
              | none =>
                  cases h
                  exact ⟨_, both.imp fun κ both => .matchShape .none both.1 both.2,
                    covers_of_reaches both holds⟩
              | some _ => cases h
          | some v =>
              cases w with
              | none => cases h
              | some w =>
                  have all := both.trans (reaches_definition left right h)
                  exact ⟨_, all.imp fun κ all => .matchShape (.some all.2) all.1.1 all.1.2,
                    covers_of_reaches all holds⟩

theorem reaches_bindings {xs ys : List Binding}
    (checked : xs.foldlM (f.checkBinding kind) scope = .ok scope₁)
    (checked' : ys.foldlM (g.checkBinding kind') scope' = .ok scope₁') (covers : p.Covers scope)
    (h : f.matchBindings g xs ys p = .ok p') :
    ∃ new, Reaches f g new p p' (fun κ => List.Forall₂ (Binding.Alike κ) xs ys) ∧
      p'.Covers scope₁ := by
  induction xs generalizing ys p scope scope' with
  | nil =>
      cases ys with
      | nil =>
          cases h
          cases checked
          exact ⟨[], .refl fun _ _ => .nil, covers⟩
      | cons _ _ => cases h
  | cons x xs ih =>
      cases ys with
      | nil => cases h
      | cons y ys =>
          rw [matchBindings] at h
          obtain ⟨mid, first, rest⟩ := bind_eq_ok.1 h
          obtain ⟨_, checkedFirst, checkedRest⟩ := foldlM_cons_eq_ok.1 checked
          obtain ⟨_, checkedFirst', checkedRest'⟩ := foldlM_cons_eq_ok.1 checked'
          obtain ⟨_, head, covers'⟩ :=
            reaches_binding left right checkedFirst checkedFirst' covers first
          obtain ⟨_, tail, covers''⟩ := ih checkedRest checkedRest' covers' rest
          exact ⟨_, (head.trans tail).imp fun κ both => .cons both.1 both.2, covers''⟩

theorem reaches_blocks {xs ys : List Block} {n n' : Nat}
    (checked : f.checkBlocks n scope xs = .ok scope₁)
    (checked' : g.checkBlocks n' scope' ys = .ok scope₁') (covers : p.Covers scope)
    (h : f.matchBlocks g xs ys p = .ok p') :
    ∃ new, Reaches f g new p p' (fun κ => List.Forall₂ (Block.Alike κ) xs ys) ∧
      p'.Covers scope₁ := by
  induction xs generalizing ys p scope scope' n n' with
  | nil =>
      cases ys with
      | nil =>
          cases h
          cases checked
          exact ⟨[], .refl fun _ _ => .nil, covers⟩
      | cons _ _ => cases h
  | cons x xs ih =>
      cases ys with
      | nil => cases h
      | cons y ys =>
          rw [matchBlocks] at h
          obtain ⟨outline, h⟩ := guard_eq_ok.1 h
          obtain ⟨mid, first, rest⟩ := bind_eq_ok.1 h
          rw [checkBlocks] at checked checked'
          obtain ⟨_, block, checkedRest⟩ := bind_eq_ok.1 checked
          obtain ⟨_, block', checkedRest'⟩ := bind_eq_ok.1 checked'
          simp only [checkBlock] at block block'
          obtain ⟨_, block⟩ := guard_eq_ok.1 block
          obtain ⟨_, block'⟩ := guard_eq_ok.1 block'
          obtain ⟨_, bindings, same⟩ := bind_eq_ok.1 block
          obtain ⟨_, bindings', -⟩ := bind_eq_ok.1 block'
          obtain ⟨_, head, covers'⟩ := reaches_bindings left right bindings bindings' covers first
          have covers' := Scope.holds_leaveBlock covers'
          rw [pure_eq_ok.1 same] at covers'
          obtain ⟨_, tail, covers''⟩ := ih checkedRest checkedRest' covers' rest
          have kind : x.kind = y.kind := of_not_not (not_or.1 outline).1
          exact ⟨_, (head.trans tail).imp fun κ both => .cons ⟨kind, both.1⟩ both.2, covers''⟩

end Sound

theorem reaches_function (left : f.check = .ok ()) (right : g.check = .ok ())
    (h : f.matchFunction g = .ok p) : f.retTy = g.retTy ∧
      Reaches f g p.vars {} p (fun κ => List.Forall₂ κ.vars f.params g.params ∧
        List.Forall₂ (Block.Alike κ) f.blocks g.blocks ∧ Expr.Alike κ f.body g.body) := by
  have named := shapesNamed_of_check left
  have named' := shapesNamed_of_check right
  simp only [matchFunction] at h
  obtain ⟨outline, h⟩ := guard_eq_ok.1 h
  obtain ⟨p₁, params, h⟩ := bind_eq_ok.1 h
  obtain ⟨p₂, blocks, body⟩ := bind_eq_ok.1 h
  simp only [check] at left right
  obtain ⟨entry, checked, left⟩ := bind_eq_ok.1 (check_bind_eq_ok.1 left).2
  obtain ⟨last, checkedBlocks, checkedBody⟩ := bind_eq_ok.1 left
  obtain ⟨entry', -, right⟩ := bind_eq_ok.1 (check_bind_eq_ok.1 right).2
  obtain ⟨last', checkedBlocks', checkedBody'⟩ := bind_eq_ok.1 right
  have empty : Covers {} {} := Scope.holds_empty
  obtain ⟨_, params, covers⟩ := reaches_params named named' checked empty params
  obtain ⟨_, blocks, covers⟩ :=
    reaches_blocks named named' checkedBlocks checkedBlocks' covers blocks
  have body := reaches_checkedExpr covers checkedBody checkedBody' (ofOption_eq_ok.1 body)
  have all := (params.trans blocks).trans body
  have vars := all.vars
  rw [List.append_nil] at vars
  rw [vars]
  exact ⟨of_not_not (not_or.1 (not_or.1 outline).2).2,
    all.imp fun κ all => ⟨all.1.1, all.1.2, all.2⟩⟩

theorem sound_empty : Pairing.Sound f g {} :=
  ⟨Pairs.unique_nil, Pairs.unique_nil, List.forall_mem_nil _, List.forall_mem_nil _⟩

end Function

/-- Variables below given bounds may be paired in any one-to-one way beside those above, which are
paired in order. -/
theorem unique_or_fresh {R : Var → Var → Prop} {m n : Nat} (unique : BiUnique R)
    (below : ∀ v w, R v w → v.index < m ∧ w.index < n) :
    BiUnique fun v w => R v w ∨ ∃ k, v = ⟨m + k⟩ ∧ w = ⟨n + k⟩ := by
  constructor
  · rintro v v' w (paired | ⟨k, rfl, rfl⟩) (paired' | ⟨k', rfl, same⟩)
    · exact unique.1 paired paired'
    · have allocated := (below _ _ paired).2
      simp only [same] at allocated
      omega
    · have allocated := (below _ _ paired').2
      simp only at allocated
      omega
    · simp only [Var.mk.injEq] at same ⊢
      omega
  · rintro v w w' (paired | ⟨k, rfl, rfl⟩) (paired' | ⟨k', same, rfl⟩)
    · exact unique.2 paired paired'
    · have allocated := (below _ _ paired).1
      simp only [same] at allocated
      omega
    · have allocated := (below _ _ paired').1
      simp only at allocated
      omega
    · simp only [Var.mk.injEq] at same ⊢
      omega

/-- The correspondence that a pairing amounts to, with the variables that are yet to be allocated
paired in order. -/
def Pairing.correspondence {f g : Function} {p : Pairing} (sound : p.Sound f g) :
    Correspondence where
  vars v w := p.vars.Related v w ∨ ∃ n, v = ⟨f.vars.length + n⟩ ∧ w = ⟨g.vars.length + n⟩
  dims := p.dims.Related
  vars_unique := unique_or_fresh sound.vars fun v w paired => sound.allocated (v, w) paired
  dims_unique := sound.dims

namespace Function

variable {f g : Function}

/-- Two well-formed functions that compare equal are alike under some correspondence. -/
theorem alike_of_alphaEq (left : f.check = .ok ()) (right : g.check = .ok ())
    (equal : f.alphaEq g = .ok true) : ∃ κ, Function.Alike κ f g := by
  rw [alphaEq] at equal
  split at equal
  · next p matched =>
      obtain ⟨retTy, reaches⟩ := reaches_function left right matched
      have sound := reaches.sound sound_empty
      have within : p.Within (Pairing.correspondence sound) :=
        ⟨fun x mem => .inl mem, fun x mem => mem⟩
      obtain ⟨params, blocks, body⟩ := reaches.claim _ within
      refine ⟨_, params, blocks, body, retTy, ?_, fun n => .inr ⟨n, rfl, rfl⟩,
        fun v w paired => sound.named _ paired, shapesNamed_of_check left,
        shapesNamed_of_check right⟩
      rintro v w (paired | ⟨n, rfl, rfl⟩)
      · exact reaches.infos _ within _ paired
      · rw [List.getElem?_eq_none (Nat.le_add_right _ _),
          List.getElem?_eq_none (Nat.le_add_right _ _)]
        exact .none
  · cases equal
  · cases equal

end Function

end TensorIR
