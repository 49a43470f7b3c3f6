import TensorIR.Proofs.Alpha.Matching

/-!
# Comparing functions alike

A comparison of two functions alike succeeds if one of them is well formed. Its pairing stays within
the correspondence, and since that pairs every identifier once, no step can clash: dimension
variables are paired on first encounter, and definitions find their variables unpaired, for a
well-formed function defines no variable twice. A read finds its variable paired, as the checker's
scope has seen it.
-/

namespace TensorIR

open Relator
open Mismatch (ofOption)

variable {κ : Correspondence} {f g : Function} {scope scope₁ : Scope} {kind : BlockKind}

namespace Pairing

variable {p : Pairing}

/-- A comparison succeeds, pairs no variables, and pairs partners only. -/
def Follows (κ : Correspondence) (p : Pairing) (result : Option Pairing) : Prop :=
  ∃ p', result = some p' ∧ p'.vars = p.vars ∧ p'.Within κ

theorem Follows.refl (within : p.Within κ) : Follows κ p (some p) := ⟨p, rfl, rfl, within⟩

theorem Follows.bind {result : Option Pairing} {next : Pairing → Option Pairing}
    (first : Follows κ p result)
    (second : ∀ p', p'.vars = p.vars → p'.Within κ → Follows κ p' (next p')) :
    Follows κ p (result >>= next) := by
  obtain ⟨p₁, rfl, vars, within⟩ := first
  obtain ⟨p₂, found, vars', within'⟩ := second p₁ vars within
  exact ⟨p₂, found, vars'.trans vars, within'⟩

theorem follows_dimVar? {v w : DimVar} (within : p.Within κ) (paired : κ.dims v w) :
    Follows κ p (p.dimVar? v w) := by
  rw [dimVar?, Pairs.standing_of_related κ.dims_unique within.dims paired]
  by_cases known : v ∈ p.dims.map Prod.fst
  · rw [if_pos known]
    exact .refl within
  · rw [if_neg known]
    exact ⟨_, rfl, rfl, within.vars, List.forall_mem_cons.2 ⟨paired, within.dims⟩⟩

theorem follows_dim? {d d' : Dim} (within : p.Within κ) (alike : Dim.Alike κ d d') :
    Follows κ p (dim? d d' p) := by
  induction alike generalizing p with
  | int n =>
      rw [dim?, if_pos rfl]
      exact .refl within
  | var paired => exact follows_dimVar? within paired
  | binary op _ _ ihl ihr =>
      rw [dim?, if_pos rfl]
      exact (ihl within).bind fun _ _ within => ihr within

theorem follows_shape? {s t : Shape} (within : p.Within κ) (alike : Shape.Alike κ s t) :
    Follows κ p (shape? s t p) := by
  induction alike generalizing p with
  | nil => exact .refl within
  | cons head _ ih => exact (follows_dim? within head).bind fun _ _ within => ih within

theorem follows_annotation? {s t : Option Shape} (within : p.Within κ)
    (alike : Option.Rel (Shape.Alike κ) s t) : Follows κ p (annotation? s t p) := by
  cases alike with
  | none => exact .refl within
  | some alike => exact follows_shape? within alike

theorem covers_of_vars {p' : Pairing} (same : p'.vars = p.vars) (covers : p.Covers scope) :
    p'.Covers scope := by
  rw [Covers, same]
  exact covers

theorem follows_exprs? {es es' : List Expr}
    (each : List.Forall₂ (fun e e' => ∀ p, p.Within κ → p.Agrees κ e.reads →
      Follows κ p (expr? e e' p)) es es')
    (within : p.Within κ) (agrees : p.Agrees κ (Expr.readsAll es)) :
    Follows κ p (exprs? es es' p) := by
  induction each generalizing p with
  | nil => exact .refl within
  | cons head _ ih =>
      rw [Expr.readsAll, agrees_append] at agrees
      exact (head p within agrees.1).bind fun _ vars within =>
        ih within (agrees.2.of_vars vars)

theorem follows_expr? {e e' : Expr} (alike : Expr.Alike κ e e') :
    ∀ p, p.Within κ → p.Agrees κ e.reads → Follows κ p (expr? e e' p) := by
  refine alike.induction ?var ?shape ?tuple ?item ?const ?external ?global ?call
  case var =>
    intro v w paired p within agrees
    rw [expr?, if_pos ((agrees v (List.mem_singleton_self v) w).2 paired)]
    exact .refl within
  case shape => exact fun s t alike p within _ => follows_shape? within alike
  case tuple => exact fun es es' _ ih p within agrees => follows_exprs? ih within agrees
  case item =>
    intro e e' i _ ih p within agrees
    rw [expr?, if_pos rfl]
    exact ih p within agrees
  case const | external | global =>
    intro _ p within _
    rw [expr?, if_pos rfl]
    exact .refl within
  case call =>
    intro h k es es' head _ ih p within agrees
    rw [expr?, if_pos ⟨head.callee, head.attrs, head.ty⟩]
    exact (follows_exprs? ih within agrees).bind fun _ _ within =>
      follows_annotation? within head.shape

theorem follows_checkedExpr {e e' : Expr} (alike : Expr.Alike κ e e') (within : p.Within κ)
    (covers : p.Covers scope) (checked : f.checkExpr scope e = .ok ()) :
    Follows κ p (expr? e e' p) :=
  follows_expr? alike p within (agrees_of_checkExpr covers checked within)

theorem follows_info? {i j : VarInfo} (within : p.Within κ) (alike : VarInfo.Alike κ i j) :
    Follows κ p (p.info? i j) := by
  rw [info?, if_pos ⟨alike.kind, alike.ty⟩]
  exact follows_annotation? within alike.shape

/-- A comparison succeeds, pairs partners only, and has paired all that the scope then sees. -/
def Continues (κ : Correspondence) (scope : Scope) (result : Except Mismatch Pairing) : Prop :=
  ∃ p', result = .ok p' ∧ p'.Within κ ∧ p'.Covers scope

theorem Continues.refl (within : p.Within κ) (covers : p.Covers scope) :
    Continues κ scope (.ok p) := ⟨p, rfl, within, covers⟩

theorem Continues.bind {result : Except Mismatch Pairing} {next : Pairing → Except Mismatch Pairing}
    (first : Continues κ scope result)
    (second : ∀ p', p'.Within κ → p'.Covers scope → Continues κ scope₁ (next p')) :
    Continues κ scope₁ (result >>= next) := by
  obtain ⟨p', rfl, within, covers⟩ := first
  exact second p' within covers

theorem continues_of_follows {result : Option Pairing} (follows : Follows κ p result)
    (covers : p.Covers scope) : Continues κ scope (ofOption result) := by
  obtain ⟨p', rfl, vars, within⟩ := follows
  exact ⟨p', rfl, within, covers_of_vars vars covers⟩

end Pairing

namespace Function

open Pairing

variable {p : Pairing}

section Complete

variable (records : Records κ f.vars g.vars f.dimNames g.dimNames)
include records

theorem continues_definition {v w : Var} (paired : κ.vars v w)
    (checked : f.checkDefinition kind scope v = .ok scope₁) (within : p.Within κ)
    (covers : p.Covers scope) : Continues κ scope₁ (f.matchDefinition g v w p) := by
  obtain ⟨holds, allocated⟩ := holds_checkDefinition covers checked
  -- What has been paired is what the scope defines, and it does not define the variable yet.
  have unpaired : v ∉ p.vars.map Prod.fst := by
    intro mem
    have distinct := List.nodup_append.1 holds.1
    exact distinct.2.2 v (List.mem_reverse.2 mem) v (List.mem_singleton_self v) rfl
  have recorded := records.infos v w paired
  rw [List.getElem?_eq_getElem allocated] at recorded
  cases found : g.vars[w.index]? with
  | none =>
      rw [found] at recorded
      cases recorded
  | some j =>
      rw [found] at recorded
      cases recorded with
      | some alike =>
          obtain ⟨p₁, infos, vars, within₁⟩ := follows_info? within alike
          have define : p₁.define? v w = some { p₁ with vars := (v, w) :: p₁.vars } := by
            rw [define?, Pairs.standing_of_related κ.vars_unique within₁.vars paired, vars,
              if_neg unpaired]
          refine ⟨{ p₁ with vars := (v, w) :: p₁.vars }, ?_,
            ⟨List.forall_mem_cons.2 ⟨paired, within₁.vars⟩, within₁.dims⟩, ?_⟩
          · simp only [matchDefinition, info_eq_ok.2 (List.getElem?_eq_getElem allocated),
              info_eq_ok.2 found, infos, define, Except.mapError, ok_bind, ofOption]
          · rw [Covers, List.map_cons, List.reverse_cons, vars]
            exact holds

theorem continues_params {vs ws : List Var} (alike : List.Forall₂ κ.vars vs ws)
    (checked : vs.foldlM (f.checkDefinition .plain) scope = .ok scope₁) (within : p.Within κ)
    (covers : p.Covers scope) : Continues κ scope₁ (f.matchParams g vs ws p) := by
  induction alike generalizing p scope with
  | nil =>
      cases checked
      exact .refl within covers
  | cons paired _ ih =>
      obtain ⟨_, first, rest⟩ := foldlM_cons_eq_ok.1 checked
      exact (continues_definition records paired first within covers).bind fun _ within covers =>
        ih rest within covers

theorem continues_binding {x y : Binding} (alike : Binding.Alike κ x y)
    (checked : f.checkBinding kind scope x = .ok scope₁) (within : p.Within κ)
    (covers : p.Covers scope) : Continues κ scope₁ (f.matchBinding g x y p) := by
  simp only [checkBinding] at checked
  obtain ⟨value, checked⟩ := check_bind_eq_ok.1 checked
  obtain ⟨-, checked⟩ := check_bind_eq_ok.1 checked
  have values := continues_of_follows (follows_checkedExpr alike.value within covers value) covers
  cases alike with
  | define paired _ =>
      exact values.bind fun _ within covers =>
        continues_definition records paired checked within covers
  | matchShape defined _ pattern =>
      refine values.bind fun _ within covers => ?_
      refine (continues_of_follows (follows_shape? within pattern) covers).bind
        fun _ within covers => ?_
      cases defined with
      | none =>
          cases checked
          exact .refl within covers
      | some paired => exact continues_definition records paired checked within covers

theorem continues_bindings {xs ys : List Binding} (alike : List.Forall₂ (Binding.Alike κ) xs ys)
    (checked : xs.foldlM (f.checkBinding kind) scope = .ok scope₁) (within : p.Within κ)
    (covers : p.Covers scope) : Continues κ scope₁ (f.matchBindings g xs ys p) := by
  induction alike generalizing p scope with
  | nil =>
      cases checked
      exact .refl within covers
  | cons head _ ih =>
      obtain ⟨_, first, rest⟩ := foldlM_cons_eq_ok.1 checked
      exact (continues_binding records head first within covers).bind fun _ within covers =>
        ih rest within covers

theorem continues_blocks {xs ys : List Block} {n : Nat}
    (alike : List.Forall₂ (Block.Alike κ) xs ys)
    (checked : f.checkBlocks n scope xs = .ok scope₁) (within : p.Within κ)
    (covers : p.Covers scope) : Continues κ scope₁ (f.matchBlocks g xs ys p) := by
  induction alike generalizing p scope n with
  | nil =>
      cases checked
      exact .refl within covers
  | cons head _ ih =>
      rw [checkBlocks] at checked
      obtain ⟨_, block, rest⟩ := bind_eq_ok.1 checked
      simp only [checkBlock] at block
      obtain ⟨-, block⟩ := guard_eq_ok.1 block
      obtain ⟨_, bindings, same⟩ := bind_eq_ok.1 block
      rw [pure_eq_ok] at same
      subst same
      rw [matchBlocks, if_neg (not_or.2 ⟨not_not.2 head.kind, not_not.2 head.bindings.length_eq⟩)]
      exact (continues_bindings records head.bindings bindings within covers).bind
        fun _ within covers => ih rest within (Scope.holds_leaveBlock covers)

end Complete

/-- A well-formed function and one that is alike compare equal. -/
theorem alphaEq_of_alike (checked : f.check = .ok ()) (alike : Function.Alike κ f g) :
    f.alphaEq g = .ok true := by
  simp only [check] at checked
  obtain ⟨-, checked⟩ := check_bind_eq_ok.1 checked
  obtain ⟨entry, params, checked⟩ := bind_eq_ok.1 checked
  obtain ⟨last, blocks, body⟩ := bind_eq_ok.1 checked
  have within : Within {} κ := ⟨List.forall_mem_nil _, List.forall_mem_nil _⟩
  obtain ⟨p₁, matchedParams, within, covers⟩ :=
    continues_params alike.records alike.params params within Scope.holds_empty
  obtain ⟨p₂, matchedBlocks, within, covers⟩ :=
    continues_blocks alike.records alike.blocks blocks within covers
  obtain ⟨p₃, matchedBody, -⟩ := follows_checkedExpr alike.body within covers body
  have outline : ¬ (f.params.length ≠ g.params.length ∨ f.blocks.length ≠ g.blocks.length ∨
      f.retTy ≠ g.retTy) := by
    simp [alike.params.length_eq, alike.blocks.length_eq, alike.retTy]
  have matched : f.matchFunction g = .ok p₃ := by
    rw [matchFunction, if_neg outline]
    show (matchParams f g f.params g.params {} >>= fun p => _) = _
    rw [matchedParams, ok_bind, matchedBlocks, ok_bind, matchedBody, ofOption]
  rw [alphaEq, matched]

end Function

end TensorIR
