import TensorIR.Expr.Vars
import TensorIR.Function.Scope
import TensorIR.Proofs.Result

/-!
# What a check that passed has seen

`Function.check` walks a function once and carries a `Scope` along. What later proofs want of it is
not the walk but what it has seen by the end: no variable is defined twice, and every variable that
is defined or read is one that the function records. `Function.Scoped` gathers that.

The invariant is `Scope.Holds`: the scope knows exactly the variables on a list, and the list has
no repetition. Each definition adds its variable to the list, each block moves variables from one
part of the scope to another, and reads leave the scope alone.
-/

namespace TensorIR

/-- The function has a record of the variable. -/
def Function.Allocates (f : Function) (v : Var) : Prop := v.index < f.vars.length

/-- The variables that a function defines, parameters first, in program order. -/
def Function.defined (f : Function) : List Var :=
  f.params ++ f.bindings.filterMap Binding.defined?

theorem Function.mem_bindings {f : Function} {block : Block} {x : Binding}
    (inFunction : block ∈ f.blocks) (inBlock : x ∈ block.bindings) : x ∈ f.bindings :=
  List.mem_flatMap.2 ⟨block, inFunction, inBlock⟩

theorem Function.mem_defined {f : Function} {x : Binding} {v : Var} (mem : x ∈ f.bindings)
    (defines : v ∈ x.defined?) : v ∈ f.defined :=
  List.mem_append_right _ (List.mem_filterMap.2 ⟨x, mem, defines⟩)

theorem defined_cons (b : Binding) (bs : List Binding) :
    (b :: bs).filterMap Binding.defined? = b.defined?.toList ++ bs.filterMap Binding.defined? := by
  rw [List.filterMap_cons]
  cases b.defined? <;> rfl

theorem defined_append (bs : List Binding) (x : Binding) :
    (bs ++ [x]).filterMap Binding.defined? =
      bs.filterMap Binding.defined? ++ x.defined?.toList := by
  rw [List.filterMap_append, List.filterMap_cons]
  cases x.defined? <;> rfl

namespace Scope

/-- The scope knows the variables of the list and no others, and each stands there once. -/
def Holds (scope : Scope) (vs : List Var) : Prop :=
  vs.Nodup ∧ ∀ v, scope.defines v = true ↔ v ∈ vs

theorem holds_empty : Holds {} [] := ⟨List.nodup_nil, fun v => by simp [defines]⟩

theorem holds_leaveBlock {scope : Scope} {vs : List Var} (h : scope.Holds vs) :
    scope.leaveBlock.Holds vs := by
  refine ⟨h.1, fun v => ?_⟩
  rw [← h.2 v]
  simp [defines, leaveBlock, or_assoc]

end Scope

namespace Function

variable {f : Function} {kind : BlockKind} {scope scope' : Scope}

theorem allocates_of_allocated {v : Var} {info : VarInfo} (h : f.allocated v = .ok info) :
    f.Allocates v := by
  simp only [allocated] at h
  split at h
  · next found => exact (List.getElem?_eq_some_iff.1 found).1
  · cases h

theorem checkShape_eq_ok {s : Shape} :
    f.checkShape s = .ok () ↔ ∀ d ∈ s.vars, d.index < f.dimNames.length := by
  rw [checkShape]
  cases found : s.vars.find? fun v => f.dimNames.length ≤ v.index with
  | some d =>
      refine iff_of_false nofun fun named => ?_
      have unnamed : f.dimNames.length ≤ d.index := by simpa using List.find?_some found
      exact absurd (named d (List.mem_of_find?_eq_some found)) (Nat.not_lt.2 unnamed)
  | none =>
      refine iff_of_true rfl fun d mem => ?_
      simpa using List.find?_eq_none.1 found d mem

theorem allocates_of_checkRead {v : Var} (h : f.checkRead scope v = .ok ()) : f.Allocates v := by
  simp only [checkRead] at h
  obtain ⟨_, found, _⟩ := bind_eq_ok.1 h
  exact allocates_of_allocated found

theorem checkExprs_eq_ok {es : List Expr} :
    f.checkExprs scope es = .ok () ↔ ∀ e ∈ es, f.checkExpr scope e = .ok () := by
  induction es with
  | nil => simp [checkExprs]
  | cons e es ih => rw [checkExprs, check_bind_eq_ok, ih, List.forall_mem_cons]

theorem allocates_of_checkExpr {e : Expr} :
    f.checkExpr scope e = .ok () → ∀ v ∈ e.reads, f.Allocates v := by
  induction e using Expr.induction with
  | var w =>
      intro h v hv
      rw [checkExpr] at h
      rw [Expr.reads, List.mem_singleton] at hv
      exact hv ▸ allocates_of_checkRead h
  | shape _ | const _ | external _ | global _ =>
      intro _ v hv
      rw [Expr.reads] at hv
      cases hv
  | item t _ ih =>
      intro h
      rw [checkExpr] at h
      rw [Expr.reads]
      exact ih h
  | tuple es ih =>
      intro h v hv
      rw [checkExpr, checkExprs_eq_ok] at h
      rw [Expr.reads, Expr.readsAll_eq_flatMap, List.mem_flatMap] at hv
      obtain ⟨e, mem, hv⟩ := hv
      exact ih e mem (h e mem) v hv
  | call head es ih =>
      intro h v hv
      rw [checkExpr] at h
      rw [check_bind_eq_ok, checkExprs_eq_ok] at h
      replace h := h.2
      rw [Expr.reads, Expr.readsAll_eq_flatMap, List.mem_flatMap] at hv
      obtain ⟨e, mem, hv⟩ := hv
      exact ih e mem (h e mem) v hv

/-- A definition that passes is the first of its variable, and adds it to the scope. -/
theorem holds_checkDefinition {v : Var} {vs : List Var} (holds : scope.Holds vs)
    (h : f.checkDefinition kind scope v = .ok scope') :
    scope'.Holds (vs ++ [v]) ∧ f.Allocates v := by
  simp only [checkDefinition] at h
  obtain ⟨info, found, h⟩ := bind_eq_ok.1 h
  obtain ⟨new, h⟩ := guard_eq_ok.1 h
  refine ⟨⟨?_, fun u => ?_⟩, allocates_of_allocated found⟩
  · have absent : v ∉ vs := fun mem => new ((holds.2 v).2 mem)
    rw [List.nodup_append]
    refine ⟨holds.1, List.pairwise_singleton _ _, ?_⟩
    rintro a ha b hb rfl
    exact absent (List.mem_singleton.1 hb ▸ ha)
  · rw [List.mem_append, List.mem_singleton, ← holds.2 u]
    split at h
    · obtain ⟨-, h⟩ := guard_eq_ok.1 h
      rw [pure_eq_ok] at h
      subst h
      simp only [Scope.defines, List.contains_cons, Bool.or_eq_true, beq_iff_eq]
      grind
    · rw [pure_eq_ok] at h
      subst h
      simp only [Scope.defines, List.contains_cons, Bool.or_eq_true, beq_iff_eq]
      grind

theorem holds_checkBinding {b : Binding} {vs : List Var} (holds : scope.Holds vs)
    (h : f.checkBinding kind scope b = .ok scope') :
    scope'.Holds (vs ++ b.defined?.toList) ∧ (∀ v ∈ b.defined?, f.Allocates v) ∧
      ∀ v ∈ b.value.reads, f.Allocates v := by
  simp only [checkBinding] at h
  obtain ⟨value, h⟩ := check_bind_eq_ok.1 h
  obtain ⟨-, h⟩ := check_bind_eq_ok.1 h
  have reads := allocates_of_checkExpr value
  split at h
  · next v defined =>
      obtain ⟨holds', alloc⟩ := holds_checkDefinition holds h
      rw [defined]
      exact ⟨holds', fun u hu => Option.some.inj hu ▸ alloc, reads⟩
  · next defined =>
      rw [pure_eq_ok] at h
      subst h
      rw [defined]
      exact ⟨by simpa using holds, by simp, reads⟩

/-- What is known of a list of bindings that passed one after the other. -/
theorem holds_checkBindings {bs : List Binding} {vs : List Var} (holds : scope.Holds vs)
    (h : bs.foldlM (f.checkBinding kind) scope = .ok scope') :
    scope'.Holds (vs ++ bs.filterMap Binding.defined?) ∧
      ∀ b ∈ bs, (∀ v ∈ b.defined?, f.Allocates v) ∧ ∀ v ∈ b.value.reads, f.Allocates v := by
  induction bs generalizing scope vs with
  | nil =>
      rw [List.foldlM_nil, pure_eq_ok] at h
      subst h
      exact ⟨by simpa using holds, fun b hb => by cases hb⟩
  | cons b bs ih =>
      obtain ⟨mid, first, rest⟩ := foldlM_cons_eq_ok.1 h
      obtain ⟨holds', ofFirst⟩ := holds_checkBinding holds first
      obtain ⟨holds'', ofRest⟩ := ih holds' rest
      refine ⟨?_, List.forall_mem_cons.2 ⟨ofFirst, ofRest⟩⟩
      rw [List.append_assoc] at holds''
      cases defined : b.defined? with
      | none => simpa [defined] using holds''
      | some v => simpa [defined] using holds''

theorem holds_checkBlocks {blocks : List Block} {position : Nat} {vs : List Var}
    (holds : scope.Holds vs) (h : f.checkBlocks position scope blocks = .ok scope') :
    scope'.Holds (vs ++ (blocks.flatMap Block.bindings).filterMap Binding.defined?) ∧
      ∀ b ∈ blocks.flatMap Block.bindings,
        (∀ v ∈ b.defined?, f.Allocates v) ∧ ∀ v ∈ b.value.reads, f.Allocates v := by
  induction blocks generalizing scope vs position with
  | nil =>
      rw [checkBlocks] at h
      cases h
      exact ⟨by simpa using holds, fun b hb => by cases hb⟩
  | cons block blocks ih =>
      rw [checkBlocks] at h
      obtain ⟨mid, first, rest⟩ := bind_eq_ok.1 h
      simp only [checkBlock] at first
      split at first
      · cases first
      · obtain ⟨after, bindings, left⟩ := bind_eq_ok.1 first
        rw [pure_eq_ok] at left
        subst left
        obtain ⟨holds', ofFirst⟩ := holds_checkBindings holds bindings
        obtain ⟨holds'', ofRest⟩ := ih (Scope.holds_leaveBlock holds') rest
        rw [List.flatMap_cons, List.filterMap_append, ← List.append_assoc]
        refine ⟨holds'', fun b hb => ?_⟩
        rcases List.mem_append.1 hb with hb | hb
        · exact ofFirst b hb
        · exact ofRest b hb

theorem holds_checkParams {params : List Var} {vs : List Var} (holds : scope.Holds vs)
    (h : params.foldlM (f.checkDefinition .plain) scope = .ok scope') :
    scope'.Holds (vs ++ params) ∧ ∀ v ∈ params, f.Allocates v := by
  induction params generalizing scope vs with
  | nil =>
      rw [List.foldlM_nil, pure_eq_ok] at h
      subst h
      exact ⟨by simpa using holds, fun v hv => by cases hv⟩
  | cons v params ih =>
      obtain ⟨mid, first, rest⟩ := foldlM_cons_eq_ok.1 h
      obtain ⟨holds', alloc⟩ := holds_checkDefinition holds first
      obtain ⟨holds'', allocs⟩ := ih holds' rest
      rw [List.append_assoc, List.singleton_append] at holds''
      exact ⟨holds'', List.forall_mem_cons.2 ⟨alloc, allocs⟩⟩

/-- What every well-formed function satisfies of its variables. -/
structure Scoped (f : Function) : Prop where
  nodup : f.defined.Nodup
  definitions : ∀ v ∈ f.defined, f.Allocates v
  reads : ∀ b ∈ f.bindings, ∀ v ∈ b.value.reads, f.Allocates v
  body : ∀ v ∈ f.body.reads, f.Allocates v

theorem scoped_of_check (h : f.check = .ok ()) : f.Scoped := by
  simp only [check] at h
  obtain ⟨-, h⟩ := check_bind_eq_ok.1 h
  obtain ⟨entry, params, h⟩ := bind_eq_ok.1 h
  obtain ⟨last, blocks, body⟩ := bind_eq_ok.1 h
  obtain ⟨holds, ofParams⟩ := holds_checkParams Scope.holds_empty params
  obtain ⟨holds, ofBindings⟩ := holds_checkBlocks holds blocks
  rw [List.nil_append] at holds
  refine ⟨holds.1, fun v hv => ?_, fun b hb => (ofBindings b hb).2, allocates_of_checkExpr body⟩
  rcases List.mem_append.1 hv with hv | hv
  · exact ofParams v hv
  · obtain ⟨b, hb, defined⟩ := List.mem_filterMap.1 hv
    exact (ofBindings b hb).1 v defined

end Function

/-- A variable of a well-formed function is defined by one binding at most, and then it is no
parameter. -/
theorem not_defined_before {f : Function} {done rest : List Binding} {x : Binding} {v : Var}
    (wellFormed : f.Scoped) (split : f.bindings = done ++ x :: rest) (hv : v ∈ x.defined?) :
    v ∉ f.params ∧ v ∉ done.filterMap Binding.defined? := by
  have distinct := wellFormed.nodup
  rw [Function.defined, split, List.filterMap_append, List.nodup_append] at distinct
  obtain ⟨-, ofBindings, apart⟩ := distinct
  have here : v ∈ (x :: rest).filterMap Binding.defined? :=
    List.mem_filterMap.2 ⟨x, List.mem_cons_self, hv⟩
  constructor
  · exact fun param => apart v param v (List.mem_append_right _ here) rfl
  · exact fun before => (List.nodup_append.1 ofBindings).2.2 v before v here rfl

/-- A variable is defined by one binding only. -/
theorem Function.Scoped.eq_of_defined {f : Function} {x y : Binding} {v : Var} (h : f.Scoped)
    (left : x ∈ f.bindings) (right : y ∈ f.bindings) (ofLeft : v ∈ x.defined?)
    (ofRight : v ∈ y.defined?) : x = y := by
  obtain ⟨done, rest, split⟩ := List.append_of_mem left
  rw [split] at right
  rcases List.mem_append.1 right with before | after
  · have new := (not_defined_before h split ofLeft).2
    exact absurd (List.mem_filterMap.2 ⟨y, before, ofRight⟩) new
  · rcases List.mem_cons.1 after with same | after
    · exact same.symm
    · obtain ⟨mid, rest, rfl⟩ := List.append_of_mem after
      rw [← List.cons_append, ← List.append_assoc] at split
      have new := (not_defined_before h split ofRight).2
      exact absurd (List.mem_filterMap.2 ⟨x, by simp, ofLeft⟩) new

end TensorIR
