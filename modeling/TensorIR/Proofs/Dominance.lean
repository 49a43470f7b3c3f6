import TensorIR.Proofs.Occurrences
import TensorIR.Proofs.WellFormed

/-!
# Definitions come before reads

In a well-formed function a value reads parameters and variables that an earlier binding defines,
and the body reads variables that some binding or the parameter list defines. Reads are those of
values (`Expr.reads`); the traversal of a function meets the same ones, so that every variable that
occurs anywhere in a well-formed function is one that it defines (`occurrences_defined`).
-/

namespace TensorIR

/-- Every value reads variables on the list or defined by an earlier one of the bindings. -/
def ReadsAfter (vs : List Var) : List Binding → Prop
  | [] => True
  | b :: bs => (∀ v ∈ b.value.reads, v ∈ vs) ∧ ReadsAfter (vs ++ b.defined?.toList) bs

theorem readsAfter_append {vs : List Var} {xs ys : List Binding} :
    ReadsAfter vs (xs ++ ys) ↔
      ReadsAfter vs xs ∧ ReadsAfter (vs ++ xs.filterMap Binding.defined?) ys := by
  induction xs generalizing vs with
  | nil => simp [ReadsAfter]
  | cons x xs ih =>
      rw [List.cons_append, ReadsAfter, ReadsAfter, ih, defined_cons, List.append_assoc, and_assoc]

namespace Function

variable {f : Function} {kind : BlockKind} {scope scope' : Scope} {vs : List Var}

theorem mem_of_checkRead {v : Var} (holds : scope.Holds vs) (h : f.checkRead scope v = .ok ()) :
    v ∈ vs := by
  simp only [checkRead] at h
  obtain ⟨info, _, h⟩ := bind_eq_ok.1 h
  rw [← holds.2 v]
  split at h
  · next seen =>
      rw [Scope.sees, Bool.or_eq_true] at seen
      simp only [Scope.defines, Bool.or_eq_true]
      exact .inl seen
  · split at h
    · exact absurd h throw_ne_ok
    · exact absurd h throw_ne_ok

theorem mem_of_checkExpr (holds : scope.Holds vs) {e : Expr} :
    f.checkExpr scope e = .ok () → ∀ v ∈ e.reads, v ∈ vs := by
  induction e using Expr.induction with
  | var w =>
      intro h v hv
      rw [checkExpr] at h
      rw [Expr.reads, List.mem_singleton] at hv
      exact hv ▸ mem_of_checkRead holds h
  | shape _ | const _ | external _ | global _ =>
      intro _ v hv
      rw [Expr.reads] at hv
      cases hv
  | item t _ ih =>
      intro h
      rw [checkExpr] at h
      rw [Expr.reads]
      exact ih h
  | tuple es ih =>
      intro h v hv
      rw [checkExpr, checkExprs_eq_ok] at h
      rw [Expr.reads, Expr.readsAll_eq_flatMap, List.mem_flatMap] at hv
      obtain ⟨e, mem, hv⟩ := hv
      exact ih e mem (h e mem) v hv
  | call head es ih =>
      intro h v hv
      rw [checkExpr, check_bind_eq_ok, checkExprs_eq_ok] at h
      rw [Expr.reads, Expr.readsAll_eq_flatMap, List.mem_flatMap] at hv
      obtain ⟨e, mem, hv⟩ := hv
      exact ih e mem (h.2 e mem) v hv

theorem readsAfter_checkBindings {bs : List Binding} (holds : scope.Holds vs)
    (h : bs.foldlM (f.checkBinding kind) scope = .ok scope') : ReadsAfter vs bs := by
  induction bs generalizing scope vs with
  | nil => trivial
  | cons b bs ih =>
      obtain ⟨mid, first, rest⟩ := foldlM_cons_eq_ok.1 h
      have value := first
      simp only [checkBinding] at value
      refine ⟨mem_of_checkExpr holds (check_bind_eq_ok.1 value).1, ?_⟩
      exact ih (holds_checkBinding holds first).1 rest

theorem readsAfter_checkBlocks {blocks : List Block} {position : Nat} (holds : scope.Holds vs)
    (h : f.checkBlocks position scope blocks = .ok scope') :
    ReadsAfter vs (blocks.flatMap Block.bindings) := by
  induction blocks generalizing scope vs position with
  | nil => trivial
  | cons block blocks ih =>
      rw [checkBlocks] at h
      obtain ⟨mid, first, rest⟩ := bind_eq_ok.1 h
      simp only [checkBlock] at first
      split at first
      · cases first
      · obtain ⟨after, bindings, left⟩ := bind_eq_ok.1 first
        rw [pure_eq_ok] at left
        subst left
        rw [List.flatMap_cons, readsAfter_append]
        refine ⟨readsAfter_checkBindings holds bindings, ih ?_ rest⟩
        exact Scope.holds_leaveBlock (holds_checkBindings holds bindings).1

/-- No value and no body reads a variable before it is defined. -/
structure Dominated (f : Function) : Prop where
  bindings : ReadsAfter f.params f.bindings
  body : ∀ v ∈ f.body.reads, v ∈ f.defined

theorem dominated_of_check (h : f.check = .ok ()) : f.Dominated := by
  simp only [check] at h
  obtain ⟨-, h⟩ := check_bind_eq_ok.1 h
  obtain ⟨entry, params, h⟩ := bind_eq_ok.1 h
  obtain ⟨last, blocks, body⟩ := bind_eq_ok.1 h
  have holds := (holds_checkParams Scope.holds_empty params).1
  rw [List.nil_append] at holds
  exact ⟨readsAfter_checkBlocks holds blocks,
    mem_of_checkExpr (holds_checkBlocks holds blocks).1 body⟩

theorem Dominated.reads {done rest : List Binding} {x : Binding} (h : f.Dominated)
    (split : f.bindings = done ++ x :: rest) :
    ∀ v ∈ x.value.reads, v ∈ f.params ++ done.filterMap Binding.defined? := by
  have reads := h.bindings
  rw [split, readsAfter_append] at reads
  exact reads.2.1

end Function

/-! ### Occurrences -/

namespace Function

variable {f : Function}

theorem mem_occurrences {v : Var} : v ∈ f.occurrences ↔
    v ∈ f.defined ∨ (∃ b ∈ f.bindings, v ∈ b.value.reads) ∨ v ∈ f.body.reads := by
  rw [occurrences_eq, defined]
  simp only [List.mem_append, List.mem_flatMap, List.mem_filterMap, Option.mem_toList]
  constructor
  · rintro ((param | ⟨b, mem, read | defined⟩) | body)
    · exact .inl (.inl param)
    · exact .inr (.inl ⟨b, mem, read⟩)
    · exact .inl (.inr ⟨b, mem, defined⟩)
    · exact .inr (.inr body)
  · rintro ((param | ⟨b, mem, defined⟩) | ⟨b, mem, read⟩ | body)
    · exact .inl (.inl param)
    · exact .inl (.inr ⟨b, mem, .inr defined⟩)
    · exact .inl (.inr ⟨b, mem, .inl read⟩)
    · exact .inr body

/-- What occurs in a well-formed function is a parameter or defined by a binding. -/
theorem occurrences_defined (h : f.Dominated) {v : Var} (mem : v ∈ f.occurrences) :
    v ∈ f.defined := by
  rcases mem_occurrences.1 mem with defined | ⟨b, inBindings, read⟩ | body
  · exact defined
  · obtain ⟨done, rest, split⟩ := List.append_of_mem inBindings
    have before := h.reads split v read
    rw [defined, split, List.filterMap_append, ← List.append_assoc]
    exact List.mem_append_left _ before
  · exact h.body v body

end Function

end TensorIR
