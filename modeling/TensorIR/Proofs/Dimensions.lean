import TensorIR.Expr.Inference
import TensorIR.Proofs.Scoping

/-!
# Dimensions of inferred shapes

Inference makes no dimensions of its own. Broadcasting takes each dimension from one of the
operands, an allocation takes its shape from an argument, and a variable has the shape that is
recorded of it. So whatever dimension variables have a name among those that are recorded and those
that stand in an expression, those of the inferred shape have one too (`Expr.named_inferShape?`).
Folding adds no variables either, and so the number of elements of a shape has no others
(`Shape.named_numElements`).
-/

namespace TensorIR

namespace Shape

theorem mem_broadcastInner? {a b c : Shape} (h : broadcastInner? a b = some c) :
    ∀ d ∈ c, d ∈ a ∨ d ∈ b := by
  fun_induction broadcastInner? a b generalizing c with
  | case1 b =>
      cases h
      exact fun d mem => .inr mem
  | case2 a as =>
      cases h
      exact fun d mem => .inl mem
  | case3 a as b bs ih =>
      obtain ⟨dim, joined, h⟩ := Option.bind_eq_some_iff.1 h
      obtain ⟨dims, rest, same⟩ := Option.bind_eq_some_iff.1 h
      cases same
      refine List.forall_mem_cons.2 ⟨?_, fun d mem => ?_⟩
      · rw [Dim.join?] at joined
        split at joined
        · cases joined
          exact .inl List.mem_cons_self
        · split at joined
          · cases joined
            exact .inr List.mem_cons_self
          · cases joined
      · exact (ih rest d mem).imp (List.mem_cons_of_mem a) (List.mem_cons_of_mem b)

theorem mem_broadcast? {a b c : Shape} (h : a.broadcast? b = some c) : ∀ d ∈ c, d ∈ a ∨ d ∈ b := by
  obtain ⟨dims, inner, rfl⟩ := Option.map_eq_some_iff.1 h
  intro d mem
  have parts := mem_broadcastInner? inner d (List.mem_reverse.1 mem)
  rwa [List.mem_reverse, List.mem_reverse] at parts

/-- What has been broadcast so far has its dimensions from the shapes so far. -/
theorem mem_foldlM_broadcast? {known rest : List (Option Shape)} {acc c : Shape}
    (parts : ∀ d ∈ acc, ∃ s, some s ∈ known ∧ d ∈ s)
    (h : rest.foldlM (fun acc s => s.bind acc.broadcast?) acc = some c) :
    ∀ d ∈ c, ∃ s, some s ∈ known ++ rest ∧ d ∈ s := by
  induction rest generalizing known acc with
  | nil =>
      cases h
      simpa using parts
  | cons s rest ih =>
      rw [List.foldlM_cons] at h
      obtain ⟨next, step, last⟩ := Option.bind_eq_some_iff.1 h
      obtain ⟨s, rfl, joined⟩ := Option.bind_eq_some_iff.1 step
      rw [List.append_cons]
      refine ih (fun d mem => ?_) last
      rcases mem_broadcast? joined d mem with old | new
      · obtain ⟨t, there, mem⟩ := parts d old
        exact ⟨t, List.mem_append_left _ there, mem⟩
      · exact ⟨s, List.mem_append_right _ List.mem_cons_self, new⟩

theorem mem_broadcastAll? {shapes : List (Option Shape)} {c : Shape}
    (h : broadcastAll? shapes = some c) : ∀ d ∈ c, ∃ s, some s ∈ shapes ∧ d ∈ s := by
  cases shapes with
  | nil => cases h
  | cons first rest =>
      obtain ⟨acc, rfl, h⟩ := Option.bind_eq_some_iff.1 h
      exact mem_foldlM_broadcast? (fun d mem => ⟨acc, List.mem_singleton_self _, mem⟩) h

end Shape

theorem Callee.mem_resultShape? {callee : Callee} {args : List Expr}
    {shapes : List (Option Shape)} {c : Shape} (h : callee.resultShape? args shapes = some c) :
    ∀ d ∈ c, (∃ s, some s ∈ shapes ∧ d ∈ s) ∨ ∃ e ∈ args, e.shapeLiteral? = some c := by
  have literal {i : Nat} (found : args[i]?.bind Expr.shapeLiteral? = some c) :
      ∃ e ∈ args, e.shapeLiteral? = some c := by
    obtain ⟨e, at_, is⟩ := Option.bind_eq_some_iff.1 found
    exact ⟨e, List.mem_of_getElem? at_, is⟩
  intro d mem
  cases callee with
  | op op =>
      cases op with
      | add | multiply | fma => exact .inl (Shape.mem_broadcastAll? h d mem)
      | callDps | allocTensor | vmAllocTensor => exact .inr (literal h)
      | callPacked | vmAllocStorage | vmStoreShape | vmLoadShape => cases h
  | external symbol =>
      rw [resultShape?] at h
      split at h
      · exact .inr (literal h)
      · cases h
  | global _ => cases h

variable {P : DimVar → Prop}

/-- Folding drops variables and adds none. -/
theorem Dim.named_fold {op : ArithOp} {a b : Dim} (left : ∀ v ∈ a.vars, P v)
    (right : ∀ v ∈ b.vars, P v) : ∀ v ∈ (fold op a b).vars, P v := by
  rw [fold]
  cases literalResult? op a b with
  | some n => exact List.forall_mem_nil _
  | none =>
      dsimp only
      split
      · exact right
      · split
        · exact left
        · split
          · exact List.forall_mem_nil _
          · exact List.forall_mem_append.2 ⟨left, right⟩

namespace Shape

/-- All dimension variables of a shape have the property. -/
theorem forall_mem_vars {s : Shape} : (∀ v ∈ s.vars, P v) ↔ ∀ d ∈ s, ∀ v ∈ d.vars, P v :=
  List.forall_mem_flatMap

theorem named_numElements {s : Shape} (named : ∀ v ∈ s.vars, P v) :
    ∀ v ∈ s.numElements.vars, P v := by
  have folded (start : Dim) (first : ∀ v ∈ start.vars, P v) :
      ∀ v ∈ (s.foldl (Dim.fold .mul) start).vars, P v := by
    induction s generalizing start with
    | nil => exact first
    | cons d s ih =>
        obtain ⟨here, later⟩ := List.forall_mem_append.1 named
        exact ih later (Dim.fold .mul start d) (Dim.named_fold first here)
  exact folded (.int 1) (List.forall_mem_nil _)

end Shape

namespace Expr

variable {vars : List VarInfo} {e : Expr}

theorem named_inferShape? (recorded : ∀ info ∈ vars, ∀ d ∈ (info.shape.getD []).vars, P d) :
    (∀ d ∈ e.dimVars, P d) → ∀ d ∈ ((e.inferShape? vars).getD []).vars, P d := by
  induction e using Expr.induction with
  | var v =>
      intro _
      rw [inferShape?]
      cases found : vars[v.index]? with
      | none => exact List.forall_mem_nil _
      | some info => exact recorded info (List.mem_of_getElem? found)
  | const _ | shape _ | external _ | global _ | item _ _ _ | tuple _ _ =>
      exact fun _ => List.forall_mem_nil _
  | call head args ih =>
      intro standing
      rw [dimVars, dimVarsAll_eq_flatMap, List.forall_mem_append] at standing
      obtain ⟨carried, inArgs⟩ := standing
      have parts (e : Expr) (mem : e ∈ args) : ∀ d ∈ e.dimVars, P d :=
        fun d named => inArgs d (List.mem_flatMap.2 ⟨e, mem, named⟩)
      rw [inferShape?, inferShapes_eq_map]
      cases known : head.shape with
      | some s =>
          rw [known] at carried
          exact carried
      | none =>
          cases result : head.callee.resultShape? args (args.map (inferShape? vars)) with
          | none => exact List.forall_mem_nil _
          | some c =>
              refine Shape.forall_mem_vars.2 fun d mem => ?_
              rcases Callee.mem_resultShape? result d mem with ⟨s, inferred, here⟩ | ⟨e, arg, is⟩
              · obtain ⟨e, arg, same⟩ := List.mem_map.1 inferred
                have named := ih e arg (parts e arg)
                rw [same] at named
                exact Shape.forall_mem_vars.1 named d here
              · cases e with
                | shape s =>
                    cases is
                    exact Shape.forall_mem_vars.1 (parts _ arg) d mem
                | var _ | tuple _ | item _ _ | const _ | external _ | global _ | call _ _ =>
                    cases is

theorem named_annotate (recorded : ∀ info ∈ vars, ∀ d ∈ (info.shape.getD []).vars, P d)
    (standing : ∀ d ∈ e.dimVars, P d) : ∀ d ∈ (e.annotate vars).dimVars, P d := by
  have inferred := named_inferShape? recorded standing
  cases e with
  | call head args =>
      rw [dimVars, List.forall_mem_append] at standing
      rw [annotate, dimVars, List.forall_mem_append]
      exact ⟨inferred, standing.2⟩
  | var _ | shape _ | tuple _ | item _ _ | const _ | external _ | global _ => exact standing

end Expr

end TensorIR
