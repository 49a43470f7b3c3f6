import TensorIR.Proofs.Demotion
import TensorIR.Proofs.Dominance
import TensorIR.Proofs.Fusion.Refitting

/-!
# Renaming passes without annotations

Fusion and demotion go through a function with a renaming that grows, and the builder annotates what
it is given. Without annotations the result is the function under one renaming, whatever is
annotated in it (`renamedBy_fused`, `Function.demotesTo_of_demote`). What can be read off a binding
without its annotations is then renamed as well, without a second look at the passes
(`RenamedBy.flatMap`).

For fusion this is so because the fused function is known. For demotion the induction is carried by
reads coming after definitions. A variable that takes a new name at a binding occurs in no binding
before it, so what has been emitted so far is also what the renaming at any later time makes of it
(`Demotion.Mirrors`).
-/

namespace TensorIR

namespace Binding

/-- The binding with what is annotated on its value left out. -/
def bare (x : Binding) : Binding := x.withValue x.value.bare

variable {r r' : Var → Var} {x : Binding} {ρ : Renaming} {vars : List VarInfo}

theorem bare_annotated (x : Binding) (vars : List VarInfo) : (x.annotated vars).bare = x.bare := by
  cases x with
  | define v e | matchShape v? e pattern => cases e <;> rfl

theorem defined?_bare (x : Binding) : x.bare.defined? = x.defined? := by
  cases x <;> rfl

theorem rename_congr (same : ∀ u, u ∈ x.value.reads ∨ x.defined? = some u → r u = r' u) :
    x.rename r = x.rename r' := by
  cases x with
  | define v e =>
      have value : e.rename r = e.rename r' := Expr.rename_congr fun u read => same u (.inl read)
      rw [rename, rename, same v (.inr rfl), value]
  | matchShape v? e pattern =>
      have value : e.rename r = e.rename r' := Expr.rename_congr fun u read => same u (.inl read)
      have name : v?.map r = v?.map r' := Option.map_congr fun v defines => same v (.inr defines)
      rw [rename, rename, name, value]

/-- How a binding is emitted under its own name. -/
theorem withValue_substitute (own : ∀ v ∈ x.defined?, ρ.apply v = v) :
    x.withValue ((x.value.substitute ρ).annotate vars) = (x.rename ρ.apply).annotated vars := by
  cases x with
  | define v e =>
      have same := own v rfl
      rw [Binding.rename, same]
      rfl
  | matchShape v? e pattern =>
      have same : v?.map ρ.apply = v? := by
        cases v? with
        | none => rfl
        | some v => exact congrArg some (own v rfl)
      rw [Binding.rename, same]
      rfl

/-- How a binding is emitted under a new name. -/
theorem withDefined_substitute {v w : Var} (defines : x.defined? = some v)
    (unread : v ∉ x.value.reads) :
    (x.withDefined w).withValue ((x.value.substitute ρ).annotate vars) =
      (x.rename (Renaming.apply ((v, w) :: ρ))).annotated vars := by
  have value : x.value.substitute ρ = x.value.rename (Renaming.apply ((v, w) :: ρ)) := by
    refine Expr.rename_congr fun u read => ?_
    rw [Renaming.apply_cons, if_neg]
    rintro rfl
    exact unread read
  have named : Renaming.apply ((v, w) :: ρ) v = w := by rw [Renaming.apply_cons, if_pos rfl]
  rw [value]
  cases x with
  | define v' e =>
      cases defines
      rw [Binding.rename, named]
      rfl
  | matchShape v? e pattern =>
      cases defines
      rw [Binding.rename, Option.map_some, named]
      rfl

end Binding

/-- The second list of bindings is the first one renamed, but for annotations. -/
def RenamedBy (r : Var → Var) (xs ys : List Binding) : Prop :=
  ys.map Binding.bare = xs.map fun x => (x.rename r).bare

/-- What can be read off bindings without their annotations is renamed with them. -/
theorem RenamedBy.flatMap {α : Type} {r : Var → Var} {xs ys : List Binding}
    {read : Binding → List α} {rename : α → α} (h : RenamedBy r xs ys)
    (ofBare : ∀ x, read x.bare = read x)
    (ofRenamed : ∀ x, read (x.rename r) = (read x).map rename) :
    ys.flatMap read = (xs.flatMap read).map rename := by
  have bare : (ys.map Binding.bare).flatMap read = ys.flatMap read := by
    rw [List.flatMap_map]
    exact List.flatMap_congr fun y _ => ofBare y
  rw [← bare, h, List.flatMap_map, List.map_flatMap]
  exact List.flatMap_congr fun x _ => (ofBare _).trans (ofRenamed x)

/-- `g` is `f` under a renaming that leaves parameters alone, but for annotations. -/
structure Function.DemotesTo (f g : Function) (r : Var → Var) : Prop where
  params : g.params = f.params
  own : ∀ v ∈ f.params, r v = v
  bindings : RenamedBy r f.bindings g.bindings
  body : g.body = f.body.rename r

theorem Function.DemotesTo.defined {f g : Function} {r : Var → Var} (h : f.DemotesTo g r) :
    g.defined = f.defined.map r := by
  have bound : (g.bindings.flatMap fun x => x.defined?.toList) =
      (f.bindings.flatMap fun x => x.defined?.toList).map r := by
    refine h.bindings.flatMap (fun x => congrArg Option.toList (Binding.defined?_bare x))
      fun x => ?_
    rw [Binding.defined?_rename]
    cases x.defined? <;> rfl
  rw [Function.defined, Function.defined, List.map_append, h.params, map_eq_self h.own,
    List.filterMap_eq_flatMap_toList, List.filterMap_eq_flatMap_toList, bound]

/-- The fused operations among them, the bindings of a fused function are renamed. -/
theorem renamedBy_fused (f : Function) : RenamedBy f.fusedVar f.fusedForms f.fused.bindings := by
  rw [RenamedBy, Function.fusedForms, Function.bindings, Function.fused, List.flatMap_map,
    List.map_flatMap, List.map_flatMap]
  refine List.flatMap_congr fun block _ => ?_
  rw [Function.fusedBlock, List.map_map, List.map_map]
  exact List.map_congr_left fun x _ => Binding.bare_annotated _ _

namespace Demotion

/-- What has been emitted is the bindings `done` under the renaming, but for annotations. -/
structure Mirrors (f : Function) (done : List Binding) (ρ : Renaming) (b : Builder) : Prop where
  params : b.params = f.params
  untouched : ∀ v, v ∉ done.filterMap Binding.defined? → ρ.apply v = v
  bindings : RenamedBy ρ.apply done b.bindings

namespace Mirrors

variable {f g : Function} {done rest : List Binding} {x y : Binding} {ρ ρ' : Renaming}
  {b b' : Builder}

theorem start (f : Function) : Mirrors f [] [] (.reopen f) where
  params := rfl
  untouched _ _ := rfl
  bindings := rfl

theorem sealBlock (h : Mirrors f done ρ b) : Mirrors f done ρ b.sealBlock where
  params := (Builder.params_sealBlock b).trans h.params
  untouched := h.untouched
  bindings := by
    rw [Builder.bindings_sealBlock]
    exact h.bindings

/-- Emitting one binding for one, with no more than the name that it defines changed. -/
theorem step (wellScoped : f.Scoped) (dominated : f.Dominated)
    (split : f.bindings = done ++ x :: rest) (h : Mirrors f done ρ b)
    (params : b'.params = b.params) (emitted : b'.bindings = b.bindings ++ [y])
    (agree : ∀ u, x.defined? ≠ some u → ρ'.apply u = ρ.apply u)
    (same : y.bare = (x.rename ρ'.apply).bare) : Mirrors f (done ++ [x]) ρ' b' := by
  have known {u : Var} (before : u ∈ f.params ++ done.filterMap Binding.defined?) :
      ρ'.apply u = ρ.apply u := by
    refine agree u fun defines => ?_
    obtain ⟨noParam, notBefore⟩ := not_defined_before wellScoped split defines
    exact (List.mem_append.1 before).elim noParam notBefore
  refine ⟨params.trans h.params, fun u hu => ?_, ?_⟩
  · rw [defined_append, List.mem_append, not_or, Option.mem_toList] at hu
    exact (agree u hu.2).trans (h.untouched u hu.1)
  · rw [RenamedBy, emitted, List.map_append, List.map_append, h.bindings, List.map_singleton,
      List.map_singleton, same]
    refine congrArg (· ++ _) (List.map_congr_left fun z before => ?_)
    refine congrArg Binding.bare (Binding.rename_congr fun u occurs => (known ?_).symm)
    obtain ⟨first, last, rfl⟩ := List.append_of_mem before
    rw [List.append_assoc] at split
    rw [List.filterMap_append, ← List.append_assoc]
    rcases occurs with read | defines
    · exact List.mem_append_left _ (dominated.reads split u read)
    · exact List.mem_append_right _ (List.mem_filterMap.2 ⟨z, List.mem_cons_self, defines⟩)

/-- A variable keeps its name up to its definition. -/
theorem own (wellScoped : f.Scoped) (split : f.bindings = done ++ x :: rest)
    (h : Mirrors f done ρ b) : ∀ v ∈ x.defined?, ρ.apply v = v := fun v defines =>
  h.untouched v (not_defined_before wellScoped split defines).2

theorem keeps (wellScoped : f.Scoped) (dominated : f.Dominated) :
    Keeps f.bindings (Mirrors f) := by
  intro kind done x rest ρ b ρ' b' split h step
  cases step with
  | kept _ =>
      refine h.step wellScoped dominated split rfl (Builder.bindings_append ..)
        (fun _ _ => rfl) ?_
      rw [Binding.withValue_substitute (h.own wellScoped split), Binding.bare_annotated]
  | @renamed v info vars defines =>
      have unread : v ∉ x.value.reads := fun read => by
        have known := dominated.reads split v read
        obtain ⟨noParam, notBefore⟩ := not_defined_before wellScoped split defines
        exact (List.mem_append.1 known).elim noParam notBefore
      refine h.step wellScoped dominated split rfl (Builder.bindings_append ..)
        (fun u other => ?_) ?_
      · rw [Renaming.apply_cons, if_neg]
        rintro rfl
        exact other defines
      · rw [Binding.withDefined_substitute defines unread, Binding.bare_annotated]

end Mirrors

end Demotion

theorem Function.demotesTo_of_demote {f g : Function} (wellFormed : f.check = .ok ())
    (demoted : f.demote = .ok g) : ∃ r, f.DemotesTo g r := by
  have wellScoped := scoped_of_check wellFormed
  obtain ⟨ρ, b, mirrors, finished⟩ := demote_invariant
    (Demotion.Mirrors.keeps wellScoped (dominated_of_check wellFormed))
    Demotion.Mirrors.sealBlock (Demotion.Mirrors.start f) demoted
  obtain ⟨bindings, body, -, params, -⟩ := Builder.finish_eq_ok finished
  refine ⟨ρ.apply, params.trans mirrors.params, fun v param => ?_, ?_, body⟩
  · refine mirrors.untouched v fun defined => ?_
    exact (List.nodup_append.1 wellScoped.nodup).2.2 v param v defined rfl
  · rw [bindings]
    exact mirrors.bindings

end TensorIR
