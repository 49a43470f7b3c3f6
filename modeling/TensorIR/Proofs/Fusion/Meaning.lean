import TensorIR.Proofs.Emitter
import TensorIR.Proofs.Evaluation
import TensorIR.Proofs.Fusion.Steps
import TensorIR.Proofs.WellFormed

/-!
# Fusion preserves meaning

A fused function computes what the function from before computes, for every interpretation of calls
under which the fused operator is the product followed by the sum.

The proof runs both functions side by side. Their environments agree along the renaming at hand
(`Agrees`), and every product that fusion remembers still has in the new environment the operands
that it was computed from (`Known`). The latter holds up because no variable is bound twice: what
the operands evaluated to at the product they evaluate to at the sum, however many bindings, blocks
and renamings lie between. So it plays no part in the argument that a product has one reader only.
-/

namespace TensorIR

universe u

/-- The fused operator is a product followed by a sum, and the three operators ignore their
attributes. -/
structure Interpretation.Fuses {V : Type u} (I : Interpretation V) : Prop where
  attrs : ∀ op ∈ [Op.add, Op.multiply, Op.fma], ∀ attrs xs,
    I.call (.op op) attrs xs = I.call (.op op) .none xs
  fma : ∀ a b c, I.call (.op .fma) .none [a, b, c] =
    (I.call (.op .multiply) .none [a, b]).bind fun p => I.call (.op .add) .none [p, c]

@[simp]
theorem Binding.defined?_withValue (b : Binding) (value : Expr) :
    (b.withValue value).defined? = b.defined? := by
  cases b <;> rfl

namespace Fusion

/-- The binding that is emitted for one that stays, after renaming. -/
def keptBinding (x : Binding) (s : Fusion) (b : Builder) : Binding :=
  x.withValue ((x.value.substitute s.renames).annotate b.vars)

/-- What can come of a binding where fusion goes through a function, as far as values matter. -/
inductive Step (x : Binding) (s : Fusion) (b : Builder) : Fusion → Builder → Prop where
  | kept : Step x s b s (b.append (keptBinding x s b))
  | product {v value head a a'} (is : x = .define v value)
    (product : value.substitute s.renames = .call head [a, a'])
    (callee : head.callee = .op .multiply) :
    Step x s b { s with products := (v, a, a') :: s.products } (b.append (keptBinding x s b))
  /-- An addition to a product, fused under the name of the addition. -/
  | inPlace {v value head t a a' c} (is : x = .define v value)
    (sum : value.substitute s.renames = .call head [.var t, c])
    (callee : head.callee = .op .add) (found : s.products.lookup t = some (a, a')) :
    Step x s b s (b.append (.define v ((Expr.ofOp .fma [a, a', c]).annotate b.vars)))
  /-- An addition to a product, fused under a new name. -/
  | renamed {v value head t a a' c vars} {info : VarInfo} (is : x = .define v value)
    (sum : value.substitute s.renames = .call head [.var t, c])
    (callee : head.callee = .op .add) (found : s.products.lookup t = some (a, a')) :
    Step x s b { s with renames := (v, ⟨b.vars.length⟩) :: s.renames }
      ((b.fresh info).1.append
        (.define ⟨b.vars.length⟩ ((Expr.ofOp .fma [a, a', c]).annotate vars)))

theorem defined?_keptBinding (x : Binding) (s : Fusion) (b : Builder) :
    (keptBinding x s b).defined? = x.defined? := Binding.defined?_withValue x _

variable {f : Function} {x : Binding} {s s' : Fusion} {b b' : Builder}

theorem kept_of_push (h : b.push (x.substitute s.renames) = .ok b') :
    b' = b.append (keptBinding x s b) := by
  rw [Builder.push_eq_ok_append h]
  cases x <;> rfl

theorem Emission.step (h : Emission f x s b s' b') : Step x s b s' b' := by
  cases h with
  | kept pushed _ =>
      rw [kept_of_push pushed]
      exact .kept
  | product is _ isProduct pushed =>
      obtain ⟨head, product, callee⟩ := product?_eq_some.1 isProduct
      rw [kept_of_push pushed]
      exact .product is product callee
  | inPlace is _ isSum bound =>
      obtain ⟨head, t, a, a', c, sum, callee, -, found, rfl⟩ := fused?_eq_some.1 isSum
      rw [is, Builder.bind_eq_ok_append bound]
      exact .inPlace rfl sum callee found
  | renamed is _ isSum bound =>
      obtain ⟨head, t, a, a', c, sum, callee, -, found, rfl⟩ := fused?_eq_some.1 isSum
      rw [is, Builder.bind_eq_ok_append bound]
      exact .renamed rfl sum callee found

theorem step_of_emitter {position : Nat} (h : emitter f position x s b = .ok (s', b')) :
    Step x s b s' b' := (emission_of_emitter h).step

theorem Step.bindings (h : Step x s b s' b') : ∃ y, b'.bindings = b.bindings ++ [y] := by
  cases h with
  | kept | product _ _ _ | inPlace _ _ _ _ => exact ⟨_, Builder.bindings_append ..⟩
  | renamed _ _ _ _ => exact ⟨_, Builder.bindings_append ..⟩

/-! ### Names -/

/-- What fusion has renamed, and what it has defined, after the bindings `done`. -/
structure Renamed (f : Function) (done : List Binding) (s : Fusion) (b : Builder) : Prop where
  params : b.params = f.params
  grown : f.vars.length ≤ b.vars.length
  images : ∀ v, f.Allocates v → s.renames.apply v = v ∨
    (f.vars.length ≤ (s.renames.apply v).index ∧ (s.renames.apply v).index < b.vars.length)
  untouched : ∀ v, v ∉ done.filterMap Binding.defined? → s.renames.apply v = v
  defined : b.bindings.filterMap Binding.defined? =
    (done.filterMap Binding.defined?).map s.renames.apply

theorem Renamed.index_lt {done : List Binding} {v : Var} (h : Renamed f done s b)
    (hv : f.Allocates v) : (s.renames.apply v).index < b.vars.length := by
  rcases h.images v hv with own | ⟨-, bound⟩
  · rw [own]
    exact Nat.lt_of_lt_of_le hv h.grown
  · exact bound

theorem renamed_append {done rest : List Binding} {y : Binding} (wellFormed : f.Scoped)
    (split : f.bindings = done ++ x :: rest) (h : Renamed f done s b)
    (same : y.defined? = x.defined?) : Renamed f (done ++ [x]) s (b.append y) where
  params := h.params
  grown := h.grown
  images := h.images
  untouched v hv := by
    rw [defined_append, List.mem_append, not_or] at hv
    exact h.untouched v hv.1
  defined := by
    rw [Builder.bindings_append, defined_append, defined_append, List.map_append, h.defined, same]
    cases defined : x.defined? with
    | none => rfl
    | some v =>
        rw [Option.toList_some, List.map_singleton,
          h.untouched v (not_defined_before wellFormed split defined).2]

theorem renamed_step {done rest : List Binding} (wellFormed : f.Scoped)
    (split : f.bindings = done ++ x :: rest) (h : Renamed f done s b) (step : Step x s b s' b') :
    Renamed f (done ++ [x]) s' b' := by
  cases step with
  | kept => exact renamed_append wellFormed split h (defined?_keptBinding x s b)
  | product _ _ _ =>
      have kept := renamed_append wellFormed split h (defined?_keptBinding x s b)
      exact ⟨kept.params, kept.grown, kept.images, kept.untouched, kept.defined⟩
  | inPlace is _ _ _ =>
      subst is
      exact renamed_append wellFormed split h rfl
  | @renamed v value _ _ _ _ _ _ info is _ _ _ =>
      subst is
      have new := (not_defined_before wellFormed split rfl).2
      refine ⟨h.params, ?_, fun u hu => ?_, fun u hu => ?_, ?_⟩
      · have := h.grown
        rw [Builder.vars_append, Builder.length_vars_fresh]
        omega
      · rw [Renaming.apply_cons, Builder.vars_append, Builder.length_vars_fresh]
        split
        · have := h.grown
          exact .inr ⟨this, Nat.lt_succ_self _⟩
        · rcases h.images u hu with same | ⟨isNew, bound⟩
          · exact .inl same
          · exact .inr ⟨isNew, by omega⟩
      · rw [defined_append, List.mem_append, not_or] at hu
        rw [Renaming.apply_cons, if_neg]
        · exact h.untouched u hu.1
        · rintro rfl
          exact hu.2 List.mem_cons_self
      · -- No binding before this one defines the variable that gets a new name.
        have earlier : (done.filterMap Binding.defined?).map
              (Renaming.apply ((v, ⟨b.vars.length⟩) :: s.renames)) =
            (done.filterMap Binding.defined?).map s.renames.apply := by
          refine List.map_congr_left fun u hu => ?_
          rw [Renaming.apply_cons, if_neg]
          rintro rfl
          exact new hu
        rw [Builder.bindings_append, Builder.bindings_fresh, defined_append, defined_append,
          List.map_append, h.defined, earlier]
        refine congrArg _ ?_
        show [_] = [Renaming.apply _ v]
        rw [Renaming.apply_cons, if_pos rfl]

/-- The variables of the function that is handed out in the end. -/
theorem Renamed.defined_eq {g : Function} (h : Renamed f f.bindings s b) (wellFormed : f.Scoped)
    (bindings : g.bindings = b.bindings) (params : g.params = b.params) :
    g.defined = f.defined.map s.renames.apply := by
  have own : f.params.map s.renames.apply = f.params := by
    refine (List.map_congr_left fun v hv => ?_).trans (List.map_id _)
    refine h.untouched v fun again => ?_
    exact (List.nodup_append.1 wellFormed.nodup).2.2 v hv v again rfl
  rw [Function.defined, Function.defined, List.map_append, own, bindings, params, h.params,
    h.defined]

theorem renamed_keeps (wellFormed : f.Scoped) : (emitter f).Keeps f.bindings (Renamed f) :=
  fun split names emitted => renamed_step wellFormed split names (step_of_emitter emitted)

theorem renamed_ignoresBlocks : Emitter.IgnoresBlocks (Renamed f) :=
  fun bindings vars params h => ⟨params ▸ h.params, vars ▸ h.grown, vars ▸ h.images, h.untouched,
    bindings ▸ h.defined⟩

theorem renamed_enter {done : List Binding} (h : Renamed f done s b) :
    Renamed f done { s with products := [] } b :=
  ⟨h.params, h.grown, h.images, h.untouched, h.defined⟩

theorem renamed_start (f : Function) : Renamed f [] {} (.reopen f) :=
  ⟨rfl, Nat.le_refl _, fun _ _ => .inl rfl, fun _ _ => rfl, rfl⟩

/-! ### Values -/

section Values

variable {V : Type u} {I : Interpretation V} {ρ : Renaming} {size : Nat} {env env' env₁ : Env V}

/-- The environments of the function from before and of the fused one agree along a renaming, and
variables past the given size are not bound. -/
structure Agrees (f : Function) (ρ : Renaming) (size : Nat) (env env' : Env V) : Prop where
  vars : ∀ v, f.Allocates v → env'.vars (ρ.apply v) = env.vars v
  dims : env'.dims = env.dims
  unbound : ∀ v : Var, size ≤ v.index → env'.vars v = none

/-- The operands of every product have a value, and the product is computed from them. -/
def Known (I : Interpretation V) (products : List (Var × Expr × Expr)) (env : Env V) : Prop :=
  ∀ t a a', products.lookup t = some (a, a') →
    ∃ x y, I.eval env a = some x ∧ I.eval env a' = some y ∧ (env.vars t).isSome ∧
      I.call (.op .multiply) .none [x, y] = env.vars t

theorem Known.mono {products : List (Var × Expr × Expr)} (h : Known I products env)
    (larger : env.Extends env') : Known I products env' := by
  intro t a a' found
  obtain ⟨x, y, left, right, bound, product⟩ := h t a a' found
  obtain ⟨z, value⟩ := Option.isSome_iff_exists.1 bound
  have kept := larger.vars t z value
  rw [value] at product
  refine ⟨x, y, Interpretation.eval_mono larger left, Interpretation.eval_mono larger right, ?_, ?_⟩
  · rw [kept]
    rfl
  · rw [kept]
    exact product

/-- No variable is renamed to another one of the function. -/
theorem image_ne {u v : Var}
    (images : ∀ v, f.Allocates v → ρ.apply v = v ∨ f.vars.length ≤ (ρ.apply v).index)
    (old : f.Allocates v) (hu : f.Allocates u) (differ : u ≠ v) : ρ.apply u ≠ v := by
  rcases images u hu with same | new
  · rwa [same]
  · rintro rfl
    exact absurd old (Nat.not_lt.2 new)

namespace Agrees

theorem eval (h : Agrees f ρ size env env') {e : Expr} (reads : ∀ v ∈ e.reads, f.Allocates v) :
    I.eval env' (e.substitute ρ) = I.eval env e :=
  Interpretation.eval_rename h.dims e fun v hv => h.vars v (reads v hv)

/-- Binding a variable, on the one side under its own name, on the other under its image. -/
theorem bind {v w : Var} {x : V} (h : Agrees f ρ size env env') {ρ' : Renaming} {size' : Nat}
    (image : ρ'.apply v = w) (bound : w.index < size') (grown : size ≤ size')
    (others : ∀ u, f.Allocates u → u ≠ v → ρ'.apply u = ρ.apply u ∧ ρ.apply u ≠ w) :
    Agrees f ρ' size' (env.bind v x) (env'.bind w x) where
  vars u hu := by
    by_cases same : u = v
    · rw [same, image, Env.bind_self, Env.bind_self]
    · obtain ⟨kept, differ⟩ := others u hu same
      rw [kept, Env.bind_of_ne _ _ differ, Env.bind_of_ne _ _ same]
      exact h.vars u hu
  dims := h.dims
  unbound u hu := by
    rw [Env.bind_of_ne]
    · exact h.unbound u (by omega)
    · rintro rfl
      omega

theorem setDims (h : Agrees f ρ size env env') (dims : DimVar → Option Int64) :
    Agrees f ρ size { env with dims } { env' with dims } := ⟨h.vars, rfl, h.unbound⟩

theorem run_kept (h : Agrees f ρ size env env') (grown : f.vars.length ≤ size)
    (images : ∀ v, f.Allocates v → ρ.apply v = v ∨ f.vars.length ≤ (ρ.apply v).index)
    (reads : ∀ v ∈ x.value.reads, f.Allocates v)
    (own : ∀ v ∈ x.defined?, f.Allocates v ∧ ρ.apply v = v ∧ env.vars v = none)
    (vars : List VarInfo) :
    Option.Rel (fun env₁ env₁' => Agrees f ρ size env₁ env₁' ∧ env'.Extends env₁')
      (I.run env x) (I.run env' (x.withValue ((x.value.substitute ρ).annotate vars))) := by
  have value : I.eval env' ((x.value.substitute ρ).annotate vars) = I.eval env x.value :=
    (Interpretation.eval_annotate env' vars _).trans (h.eval reads)
  have bindBoth : ∀ v ∈ x.defined?, ∀ y,
      Agrees f ρ size (env.bind v y) (env'.bind v y) ∧ env'.Extends (env'.bind v y) := by
    intro v hv y
    obtain ⟨old, same, unset⟩ := own v hv
    refine ⟨h.bind same (Nat.lt_of_lt_of_le old grown) (Nat.le_refl _) fun u hu differ => ?_, ?_⟩
    · exact ⟨rfl, image_ne images old hu differ⟩
    · refine Env.extends_bind ?_
      rw [← same, h.vars v old, unset]
  cases x with
  | define v e =>
      replace value : I.eval env' ((e.substitute ρ).annotate vars) = I.eval env e := value
      show Option.Rel _ _ (I.run env' (.define v ((e.substitute ρ).annotate vars)))
      rw [Interpretation.run, Interpretation.run, value]
      cases I.eval env e with
      | none => exact .none
      | some y => exact .some (bindBoth v rfl y)
  | matchShape v? e pattern =>
      replace value : I.eval env' ((e.substitute ρ).annotate vars) = I.eval env e := value
      show Option.Rel _ _ (I.run env' (.matchShape v? ((e.substitute ρ).annotate vars) pattern))
      rw [Interpretation.run, Interpretation.run, value]
      cases I.eval env e with
      | none => exact .none
      | some y =>
          rw [Option.bind_some, Option.bind_some]
          cases I.dims y with
          | none => exact .none
          | some ns =>
              rw [Option.map_some, Option.map_some, h.dims]
              refine .some ?_
              have keepsDims : ∀ v n, env'.dims v = some n →
                  Env.bindDims env.dims (pattern.zip ns) v = some n := fun v n bound =>
                Env.bindDims_of_some (h.dims ▸ bound) _
              cases v? with
              | none => exact ⟨h.setDims _, fun _ _ bound => bound, keepsDims⟩
              | some v =>
                  obtain ⟨agrees, larger⟩ := bindBoth v rfl y
                  exact ⟨agrees.setDims _, larger.vars, keepsDims⟩

theorem eval_fused {products : List (Var × Expr × Expr)} {value a a' c : Expr} {head : CallHead}
    {t : Var} (h : Agrees f ρ size env env') (fuses : I.Fuses)
    (reads : ∀ v ∈ value.reads, f.Allocates v) (known : Known I products env')
    (sum : value.substitute ρ = .call head [.var t, c]) (callee : head.callee = .op .add)
    (found : products.lookup t = some (a, a')) (vars : List VarInfo) :
    I.eval env' ((Expr.ofOp .fma [a, a', c]).annotate vars) = I.eval env value := by
  obtain ⟨x, y, left, right, bound, product⟩ := known t a a' found
  obtain ⟨z, isProduct⟩ := Option.isSome_iff_exists.1 bound
  rw [isProduct] at product
  rw [Interpretation.eval_annotate, ← h.eval reads, sum, Expr.ofOp, Interpretation.eval,
    Interpretation.eval, callee]
  simp only [Interpretation.evalAll, Interpretation.eval, left, right, isProduct]
  cases I.eval env' c with
  | none => rfl
  | some w =>
      show I.call (.op .fma) .none [x, y, w] = I.call (.op .add) head.attrs [z, w]
      rw [fuses.fma, product, fuses.attrs .add (by decide)]
      rfl

end Agrees

/-! ### Both runs -/

/-- Both functions have run as far as the bindings `done`, and nothing that is bound later has a
value yet. -/
structure Simulates (I : Interpretation V) (f : Function) (done : List Binding) (s : Fusion)
    (b : Builder) (env env' : Env V) : Prop
    extends Agrees f s.renames b.vars.length env env' where
  known : Known I s.products env'
  unset : ∀ v, v ∉ f.params → v ∉ done.filterMap Binding.defined? → env.vars v = none

theorem unset_run {done : List Binding} {v : Var}
    (unset : ∀ v, v ∉ f.params → v ∉ done.filterMap Binding.defined? → env.vars v = none)
    (ran : I.run env x = some env₁) (param : v ∉ f.params)
    (new : v ∉ (done ++ [x]).filterMap Binding.defined?) : env₁.vars v = none := by
  rw [defined_append, List.mem_append, not_or] at new
  have before := unset v param new.1
  cases x with
  | define u e =>
      obtain ⟨y, -, rfl⟩ := Option.map_eq_some_iff.1 ran
      rw [Env.bind_of_ne, before]
      rintro rfl
      exact new.2 List.mem_cons_self
  | matchShape u? e pattern =>
      obtain ⟨y, -, ran⟩ := Option.bind_eq_some_iff.1 ran
      obtain ⟨ns, -, rfl⟩ := Option.map_eq_some_iff.1 ran
      cases u? with
      | none => exact before
      | some u =>
          refine (Env.bind_of_ne _ _ ?_).trans before
          rintro rfl
          exact new.2 List.mem_cons_self

theorem rel_imp {α β : Type u} {r r' : α → β → Prop} {o : Option α} {o' : Option β}
    (h : Option.Rel r o o') (imp : ∀ a b, o = some a → o' = some b → r a b → r' a b) :
    Option.Rel r' o o' := by
  cases h with
  | some related => exact .some (imp _ _ rfl rfl related)
  | none => exact .none

theorem known_product {v : Var} {a a' : Expr} {head : CallHead} (vars : List VarInfo)
    (fuses : I.Fuses) (known : Known I s.products env')
    (callee : head.callee = .op .multiply)
    (ran : I.run env' (.define v ((Expr.call head [a, a']).annotate vars)) = some env₁)
    (larger : env'.Extends env₁) : Known I ((v, a, a') :: s.products) env₁ := by
  obtain ⟨z, value, rfl⟩ := Option.map_eq_some_iff.1 ran
  rw [Interpretation.eval_annotate] at value
  obtain ⟨x, y, left, right, product⟩ := Interpretation.eval_call_pair value
  rw [callee, fuses.attrs .multiply (by decide)] at product
  intro t c c' found
  rw [List.lookup_cons] at found
  split at found
  · next same =>
      rw [beq_iff_eq] at same
      subst same
      cases found
      refine ⟨x, y, Interpretation.eval_mono larger left, Interpretation.eval_mono larger right,
        ?_, ?_⟩
      · rw [Env.bind_self]
        rfl
      · rw [Env.bind_self]
        exact product
  · exact known.mono larger t c c' found

/-- An addition and the fused operation in its place, under the same name or a new one. -/
theorem simulates_fused {done : List Binding} {v w t : Var} {value a a' c : Expr} {head : CallHead}
    {ρ' : Renaming} {size' : Nat} (vars : List VarInfo) (fuses : I.Fuses)
    (h : Simulates I f done s b env env') (reads : ∀ v ∈ value.reads, f.Allocates v)
    (sum : value.substitute s.renames = .call head [.var t, c]) (callee : head.callee = .op .add)
    (found : s.products.lookup t = some (a, a')) (image : ρ'.apply v = w) (bound : w.index < size')
    (grown : b.vars.length ≤ size') (free : env'.vars w = none)
    (others : ∀ u, f.Allocates u → u ≠ v →
      ρ'.apply u = s.renames.apply u ∧ s.renames.apply u ≠ w) :
    Option.Rel (fun env₁ env₁' => Agrees f ρ' size' env₁ env₁' ∧ Known I s.products env₁')
      (I.run env (.define v value))
      (I.run env' (.define w ((Expr.ofOp .fma [a, a', c]).annotate vars))) := by
  have same := h.eval_fused fuses reads h.known sum callee found vars
  rw [Interpretation.run, Interpretation.run, same]
  cases I.eval env value with
  | none => exact .none
  | some y =>
      exact .some ⟨h.toAgrees.bind image bound grown others, h.known.mono (Env.extends_bind free)⟩

theorem simulates_step {done rest : List Binding} (wellFormed : f.Scoped) (fuses : I.Fuses)
    (split : f.bindings = done ++ x :: rest) (names : Renamed f done s b)
    (h : Simulates I f done s b env env') (step : Step x s b s' b') :
    ∃ y, b'.bindings = b.bindings ++ [y] ∧
      Option.Rel (Simulates I f (done ++ [x]) s' b') (I.run env x) (I.run env' y) := by
  have mem : x ∈ f.bindings := split ▸ List.mem_append_right _ List.mem_cons_self
  have reads := wellFormed.reads x mem
  have images : ∀ v, f.Allocates v →
      s.renames.apply v = v ∨ f.vars.length ≤ (s.renames.apply v).index := fun v hv =>
    (names.images v hv).imp_right And.left
  have own : ∀ v ∈ x.defined?, f.Allocates v ∧ s.renames.apply v = v ∧ env.vars v = none := by
    intro v hv
    obtain ⟨param, new⟩ := not_defined_before wellFormed split hv
    refine ⟨wellFormed.definitions v ?_, names.untouched v new, h.unset v param new⟩
    exact Function.mem_defined mem hv
  have kept : Option.Rel (fun env₁ env₁' =>
        Agrees f s.renames b.vars.length env₁ env₁' ∧ env'.Extends env₁')
      (I.run env x) (I.run env' (keptBinding x s b)) :=
    h.toAgrees.run_kept names.grown images reads own b.vars
  cases step with
  | kept =>
      refine ⟨_, Builder.bindings_append .., rel_imp kept ?_⟩
      rintro env₁ env₁' ran - ⟨agrees, larger⟩
      exact ⟨agrees, h.known.mono larger, fun v => unset_run h.unset ran⟩
  | product is product callee =>
      subst is
      refine ⟨_, Builder.bindings_append .., rel_imp kept ?_⟩
      rintro env₁ env₁' ran ran' ⟨agrees, larger⟩
      refine ⟨agrees, ?_, fun v => unset_run h.unset ran⟩
      refine known_product b.vars fuses h.known callee ?_ larger
      rw [← product]
      exact ran'
  | @inPlace v value head t a a' c is sum callee found =>
      subst is
      obtain ⟨old, same, unset⟩ := own v rfl
      have free : env'.vars v = none := by
        rw [← same, h.vars v old, unset]
      have others : ∀ u, f.Allocates u → u ≠ v →
          s.renames.apply u = s.renames.apply u ∧ s.renames.apply u ≠ v :=
        fun u hu differ => ⟨rfl, image_ne images old hu differ⟩
      have fused := simulates_fused b.vars fuses h reads sum callee found same
        (Nat.lt_of_lt_of_le old names.grown) (Nat.le_refl _) free others
      refine ⟨_, Builder.bindings_append .., rel_imp fused ?_⟩
      rintro env₁ env₁' ran - ⟨agrees, known⟩
      exact ⟨agrees, known, fun v => unset_run h.unset ran⟩
  | @renamed v value head t a a' c vars info is sum callee found =>
      subst is
      have others : ∀ u, f.Allocates u → u ≠ v →
          Renaming.apply ((v, ⟨b.vars.length⟩) :: s.renames) u = s.renames.apply u ∧
            s.renames.apply u ≠ ⟨b.vars.length⟩ := by
        refine fun u hu differ => ⟨by rw [Renaming.apply_cons, if_neg differ], fun same => ?_⟩
        have bound := names.index_lt hu
        rw [same] at bound
        exact absurd bound (Nat.lt_irrefl _)
      have image : Renaming.apply ((v, ⟨b.vars.length⟩) :: s.renames) v = ⟨b.vars.length⟩ := by
        rw [Renaming.apply_cons, if_pos rfl]
      have bound : (Var.mk b.vars.length).index < (b.fresh info).1.vars.length := by
        rw [Builder.length_vars_fresh]
        exact Nat.lt_succ_self _
      have grown : b.vars.length ≤ (b.fresh info).1.vars.length := Nat.le_of_lt bound
      have fused := simulates_fused vars fuses h reads sum callee found image bound grown
        (h.unbound _ (Nat.le_refl _)) others
      refine ⟨_, Builder.bindings_append .., rel_imp fused ?_⟩
      rintro env₁ env₁' ran - ⟨agrees, known⟩
      exact ⟨agrees, known, fun v => unset_run h.unset ran⟩

/-- Both functions, run from the same beginning, have come equally far. -/
def Lockstep (I : Interpretation V) (f : Function) (start : Env V) (done : List Binding)
    (s : Fusion) (b : Builder) : Prop :=
  Renamed f done s b ∧
    Option.Rel (Simulates I f done s b) (I.runAll start done) (I.runAll start b.bindings)

theorem lockstep_keeps {start : Env V} (wellFormed : f.Scoped) (fuses : I.Fuses) :
    (emitter f).Keeps f.bindings (Lockstep I f start) := by
  rintro done x rest position s b s' b' split ⟨names, runs⟩ emitted
  have step := step_of_emitter emitted
  refine ⟨renamed_step wellFormed split names step, ?_⟩
  rw [Interpretation.runAll_concat]
  cases first : I.runAll start done with
  | none =>
      obtain ⟨y, emittedOne⟩ := step.bindings
      rw [first] at runs
      cases second : I.runAll start b.bindings with
      | none =>
          rw [emittedOne, Interpretation.runAll_concat, second]
          exact .none
      | some env' =>
          rw [second] at runs
          cases runs
  | some env =>
      rw [first] at runs
      cases second : I.runAll start b.bindings with
      | none =>
          rw [second] at runs
          cases runs
      | some env' =>
          rw [second, Option.rel_some_some] at runs
          obtain ⟨y, emittedOne, ran⟩ := simulates_step wellFormed fuses split names runs step
          rw [emittedOne, Interpretation.runAll_concat, second]
          exact ran

theorem lockstep_start (wellFormed : f.Scoped) (args : Var → V) (dims : DimVar → Option Int64) :
    Lockstep I f (f.entry args dims) [] {} (.reopen f) := by
  refine ⟨renamed_start f, .some ?_⟩
  refine ⟨⟨fun v _ => rfl, rfl, fun v new => ?_⟩, nofun, fun v notParam _ => if_neg notParam⟩
  refine if_neg fun param => ?_
  exact absurd (wellFormed.definitions v (List.mem_append_left _ param)) (Nat.not_lt.2 new)

theorem lockstep_ignoresBlocks {start : Env V} :
    Emitter.IgnoresBlocks (Lockstep I f start) := by
  rintro done s b b' bindings vars params ⟨names, runs⟩
  refine ⟨renamed_ignoresBlocks bindings vars params names, ?_⟩
  rw [bindings]
  refine rel_imp runs ?_
  rintro env env' - - ⟨agrees, known, unset⟩
  exact ⟨vars ▸ agrees, known, unset⟩

theorem lockstep_enter {start : Env V} {done : List Binding} (h : Lockstep I f start done s b) :
    Lockstep I f start done { s with products := [] } b := by
  obtain ⟨names, runs⟩ := h
  refine ⟨renamed_enter names, rel_imp runs ?_⟩
  rintro env env' - - ⟨agrees, -, unset⟩
  exact ⟨agrees, nofun, unset⟩

end Values

/-- Fusion preserves meaning. Under every interpretation of calls in which the fused operator is a
product followed by a sum, the fused function gives what the function from before gives, and each
variable has its value under its own name or under a new one. -/
theorem fuse_meaning {g : Function} (wellFormed : f.check = .ok ()) (fused : f.fuse = .ok g) :
    ∃ ρ : Renaming, g.params = f.params ∧ g.defined = f.defined.map ρ.apply ∧ g.defined.Nodup ∧
      (∀ v ∈ f.defined, ρ.apply v = v ∨ f.vars.length ≤ (ρ.apply v).index) ∧
      ∀ {V : Type u} (I : Interpretation V), I.Fuses → ∀ args dims,
        (g.evaluate I args dims).map Prod.snd = (f.evaluate I args dims).map Prod.snd ∧
        ∀ env out, f.evaluate I args dims = some (env, out) →
          ∃ env', g.evaluate I args dims = some (env', out) ∧ env'.dims = env.dims ∧
            ∀ v ∈ f.defined, env'.vars (ρ.apply v) = env.vars v := by
  have wf := Function.scoped_of_check wellFormed
  simp only [Function.fuse] at fused
  obtain ⟨⟨s, b⟩, emitted, finished⟩ := bind_eq_ok.1 fused
  obtain ⟨bindings, body, -, params, checked⟩ :=
    Builder.finish_eq_ok (building_eq_ok.1 finished)
  have names : Renamed f f.bindings s b :=
    Emitter.emitBlocks_invariant (renamed_keeps wf) renamed_ignoresBlocks renamed_enter
      (List.nil_append _).symm (renamed_start f) emitted
  have defined := names.defined_eq wf bindings params
  refine ⟨s.renames, params.trans names.params, defined, (Function.scoped_of_check checked).nodup,
    fun v hv => (names.images v (wf.definitions v hv)).imp_right And.left, ?_⟩
  intro V I fuses args dims
  obtain ⟨-, runs⟩ : Lockstep I f (f.entry args dims) f.bindings s b :=
    Emitter.emitBlocks_invariant (lockstep_keeps wf fuses) lockstep_ignoresBlocks lockstep_enter
      (List.nil_append _).symm (lockstep_start wf args dims) emitted
  have entry : g.entry args dims = f.entry args dims := by
    rw [Function.entry, Function.entry, params, names.params]
  rw [Function.evaluate, Function.evaluate, entry, bindings, body]
  generalize I.runAll (f.entry args dims) f.bindings = ran at runs ⊢
  generalize I.runAll (f.entry args dims) b.bindings = ran' at runs ⊢
  cases runs with
  | none => exact ⟨rfl, nofun⟩
  | @some env env' h =>
      have value : I.eval env' (f.body.substitute s.renames) = I.eval env f.body :=
        h.toAgrees.eval wf.body
      rw [Option.bind_some, Option.bind_some, value]
      cases I.eval env f.body with
      | none => exact ⟨rfl, nofun⟩
      | some out =>
          refine ⟨rfl, ?_⟩
          rintro _ _ ⟨⟩
          exact ⟨env', rfl, h.dims, fun v hv => h.vars v (wf.definitions v hv)⟩

/-- A sum with a product, in which what is recorded of the sum is not what is inferred for the fused
operation:

    t = multiply(a, b)
    s: Object = add(t, c)
    s
-/
def productSum : Function where
  name := "main"
  params := [⟨0⟩, ⟨1⟩, ⟨2⟩]
  blocks := [⟨.dataflow, [
    .define ⟨3⟩ (.ofOp .multiply [.var ⟨0⟩, .var ⟨1⟩]),
    .define ⟨4⟩ (.ofOp .add [.var ⟨3⟩, .var ⟨2⟩])]⟩]
  body := .var ⟨4⟩
  retTy := none
  vars := [⟨"a", .plain, none, none⟩, ⟨"b", .plain, none, none⟩, ⟨"c", .plain, none, none⟩,
    ⟨"t", .dataflow, none, none⟩, ⟨"s", .plain, none, some .object⟩]
  dimNames := []

/-- Integers, of which tuples and shapes are no values. -/
def integers : Interpretation Int where
  call callee _ xs :=
    match callee, xs with
    | .op .add, [a, b] => some (a + b)
    | .op .multiply, [a, b] => some (a * b)
    | .op .fma, [a, b, c] => some (a * b + c)
    | _, _ => none
  tuple _ := 0
  item _ _ := none
  const _ := 0
  external _ := 0
  global _ := 0
  shape _ := 0
  dims _ := none

theorem fuses_integers : integers.Fuses where
  attrs _ _ _ _ := rfl
  fma _ _ _ := rfl

/-- The sum gets a new name, and the value is that of the product and the sum. -/
theorem fuse_meaning_productSum :
    ∃ g, productSum.fuse = .ok g ∧ g.defined = [⟨0⟩, ⟨1⟩, ⟨2⟩, ⟨3⟩, ⟨5⟩] ∧
      (g.evaluate integers (fun v => v.index + 2) fun _ => none).map Prod.snd = some 10 := by
  have checks : productSum.check.toOption.isSome := by decide +kernel
  obtain ⟨⟨⟩, wellFormed⟩ := exists_eq_ok checks
  have fuses : productSum.fuse.toOption.isSome := by decide +kernel
  obtain ⟨g, fused⟩ := exists_eq_ok fuses
  obtain ⟨ρ, -, -, -, -, meaning⟩ := fuse_meaning wellFormed fused
  have names : productSum.fuse.toOption.map Function.defined =
      some [⟨0⟩, ⟨1⟩, ⟨2⟩, ⟨3⟩, ⟨5⟩] := by decide +kernel
  rw [fused] at names
  refine ⟨g, fused, Option.some.inj names, ?_⟩
  rw [(meaning integers fuses_integers _ _).1]
  decide +kernel

end Fusion

end TensorIR
