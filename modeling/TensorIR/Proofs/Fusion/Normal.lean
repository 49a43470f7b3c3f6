import TensorIR.Proofs.Dominance
import TensorIR.Proofs.Fusion.Meaning
import TensorIR.Proofs.Renaming
import TensorIR.Proofs.Settled

/-!
# Fusion leaves nothing to fuse

What fusion has made has no sum left that it would fuse.

A sum with a product of its block as the first operand was not fused because the product has another
reader, and it still has two then. Fusion drops a read of a product in one place only, at the sum
that it fuses, and that product has no other reader; all other reads stay, and those of the operands
of a product become more. A product keeps its name, since what gets a new name is a sum and no
variable is defined twice. So whatever is read more than once in the function from before is read as
often after fusion (`Fusion.Shared`).

It remains to see that fusion knows the products of a block while it is in the block. For this the
invariant has to follow the builder into a region and out of it again (`Fusion.Region`,
`Fusion.Between`).
-/

namespace TensorIR

namespace Binding

variable {x : Binding} {t u : Var} {ρ : Renaming} {vars : List VarInfo}

theorem IsProduct.defines (h : x.IsProduct t) : t ∈ x.defined? := by
  obtain ⟨head, a, a', rfl, -⟩ := h
  rfl

theorem IsProduct.not_addsTo (h : x.IsProduct t) : ¬ x.AddsTo u := by
  rintro ⟨v, head, c, rfl, callee⟩
  obtain ⟨head', a, a', is, callee'⟩ := h
  cases is
  rw [callee] at callee'
  cases callee'

theorem AddsTo.mem_reads (h : x.AddsTo t) : t ∈ x.value.reads := by
  obtain ⟨v, head, c, rfl, -⟩ := h
  simp [value, Expr.reads, Expr.readsAll]

theorem isProduct_annotated : (x.annotated vars).IsProduct t ↔ x.IsProduct t := by
  constructor
  · rintro ⟨head, a, a', is, callee⟩
    cases x with
    | matchShape _ _ _ => cases is
    | define v e =>
        cases e with
        | call head' args =>
            cases is
            exact ⟨_, a, a', rfl, callee⟩
        | var _ | shape _ | tuple _ | item _ _ | const _ | external _ | global _ => cases is
  · rintro ⟨head, a, a', rfl, callee⟩
    exact ⟨_, a, a', rfl, callee⟩

theorem AddsTo.of_annotated (h : (x.annotated vars).AddsTo t) : x.AddsTo t := by
  obtain ⟨v, head, c, is, callee⟩ := h
  cases x with
  | matchShape _ _ _ => cases is
  | define v e =>
      cases e with
      | call head' args =>
          cases is
          exact ⟨_, _, c, rfl, callee⟩
      | var _ | shape _ | tuple _ | item _ _ | const _ | external _ | global _ => cases is

theorem define_of_substitute {v : Var} {e : Expr} (h : x.substitute ρ = .define v e) :
    ∃ value, x = .define v value ∧ value.substitute ρ = e := by
  cases x with
  | matchShape _ _ _ => cases h
  | define w value =>
      obtain ⟨rfl, same⟩ := define.inj h
      exact ⟨value, rfl, same⟩

theorem IsProduct.of_substitute (h : (x.substitute ρ).IsProduct t) : x.IsProduct t := by
  obtain ⟨head, a, a', is, callee⟩ := h
  obtain ⟨value, rfl, ofValue⟩ := define_of_substitute is
  obtain ⟨args, rfl, operands⟩ := Expr.rename_eq_call ofValue
  obtain ⟨e₁, rest, rfl, -, operands⟩ := List.map_eq_cons_iff.1 operands
  obtain ⟨e₂, rest, rfl, -, operands⟩ := List.map_eq_cons_iff.1 operands
  cases List.map_eq_nil_iff.1 operands
  exact ⟨head, e₁, e₂, rfl, callee⟩

theorem AddsTo.of_substitute (h : (x.substitute ρ).AddsTo t) :
    ∃ u, x.AddsTo u ∧ ρ.apply u = t := by
  obtain ⟨v, head, c, is, callee⟩ := h
  obtain ⟨value, rfl, ofValue⟩ := define_of_substitute is
  obtain ⟨args, rfl, operands⟩ := Expr.rename_eq_call ofValue
  obtain ⟨e₁, rest, rfl, first, operands⟩ := List.map_eq_cons_iff.1 operands
  obtain ⟨e₂, rest, rfl, -, operands⟩ := List.map_eq_cons_iff.1 operands
  cases List.map_eq_nil_iff.1 operands
  obtain ⟨u, rfl, same⟩ := Expr.rename_eq_var first
  exact ⟨u, ⟨v, head, e₂, rfl, callee⟩, same⟩

end Binding

/-- Some binding of the function defines the variable as a product. -/
def Function.MakesProduct (f : Function) (t : Var) : Prop := ∃ y ∈ f.bindings, y.IsProduct t

theorem Function.useCount_pos {f : Function} {x : Binding} {v : Var} (mem : x ∈ f.bindings)
    (read : v ∈ x.value.reads) : 0 < f.useCount v := by
  rw [useCount, List.count_pos_iff, reads_eq]
  exact List.mem_append_left _ (List.mem_flatMap.2 ⟨x, mem, read⟩)

namespace Fusion

variable {f g : Function} {x y : Binding} {s s' : Fusion} {b b' : Builder} {t : Var}
  {done rest : List Binding}

/-! ### Reads -/

/-- A product that is read more than once has kept its name and its reads. -/
structure Shared (f : Function) (done : List Binding) (s : Fusion) (b : Builder) : Prop
    extends Renamed f done s b where
  own : ∀ t, f.MakesProduct t → s.renames.apply t = t
  reads : ∀ t, f.MakesProduct t → 1 < f.useCount t →
    (done.flatMap fun y => y.value.reads).count t ≤
      (b.bindings.flatMap fun y => y.value.reads).count t

theorem shared_start (f : Function) : Shared f [] {} (.reopen f) :=
  ⟨renamed_start f, fun _ _ => rfl, fun _ _ _ => Nat.le_refl _⟩

theorem Shared.around (h : Shared f done s b) (bindings : b'.bindings = b.bindings)
    (vars : b'.vars = b.vars) (params : b'.params = b.params) : Shared f done s b' :=
  ⟨renamed_ignoresBlocks bindings vars params h.toRenamed, h.own, bindings ▸ h.reads⟩

theorem Shared.enter (h : Shared f done s b) : Shared f done { s with products := [] } b :=
  ⟨renamed_enter h.toRenamed, h.own, h.reads⟩

/-- What is emitted for a binding reads a shared product as often as the binding. -/
theorem count_reads_substitute (e : Expr) {ρ : Renaming} (own : ρ.apply t = t) :
    e.reads.count t ≤ (e.substitute ρ).reads.count t := by
  rw [Expr.substitute, Expr.reads_rename]
  calc e.reads.count t
    _ ≤ (e.reads.map ρ.apply).count (ρ.apply t) := List.count_le_count_map
    _ = (e.reads.map ρ.apply).count t := by rw [own]

theorem count_reads_fused {value : Expr} {operands : List Expr} (own : s.renames.apply t = t)
    (shared : 1 < f.useCount t)
    (isSum : s.fused? f (value.substitute s.renames) = some operands) :
    value.reads.count t ≤ (Expr.ofOp .fma operands).reads.count t := by
  obtain ⟨head, u, a, a', c, sum, -, once, -, rfl⟩ := fused?_eq_some.1 isSum
  -- The one read that goes is that of a product with no other reader.
  have differ : t ≠ u := by
    rintro rfl
    omega
  have kept := count_reads_substitute value own
  rw [sum] at kept
  have dropped : (Expr.call head [.var u, c]).reads.count t = c.reads.count t := by
    simp [Expr.reads, Expr.readsAll, differ.symm]
  have emitted : (Expr.ofOp .fma [a, a', c]).reads.count t =
      a.reads.count t + (a'.reads.count t + c.reads.count t) := by
    simp [Expr.ofOp, Expr.reads, Expr.readsAll]
  omega

theorem Shared.append (h : Shared f done s b) (names : Renamed f (done ++ [x]) s' b')
    (own : ∀ t, f.MakesProduct t → s'.renames.apply t = t)
    (bindings : b'.bindings = b.bindings ++ [y])
    (reads : ∀ t, f.MakesProduct t → 1 < f.useCount t →
      x.value.reads.count t ≤ y.value.reads.count t) : Shared f (done ++ [x]) s' b' := by
  refine ⟨names, own, fun t product shared => ?_⟩
  have before := h.reads t product shared
  have here := reads t product shared
  rw [bindings, List.flatMap_append, List.flatMap_append, List.count_append, List.count_append,
    List.flatMap_singleton, List.flatMap_singleton]
  omega

/-- What gets a new name is a sum, so it is no product. -/
theorem product_ne_sum (wellFormed : f.Scoped) (mem : x ∈ f.bindings) {v : Var} {value : Expr}
    {operands : List Expr} (is : x = .define v value)
    (isSum : s.fused? f (value.substitute s.renames) = some operands) (product : f.MakesProduct t) :
    t ≠ v := by
  rintro rfl
  obtain ⟨y, inFunction, product⟩ := product
  have defines : t ∈ x.defined? := is ▸ rfl
  obtain rfl := wellFormed.eq_of_defined mem inFunction defines product.defines
  obtain ⟨head, u, a, a', c, sum, callee, -⟩ := fused?_eq_some.1 isSum
  obtain ⟨args, rfl, -⟩ := Expr.rename_eq_call sum
  obtain ⟨head', e, e', same, callee'⟩ := product
  rw [is] at same
  cases same
  rw [callee] at callee'
  cases callee'

theorem shared_step (wellFormed : f.Scoped) (split : f.bindings = done ++ x :: rest)
    (h : Shared f done s b) (emission : Emission f x s b s' b') : Shared f (done ++ [x]) s' b' := by
  have mem : x ∈ f.bindings := split ▸ List.mem_append_right _ List.mem_cons_self
  have names := renamed_step wellFormed split h.toRenamed emission.step
  have kept : ∀ t, f.MakesProduct t → 1 < f.useCount t → x.value.reads.count t ≤
      ((x.substitute s.renames).annotated b.vars).value.reads.count t := by
    intro t product _
    rw [Binding.value_annotated, Expr.reads_annotate]
    cases x <;> exact count_reads_substitute _ (h.own t product)
  cases emission with
  | kept pushed _ =>
      obtain rfl := Builder.push_eq_ok_append pushed
      exact h.append names h.own (Builder.bindings_append ..) kept
  | product _ _ _ pushed =>
      obtain rfl := Builder.push_eq_ok_append pushed
      exact h.append names h.own (Builder.bindings_append ..) kept
  | inPlace is _ isSum bound =>
      obtain rfl := Builder.bind_eq_ok_append bound
      refine h.append names h.own (Builder.bindings_append ..) fun t product shared => ?_
      rw [is, Binding.value, Binding.value, Expr.reads_annotate]
      exact count_reads_fused (h.own t product) shared isSum
  | renamed is _ isSum bound =>
      obtain rfl := Builder.bind_eq_ok_append bound
      refine h.append names (fun t product => ?_) (Builder.bindings_append ..)
        fun t product shared => ?_
      · rw [Renaming.apply_cons, if_neg (product_ne_sum wellFormed mem is isSum product)]
        exact h.own t product
      · rw [is, Binding.value, Binding.value, Expr.reads_annotate]
        exact count_reads_fused (h.own t product) shared isSum

/-- A product that is read more than once is read as often after fusion. -/
theorem Shared.finish (h : Shared f f.bindings s b)
    (finished : b.finish (f.body.substitute s.renames) = .ok g) (product : f.MakesProduct t)
    (shared : 1 < f.useCount t) : f.useCount t ≤ g.useCount t := by
  obtain ⟨bindings, body, -⟩ := Builder.finish_eq_ok finished
  have ofBindings := h.reads t product shared
  have ofBody := count_reads_substitute f.body (h.own t product)
  rw [Function.useCount, Function.useCount, Function.reads_eq, Function.reads_eq, bindings, body,
    List.count_append, List.count_append]
  omega

/-! ### Regions -/

/-- No sum among the bindings whose first operand is a product from earlier among them was the only
reader of the product. -/
def Unfusible (f : Function) (xs : List Binding) : Prop :=
  ∀ done x rest t, xs = done ++ x :: rest → x.AddsTo t → (∃ y ∈ done, y.IsProduct t) →
    f.MakesProduct t ∧ 1 < f.useCount t

theorem Unfusible.append {xs : List Binding} (h : Unfusible f xs)
    (last : ∀ t, x.AddsTo t → (∃ y ∈ xs, y.IsProduct t) → f.MakesProduct t ∧ 1 < f.useCount t) :
    Unfusible f (xs ++ [x]) := by
  intro done y rest t split adds product
  rcases rest.eq_nil_or_concat with rfl | ⟨rest, z, rfl⟩
  · obtain ⟨rfl, same⟩ := List.append_inj' split rfl
    cases same
    exact last t adds product
  · rw [List.concat_eq_append, ← List.cons_append, ← List.append_assoc] at split
    exact h done y rest t (List.append_inj' split rfl).1 adds product

/-- Fusion between blocks. -/
structure Between (f : Function) (done : List Binding) (s : Fusion) (b : Builder) : Prop
    extends Shared f done s b where
  outside : b.inDataflow = false
  blocks : ∀ block ∈ b.blocks, block.kind = .dataflow → Unfusible f block.bindings

/-- Fusion in a region. It knows the products that it has emitted there. -/
structure Region (f : Function) (done : List Binding) (s : Fusion) (b : Builder) : Prop
    extends Shared f done s b where
  inside : b.inDataflow = true
  blocks : ∀ block ∈ b.blocks, block.kind = .dataflow → Unfusible f block.bindings
  pending : Unfusible f b.pending
  known : ∀ y ∈ b.pending, ∀ t, y.IsProduct t → f.MakesProduct t ∧ (s.products.lookup t).isSome

theorem Emission.frame (h : Emission f x s b s' b') :
    b'.inDataflow = b.inDataflow ∧ b'.blocks = b.blocks := by
  cases h with
  | kept pushed _ | product _ _ _ pushed =>
      rw [Builder.push_eq_ok_append pushed]
      exact ⟨rfl, rfl⟩
  | inPlace _ _ _ bound | renamed _ _ _ bound =>
      rw [Builder.bind_eq_ok_append bound]
      exact ⟨rfl, rfl⟩

theorem between_step (wellFormed : f.Scoped) (split : f.bindings = done ++ x :: rest)
    (h : Between f done s b) (emission : Emission f x s b s' b') :
    Between f (done ++ [x]) s' b' := by
  obtain ⟨same, blocks⟩ := emission.frame
  exact ⟨shared_step wellFormed split h.toShared emission, same.trans h.outside, blocks ▸ h.blocks⟩

theorem Region.append (h : Region f done s b) (shared : Shared f (done ++ [x]) s' b')
    (same : b'.inDataflow = b.inDataflow) (blocks : b'.blocks = b.blocks)
    (pending : b'.pending = b.pending ++ [y])
    (sum : ∀ t, y.AddsTo t → f.MakesProduct t → (s.products.lookup t).isSome → 1 < f.useCount t)
    (grown : ∀ t, (s.products.lookup t).isSome → (s'.products.lookup t).isSome)
    (product : ∀ t, y.IsProduct t → f.MakesProduct t ∧ (s'.products.lookup t).isSome) :
    Region f (done ++ [x]) s' b' := by
  refine ⟨shared, same.trans h.inside, blocks ▸ h.blocks, ?_, ?_⟩ <;> rw [pending]
  · refine h.pending.append fun t adds ⟨z, before, isProduct⟩ => ?_
    obtain ⟨makes, found⟩ := h.known z before t isProduct
    exact ⟨makes, sum t adds makes found⟩
  · refine List.forall_mem_append.2 ⟨fun z before t isProduct => ?_,
      List.forall_mem_singleton.2 product⟩
    obtain ⟨makes, found⟩ := h.known z before t isProduct
    exact ⟨makes, grown t found⟩

/-- The fused operation is neither a sum nor a product. -/
theorem fused_isNeither {v : Var} {operands : List Expr} {vars : List VarInfo} :
    ¬ ((Binding.define v (.ofOp .fma operands)).annotated vars).AddsTo t ∧
      ¬ ((Binding.define v (.ofOp .fma operands)).annotated vars).IsProduct t := by
  constructor
  · intro adds
    obtain ⟨_, _, _, is, callee⟩ := adds.of_annotated
    cases is
    cases callee
  · intro isProduct
    obtain ⟨_, _, _, is, callee⟩ := Binding.isProduct_annotated.1 isProduct
    cases is
    cases callee

/-- A sum that is kept does not have the product to itself. -/
theorem shared_of_kept (wellFormed : f.Scoped) (mem : x ∈ f.bindings) (h : Renamed f done s b)
    (other : ∀ v value, x = .define v value → s.fused? f (value.substitute s.renames) = none)
    (adds : (x.substitute s.renames).AddsTo t) (product : f.MakesProduct t)
    (found : (s.products.lookup t).isSome) : 1 < f.useCount t := by
  -- Renaming never makes a read of a product, so the sum has read it before.
  have read : t ∈ x.value.reads := by
    obtain ⟨u, adds, same⟩ := adds.of_substitute
    obtain ⟨y, inFunction, product⟩ := product
    have old : f.Allocates t := wellFormed.definitions t <| List.mem_append_right _ <|
      List.mem_filterMap.2 ⟨y, inFunction, product.defines⟩
    by_cases own : u = t
    · exact own ▸ adds.mem_reads
    · have hu := wellFormed.reads x mem u adds.mem_reads
      have images : ∀ v, f.Allocates v →
          s.renames.apply v = v ∨ f.vars.length ≤ (s.renames.apply v).index :=
        fun v hv => (h.images v hv).imp_right And.left
      exact absurd same (image_ne images old hu own)
  have several : f.useCount t ≠ 1 := by
    intro once
    obtain ⟨v, head, c, is, callee⟩ := adds
    obtain ⟨⟨a, a'⟩, found⟩ := Option.isSome_iff_exists.1 found
    obtain ⟨value, is, ofValue⟩ := Binding.define_of_substitute is
    have fused := fused?_eq_some.2 ⟨head, t, a, a', c, ofValue, callee, once, found, rfl⟩
    rw [other v value is] at fused
    cases fused
  have := Function.useCount_pos mem read
  omega

theorem region_step (wellFormed : f.Scoped) (split : f.bindings = done ++ x :: rest)
    (h : Region f done s b) (emission : Emission f x s b s' b') :
    Region f (done ++ [x]) s' b' := by
  have mem : x ∈ f.bindings := split ▸ List.mem_append_right _ List.mem_cons_self
  have shared := shared_step wellFormed split h.toShared emission
  obtain ⟨same, blocks⟩ := emission.frame
  cases emission with
  | kept pushed other =>
      obtain rfl := Builder.push_eq_ok_append pushed
      refine h.append shared same blocks rfl (fun t adds makes found => ?_) (fun _ => id)
        fun t isProduct => ?_
      · exact shared_of_kept wellFormed mem h.toRenamed
          (fun v value is => (other v value is h.inside).2) adds.of_annotated makes found
      · obtain ⟨head, a, a', is, callee⟩ := Binding.isProduct_annotated.1 isProduct
        obtain ⟨value, is, ofValue⟩ := Binding.define_of_substitute is
        have product := product?_eq_some.2 ⟨head, ofValue, callee⟩
        rw [(other t value is h.inside).1] at product
        cases product
  | @product v value a a' b₁ is inside isProduct pushed =>
      obtain rfl := Builder.push_eq_ok_append pushed
      subst is
      obtain ⟨head, ofValue, callee⟩ := product?_eq_some.1 isProduct
      have emitted :
          (((Binding.define v value).substitute s.renames).annotated b.vars).IsProduct v :=
        Binding.isProduct_annotated.2 ⟨head, a, a', congrArg (Binding.define v) ofValue, callee⟩
      refine h.append shared same blocks rfl (fun t adds => absurd adds emitted.not_addsTo)
        (fun t found => ?_) fun t isProduct => ?_
      · show (List.lookup t ((v, a, a') :: s.products)).isSome
        rw [List.lookup_cons]
        split
        · rfl
        · exact found
      · obtain rfl : v = t := Option.some.inj isProduct.defines
        refine ⟨⟨_, mem, (Binding.isProduct_annotated.1 isProduct).of_substitute⟩, ?_⟩
        show (List.lookup v ((v, a, a') :: s.products)).isSome
        rw [List.lookup_cons_self]
        rfl
  | inPlace _ _ _ bound =>
      obtain rfl := Builder.bind_eq_ok_append bound
      exact h.append shared same blocks rfl (fun t adds => absurd adds fused_isNeither.1)
        (fun _ => id) fun t isProduct => absurd isProduct fused_isNeither.2
  | renamed _ _ _ bound =>
      obtain rfl := Builder.bind_eq_ok_append bound
      exact h.append shared same blocks rfl (fun t adds => absurd adds fused_isNeither.1)
        (fun _ => id) fun t isProduct => absurd isProduct fused_isNeither.2

/-! ### Blocks -/

/-- The block that ends outside of a region is a plain one. -/
theorem Between.endBlock (h : Between f done s b) :
    ∀ block ∈ (b.endBlock .plain).blocks, block.kind = .dataflow → Unfusible f block.bindings :=
  Builder.forall_endBlock h.blocks fun _ dataflow => nomatch dataflow

theorem Between.sealBlock (h : Between f done s b) : Between f done s b.sealBlock := by
  have shared := h.toShared.around (Builder.bindings_sealBlock b) (Builder.vars_sealBlock b)
    (Builder.params_sealBlock b)
  have same : b.sealBlock = b.endBlock .plain := by
    rw [Builder.sealBlock, h.outside]
    rfl
  refine ⟨shared, ?_, ?_⟩ <;> rw [same]
  · rw [Builder.inDataflow_endBlock]
    exact h.outside
  · exact h.endBlock

theorem Between.openRegion (h : Between f done s b) (opened : b.openRegion = .ok b') :
    Region f done { s with products := [] } b' := by
  obtain ⟨bindings, vars, params⟩ := Builder.openRegion_eq_ok opened
  have shared := (h.toShared.around bindings vars params).enter
  rw [Builder.openRegion, h.outside] at opened
  cases opened
  have none : ({ b.endBlock .plain with inDataflow := true } : Builder).pending = [] :=
    Builder.pending_endBlock b .plain
  refine ⟨shared, rfl, h.endBlock, ?_, ?_⟩ <;> rw [none]
  · intro done x rest t split
    cases done <;> cases split
  · exact fun y mem => absurd mem List.not_mem_nil

theorem Region.closeRegion (h : Region f done s b) : Between f done s b.closeRegion.1 := by
  have shared := h.toShared.around (Builder.bindings_closeRegion b) (Builder.vars_closeRegion b)
    (Builder.params_closeRegion b)
  have same : b.closeRegion.1 = { b.endBlock .dataflow with inDataflow := false } := by
    rw [Builder.closeRegion, h.inside]
    rfl
  refine ⟨shared, ?_, ?_⟩ <;> rw [same]
  exact Builder.forall_endBlock h.blocks fun _ _ => h.pending

theorem Between.enter (h : Between f done s b) : Between f done { s with products := [] } b :=
  ⟨h.toShared.enter, h.outside, h.blocks⟩

theorem Between.not_fusible (h : Between f f.bindings s b)
    (finished : b.finish (f.body.substitute s.renames) = .ok g) : ¬ g.Fusible := by
  rintro ⟨block, mem, dataflow, done, x, rest, t, split, adds, product, once⟩
  rw [Builder.blocks_of_finish h.outside finished] at mem
  obtain ⟨makes, shared⟩ := h.endBlock block mem dataflow done x rest t split adds product
  have := h.toShared.finish finished makes shared
  omega

/-- Fusion inside of blocks, by kind. -/
def Inside (f : Function) : BlockKind → List Binding → Fusion → Builder → Prop
  | .dataflow => Region f
  | .plain => Between f

theorem invariant_emitter (wellFormed : f.Scoped) :
    (emitter f).Invariant (fun s => { s with products := [] }) f.bindings (Between f)
      (Inside f) where
  step kind := by
    intro done x rest position s b s' b' split h emitted
    cases kind with
    | dataflow => exact region_step wellFormed split h (emission_of_emitter emitted)
    | plain => exact between_step wellFormed split h (emission_of_emitter emitted)
  openRegion := Between.openRegion
  closeRegion h _ := Region.closeRegion h
  openPlain := Between.enter
  sealBlock := Between.sealBlock

end Fusion

/-- What fusion has made has nothing left to fuse. -/
theorem Function.not_fusible_of_fuse {f g : Function} (wellFormed : f.check = .ok ())
    (fused : f.fuse = .ok g) : ¬ g.Fusible := by
  obtain ⟨⟨s, b⟩, emitted, finished⟩ := bind_eq_ok.1 fused
  have start : Fusion.Between f [] {} (.reopen f) := ⟨Fusion.shared_start f, rfl, nofun⟩
  have last := (Fusion.invariant_emitter (scoped_of_check wellFormed)).emitBlocks
    (List.nil_append _).symm start emitted
  exact last.not_fusible (building_eq_ok.1 finished)

end TensorIR
