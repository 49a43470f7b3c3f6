import TensorIR.Proofs.Fusion.Refitting

/-!
# The pairs that are fused

Which products and sums become one operation can be said without a word about how fusion goes about
it: those of `Function.Fuses`. Block by block and binding by binding `Function.FusesTo` then says
what a function has become, given which variable stands in the place of which. A sum of such a pair
is the fused operation; every other binding, the product among them, defines what it did before and
reads what it did, under the new names; and a variable has a new name just if it is that of a fused
sum and its record is not what is inferred of the fused operation.

Every well-formed function that comes out of fusion is of this form (`Function.fuse_pairs`). It need
not have come from a builder. What the builder refuses to take again is then the only thing that is
not known in advance, and it is no matter here.
-/

namespace TensorIR

namespace Function

/-- After the bindings `done` of a dataflow block, the binding defines `s` as the sum of a variable
and `c`. One of `done` defines that variable as the product of `a` and `a'`, and nothing else in the
function reads it. -/
structure Pair (f : Function) (block : Block) (done : List Binding) (x : Binding) (s : Var)
    (a a' c : Expr) : Prop where
  dataflow : block.kind = .dataflow
  pair : ∃ t, (∃ head, x = .define s (.call head [.var t, c]) ∧ head.callee = .op .add) ∧
    (∃ head, .define t (.call head [a, a']) ∈ done ∧ head.callee = .op .multiply) ∧
    (f.bindings.flatMap (fun x => x.value.reads) ++ f.body.reads).count t = 1

/-- The function defines `s` as the sum of `c` and a product of `a` and `a'` that nothing else
reads. -/
def Fuses (f : Function) (s : Var) (a a' c : Expr) : Prop :=
  ∃ block ∈ f.blocks, ∃ done x rest, block.bindings = done ++ x :: rest ∧
    f.Pair block done x s a a' c

/-- The fused operation, in terms of new names for variables. -/
def fma (r : Var → Var) (a a' c : Expr) : Expr :=
  .ofOp .fma [a.rename r, a'.rename r, c.rename r]

/-- What has become of the binding that comes after the bindings `done` of the block. -/
structure FusesBinding (f g : Function) (r : Var → Var) (block : Block) (done : List Binding)
    (x x' : Binding) : Prop where
  fused : ∀ s a a' c, f.Pair block done x s a a' c →
    x' = (Binding.define (r s) (fma r a a' c)).annotated g.vars
  kept : (¬ ∃ s a a' c, f.Pair block done x s a a' c) →
    x' = (x.withValue (x.value.rename r)).annotated g.vars

/-- The block `block'` has a binding for each of `block`, and each is what fusion makes of it after
those before it. -/
structure FusesBlock (f g : Function) (r : Var → Var) (block block' : Block) : Prop where
  kind : block'.kind = block.kind
  length : block'.bindings.length = block.bindings.length
  bindings : ∀ done x rest, block.bindings = done ++ x :: rest →
    ∃ x', block'.bindings[done.length]? = some x' ∧ f.FusesBinding g r block done x x'

/-- `g` is `f` with all pairs fused, and `r` says which variables have taken the place of others. -/
structure FusesTo (f g : Function) (r : Var → Var) : Prop where
  name : g.name = f.name
  params : g.params = f.params
  retTy : g.retTy = f.retTy
  dimNames : g.dimNames = f.dimNames
  body : g.body = f.body.rename r
  blocks : List.Forall₂ (f.FusesBlock g r) f.blocks g.blocks
  /-- Variables of the function from before keep their records. -/
  vars : f.vars <+: g.vars
  /-- Only the variables of fused sums have others in their place. -/
  moved : ∀ s, r s ≠ s → ∃ a a' c, f.Fuses s a a' c
  /-- Those are new, of the same kind and pairwise distinct. -/
  fresh : ∀ s, r s ≠ s → f.vars.length ≤ (r s).index ∧ f.kind? s = g.kind? (r s) ∧
    (g.kind? (r s)).isSome
  apart : ∀ s s', r s ≠ s → r s' ≠ s' → r s = r s' → s = s'
  /-- The variable of a fused sum is kept just if its record is that of the fused operation, which
  is also the record of what takes its place otherwise. -/
  records : ∀ s a a' c, f.Fuses s a a' c → ∃ info, f.vars[s.index]? = some info ∧
    (r s ≠ s ↔ info.shape ≠ (fma r a a' c).inferShape? g.vars ∨
      info.ty ≠ (fma r a a' c).inferTy? g.vars) ∧
    g.vars[(r s).index]? = some { info with
      shape := (fma r a a' c).inferShape? g.vars, ty := (fma r a a' c).inferTy? g.vars }

variable {f g : Function} {before after : List Block} {block : Block} {done rest : List Binding}
  {x : Binding} {s s' : Var} {a a' c : Expr} {operands : List Expr}

theorem rename_fma (r : Var → Var) (a a' c : Expr) :
    (Expr.ofOp .fma [a, a', c]).rename r = fma r a a' c := by
  rw [Expr.ofOp, Expr.rename, Expr.renameAll_eq_map]
  rfl

section WellFormed

variable (wellFormed : f.WellFormed)
include wellFormed

/-- Fusion finds the pairs. -/
theorem pair_iff (splitBlocks : f.blocks = before ++ block :: after)
    (split : block.bindings = done ++ x :: rest) :
    f.Pair block done x s a a' c ↔
      x.defined? = some s ∧ f.fusedOperands? block x = some [a, a', c] := by
  have inFunction : block ∈ f.blocks := by simp [splitBlocks]
  have product {t : Var} {e e' : Expr} : block.product? t = some (e, e') ↔
      ∃ head, .define t (.call head [e, e']) ∈ block.bindings ∧ head.callee = .op .multiply :=
    product?_eq_some wellFormed.toScoped inFunction
  constructor
  · rintro ⟨dataflow, t, ⟨head, is, callee⟩, ⟨head', earlier, callee'⟩, once⟩
    refine ⟨by rw [is]; rfl, fusedOperands?_eq_some.2
      ⟨s, head, t, c, a, a', is, dataflow, callee, ?_, product.2 ⟨head', ?_, callee'⟩, rfl⟩⟩
    · rw [useCount, reads_eq, once]
    · rw [split]
      exact List.mem_append_left _ earlier
  · rintro ⟨defines, isSum⟩
    obtain ⟨v, head, t, c', head', e, e', is, earlier, operands⟩ :=
      product_before wellFormed splitBlocks split isSum
    obtain ⟨v', head₁, t', c₁, e₁, e₁', is', dataflow, callee, once, found, same⟩ :=
      fusedOperands?_eq_some.1 isSum
    cases is.symm.trans is'
    cases operands
    cases same
    cases is ▸ defines
    obtain ⟨head₂, mem, callee'⟩ := product.1 found
    have inBlock : .define t (.call head' [a, a']) ∈ block.bindings := by simp [split, earlier]
    cases wellFormed.toScoped.eq_of_defined (mem_bindings inFunction mem)
      (mem_bindings inFunction inBlock) rfl rfl
    rw [useCount, reads_eq] at once
    exact ⟨dataflow, t, ⟨head, is, callee⟩, ⟨head', earlier, callee'⟩, once⟩

/-- A binding without a pair is kept. -/
theorem no_pair_iff (splitBlocks : f.blocks = before ++ block :: after)
    (split : block.bindings = done ++ x :: rest) :
    (¬ ∃ s a a' c, f.Pair block done x s a a' c) ↔ f.fusedOperands? block x = none := by
  rw [Option.eq_none_iff_forall_ne_some, not_iff_comm]
  simp only [pair_iff wellFormed splitBlocks split]
  constructor
  · intro some
    push Not at some
    obtain ⟨operands, isSum⟩ := some
    obtain ⟨v, head, t, c, a, a', is, -, -, -, -, rfl⟩ := fusedOperands?_eq_some.1 isSum
    exact ⟨v, a, a', c, by rw [is]; rfl, isSum⟩
  · rintro ⟨s, a, a', c, -, isSum⟩ none
    exact none _ isSum

/-- The variables of fused sums are those that are fused in order. -/
theorem fuses_iff : f.Fuses s a a' c ↔ ∃ before block after done x rest,
    f.blocks = before ++ block :: after ∧ block.bindings = done ++ x :: rest ∧
      x.defined? = some s ∧ f.fusedOperands? block x = some [a, a', c] := by
  constructor
  · rintro ⟨block, inFunction, done, x, rest, split, pair⟩
    obtain ⟨before, after, splitBlocks⟩ := List.append_of_mem inFunction
    exact ⟨before, block, after, done, x, rest, splitBlocks, split,
      (pair_iff wellFormed splitBlocks split).1 pair⟩
  · rintro ⟨before, block, after, done, x, rest, splitBlocks, split, isSum⟩
    exact ⟨block, by simp [splitBlocks], done, x, rest, split,
      (pair_iff wellFormed splitBlocks split).2 isSum⟩

theorem exists_fuses (moved : f.fusedVar s ≠ s) : ∃ a a' c, f.Fuses s a a' c := by
  by_contra none
  refine moved (fusedVar_of_not_mem fun mem => none ?_)
  obtain ⟨⟨v, operands⟩, fused, rfl⟩ := List.mem_map.1 mem
  obtain ⟨block, inFunction, fused⟩ := List.mem_flatMap.1 fused
  obtain ⟨x, inBlock, defines, isSum⟩ := mem_fusions_iff.1 fused
  obtain ⟨before, after, splitBlocks⟩ := List.append_of_mem inFunction
  obtain ⟨done, rest, split⟩ := List.append_of_mem inBlock
  obtain ⟨v, head, t, c, a, a', is, -, -, -, -, rfl⟩ := fusedOperands?_eq_some.1 isSum
  exact ⟨a, a', c, (fuses_iff wellFormed).2
    ⟨before, block, after, done, x, rest, splitBlocks, split, defines, isSum⟩⟩

theorem fusesBinding_fused (splitBlocks : f.blocks = before ++ block :: after)
    (split : block.bindings = done ++ x :: rest) :
    f.FusesBinding f.fused f.fusedVar block done x (f.fusedBinding block x) where
  fused s a a' c pair := by
    obtain ⟨defines, isSum⟩ := (pair_iff wellFormed splitBlocks split).1 pair
    obtain ⟨v, head, t, c', e, e', rfl, -⟩ := fusedOperands?_eq_some.1 isSum
    cases defines
    rw [Fusion.fusedBinding_sum rfl isSum, rename_fma]
    rfl
  kept alone := by
    have kept := (no_pair_iff wellFormed splitBlocks split).1 alone
    have own := Fusion.fusedVar_kept wellFormed splitBlocks split kept
    rw [fusedBinding, fusedValue, kept]
    cases x with
    | define v value =>
        rw [Binding.withValue, Binding.rename, own v rfl]
        rfl
    | matchShape v? value pattern =>
        have same : v?.map f.fusedVar = v? := by
          cases v? with
          | none => rfl
          | some v => exact congrArg some (own v rfl)
        rw [Binding.withValue, Binding.rename, same]
        rfl

/-- The variable of a fused sum and what takes its place. -/
theorem records_fused (fuses : f.Fuses s a a' c) : ∃ info, f.vars[s.index]? = some info ∧
    (f.fusedVar s ≠ s ↔ info.shape ≠ (fma f.fusedVar a a' c).inferShape? f.fusedVars ∨
      info.ty ≠ (fma f.fusedVar a a' c).inferTy? f.fusedVars) ∧
    (f.fusedVar s ≠ s → f.vars.length ≤ (f.fusedVar s).index) ∧
    f.fusedVars[(f.fusedVar s).index]? = some { info with
      shape := (fma f.fusedVar a a' c).inferShape? f.fusedVars
      ty := (fma f.fusedVar a a' c).inferTy? f.fusedVars } := by
  obtain ⟨before, block, after, done, x, rest, splitBlocks, split, defines, isSum⟩ :=
    (fuses_iff wellFormed).1 fuses
  obtain ⟨v, head, t, c', e, e', is, -⟩ := fusedOperands?_eq_some.1 isSum
  cases is ▸ defines
  have inFunction : block ∈ f.blocks := by simp [splitBlocks]
  have inBlock : x ∈ block.bindings := by simp [split]
  have allocates := wellFormed.definitions s (mem_defined (mem_bindings inFunction inBlock) defines)
  have recorded := List.getElem?_eq_getElem allocates
  have found : (Fusion.namesAt f before block done).vars[s.index]? = some f.vars[s.index] :=
    ((f.names_for _).recorded allocates).trans recorded
  rw [← rename_fma]
  refine ⟨f.vars[s.index], recorded, ?_⟩
  by_cases same :
    f.vars[s.index].shape = ((Expr.ofOp .fma [a, a', c]).rename f.fusedVar).inferShape? f.fusedVars ∧
    f.vars[s.index].ty = ((Expr.ofOp .fma [a, a', c]).rename f.fusedVar).inferTy? f.fusedVars
  · obtain ⟨-, kept⟩ :=
      Fusion.namesAt_reused wellFormed splitBlocks split is isSum found same.1 same.2
    rw [kept, ← same.1, ← same.2]
    refine ⟨iff_of_false (absurd rfl) ?_, absurd rfl,
      ((f.names_for _).recorded allocates).trans recorded⟩
    simp
  · obtain ⟨names, var⟩ := Fusion.namesAt_renewed wellFormed splitBlocks split is isSum found same
    have grown : f.vars.length ≤ (Fusion.namesAt f before block done).vars.length :=
      (f.names_for _).grown.length_le
    have split' : block.bindings = (done ++ [x]) ++ rest := by rw [split, List.append_cons]
    have last := Fusion.getElem?_fusedVars splitBlocks split'
      (i := (Fusion.namesAt f before block done).vars.length) (by simp [names])
    refine ⟨iff_of_true ?_ (not_and_or.1 same), fun _ => by rw [var]; exact grown, ?_⟩
    · rw [var]
      rintro rfl
      exact absurd allocates (Nat.not_lt.2 grown)
    · rw [var, last, names]
      exact List.getElem?_concat_length

theorem fusesTo_fused : f.FusesTo f.fused f.fusedVar where
  name := rfl
  params := rfl
  retTy := rfl
  dimNames := rfl
  body := rfl
  blocks := by
    refine List.forall₂_map_right_iff.2 (List.forall₂_same.2 fun block inFunction => ?_)
    obtain ⟨before, after, splitBlocks⟩ := List.append_of_mem inFunction
    refine ⟨rfl, List.length_map _, fun done x rest split => ⟨_, ?_,
      fusesBinding_fused wellFormed splitBlocks split⟩⟩
    rw [fusedBlock, List.getElem?_map, split, List.getElem?_append_right (Nat.le_refl _),
      Nat.sub_self]
    rfl
  vars := (f.names_for f.allFusions).grown
  moved _ := exists_fuses wellFormed
  fresh s moved := by
    obtain ⟨a, a', c, fuses⟩ := exists_fuses wellFormed moved
    obtain ⟨info, found, -, new, -⟩ := records_fused wellFormed fuses
    have kind := kind?_fused (f := f) (List.getElem?_eq_some_iff.1 found).1
    refine ⟨new moved, kind.symm, ?_⟩
    rw [kind, isSome_kind?]
    exact (List.getElem?_eq_some_iff.1 found).1
  apart s s' moved moved' same := by
    obtain ⟨_, _, _, fuses⟩ := exists_fuses wellFormed moved
    obtain ⟨_, _, _, fuses'⟩ := exists_fuses wellFormed moved'
    obtain ⟨_, found, -⟩ := records_fused wellFormed fuses
    obtain ⟨_, found', -⟩ := records_fused wellFormed fuses'
    exact (f.names_for f.allFusions).apart s s' (List.getElem?_eq_some_iff.1 found).1
      (List.getElem?_eq_some_iff.1 found').1 same
  records s a a' c fuses := by
    obtain ⟨info, found, moves, -, record⟩ := records_fused wellFormed fuses
    exact ⟨info, found, moves, record⟩

end WellFormed

/-- Fusion fuses the pairs of a well-formed function and nothing else. -/
theorem fuse_pairs (checked : f.check = .ok ()) (fused : f.fuse = .ok g) :
    ∃ r : Var → Var, f.FusesTo g r := by
  obtain rfl := fuse_eq checked fused
  exact ⟨f.fusedVar, fusesTo_fused (wellFormed_of_check checked)⟩

/-- Of the two products only the first is part of a pair, as the second is read twice. The record of
the sum is not that of the fused operation:

    fn main(x, y) {
      dataflow { t = multiply(x, y); s: object = add(t, y); p = multiply(s, x); q = add(p, p) }
      return q
    }
-/
def onePair : Function where
  name := "main"
  params := [⟨0⟩, ⟨1⟩]
  blocks := [⟨.dataflow, [
    .define ⟨2⟩ (.ofOp .multiply [.var ⟨0⟩, .var ⟨1⟩]),
    .define ⟨3⟩ (.ofOp .add [.var ⟨2⟩, .var ⟨1⟩]),
    .define ⟨4⟩ (.ofOp .multiply [.var ⟨3⟩, .var ⟨0⟩]),
    .define ⟨5⟩ (.ofOp .add [.var ⟨4⟩, .var ⟨4⟩])]⟩]
  body := .var ⟨5⟩
  retTy := none
  vars := [⟨"x", .plain, none, none⟩, ⟨"y", .plain, none, none⟩, ⟨"t", .dataflow, none, none⟩,
    ⟨"s", .dataflow, none, some .object⟩, ⟨"p", .dataflow, none, none⟩, ⟨"q", .plain, none, none⟩]
  dimNames := []

/-- What fusion makes of it: the one sum that is fused has a new variable. -/
def onePairFused : Function :=
  { onePair with
    blocks := [⟨.dataflow, [
      .define ⟨2⟩ (.ofOp .multiply [.var ⟨0⟩, .var ⟨1⟩]),
      .define ⟨6⟩ (.ofOp .fma [.var ⟨0⟩, .var ⟨1⟩, .var ⟨1⟩]),
      .define ⟨4⟩ (.ofOp .multiply [.var ⟨6⟩, .var ⟨0⟩]),
      .define ⟨5⟩ (.ofOp .add [.var ⟨4⟩, .var ⟨4⟩])]⟩]
    vars := onePair.vars ++ [⟨"s", .dataflow, none, none⟩] }

theorem fuse_pairs_onePair : onePair.check = .ok () ∧ onePair.fuse = .ok onePairFused ∧
    ∃ r : Var → Var, onePair.FusesTo onePairFused r := by
  have checked : onePair.check = .ok () := by decide +kernel
  have fused : onePair.fuse = .ok onePairFused := by decide +kernel
  exact ⟨checked, fused, fuse_pairs checked fused⟩

end Function

end TensorIR
