import Mathlib.Data.List.Induction
import TensorIR.Proofs.Demoted
import TensorIR.Proofs.Dimensions
import TensorIR.Proofs.Fusion.Normal

/-!
# The fused function

What fusion makes of a function can be written down at once, but for one thing. Which sums are
fused, and with which operands, is a matter of the function from before (`Function.fusedOperands?`).
Which of them get a new variable is not: that depends on what is inferred of the operands, and so on
the new variables of the sums before. `Fusion.Names` goes through the sums in program order and
keeps track of this, and of nothing else. With the renaming that it ends with, the function is
`Function.fused`.

The fused function is well formed if the function from before was. A fused operation reads the
operands of a product, which were visible at the product and still are at the sum, as both are in
one block; and a new variable is of the kind of the old one.
-/

namespace TensorIR

/-- The operands of the product that the binding defines the variable as. -/
def Binding.product? (t : Var) : Binding → Option (Expr × Expr)
  | .define v value => if v = t then Fusion.product? value else none
  | .matchShape .. => none

theorem Binding.product?_eq_some {x : Binding} {t : Var} {a a' : Expr} :
    x.product? t = some (a, a') ↔
      ∃ head, x = .define t (.call head [a, a']) ∧ head.callee = .op .multiply := by
  cases x with
  | matchShape _ _ _ =>
      refine ⟨nofun, ?_⟩
      rintro ⟨_, is, _⟩
      cases is
  | define v value =>
      rw [product?]
      constructor
      · intro h
        split at h
        · next same =>
            obtain ⟨head, rfl, callee⟩ := Fusion.product?_eq_some.1 h
            exact ⟨head, same ▸ rfl, callee⟩
        · cases h
      · rintro ⟨head, is, callee⟩
        cases is
        rw [if_pos rfl]
        exact Fusion.product?_eq_some.2 ⟨head, rfl, callee⟩

theorem Binding.product?_eq_none {x : Binding} {t : Var} (other : ¬ x.IsProduct t) :
    x.product? t = none := by
  refine Option.eq_none_iff_forall_ne_some.2 fun operands found => other ?_
  obtain ⟨head, is, callee⟩ := product?_eq_some.1 found
  exact ⟨head, _, _, is, callee⟩

theorem Fusion.product?_rename (r : Var → Var) (e : Expr) : product? (e.rename r) =
    (product? e).map (Prod.map (Expr.rename r) (Expr.rename r)) := by
  refine Option.ext fun operands => ?_
  obtain ⟨a, a'⟩ := operands
  rw [product?_eq_some, Option.map_eq_some_iff]
  constructor
  · rintro ⟨head, same, callee⟩
    obtain ⟨args, rfl, parts⟩ := Expr.rename_eq_call same
    obtain ⟨e, tail, rfl, rfl, others⟩ := List.map_eq_cons_iff.1 parts
    obtain ⟨e', nothing, rfl, rfl, none⟩ := List.map_eq_cons_iff.1 others
    cases List.map_eq_nil_iff.1 none
    exact ⟨(e, e'), product?_eq_some.2 ⟨head, rfl, callee⟩, rfl⟩
  · rintro ⟨⟨e, e'⟩, found, same⟩
    obtain ⟨head, rfl, callee⟩ := product?_eq_some.1 found
    cases same
    refine ⟨head, ?_, callee⟩
    rw [Expr.rename, Expr.renameAll_eq_map]
    rfl

/-- The operands of the product that the block defines the variable as. -/
def Block.product? (block : Block) (t : Var) : Option (Expr × Expr) :=
  block.bindings.findSome? (Binding.product? t)

namespace Function

/-- The operands of the fused operation that takes the place of a sum in the block: those of the
product that it adds to, and the other summand. The product has no other reader. -/
def fusedOperands? (f : Function) (block : Block) : Binding → Option (List Expr)
  | .define _ (.call head [.var t, c]) =>
    if block.kind = .dataflow ∧ head.callee = .op .add ∧ f.useCount t = 1 then
      (block.product? t).map fun (a, a') => [a, a', c]
    else none
  | .define .. | .matchShape .. => none

/-- The sums among some bindings of the block that are fused, each as its variable and the operands
of the fused operation. -/
def fusions (f : Function) (block : Block) (xs : List Binding) : List (Var × List Expr) :=
  xs.filterMap fun x => x.defined?.bind fun v => (f.fusedOperands? block x).map fun es => (v, es)

/-- The sums of a function that are fused, in program order. -/
def allFusions (f : Function) : List (Var × List Expr) :=
  f.blocks.flatMap fun block => f.fusions block block.bindings

end Function

/-- The variables of a function when some sums have been fused: which have been renamed to new ones,
and what is recorded of all. -/
structure Fusion.Names where
  renames : Renaming
  vars : List VarInfo

namespace Fusion.Names

/-- What would be recorded of the variable of a sum if it were that of the fused operation. -/
def fusedInfo (p : Names) (v : Var) (operands : List Expr) : VarInfo :=
  let value := (Expr.ofOp .fma operands).substitute p.renames
  { p.vars.getD v.index ⟨"", .plain, none, none⟩ with
    shape := value.inferShape? p.vars, ty := value.inferTy? p.vars }

/-- Fuses one more sum. Its variable is kept if its record is the one of the fused operation. -/
def next (p : Names) (sum : Var × List Expr) : Names :=
  if p.vars[sum.1.index]? = some (p.fusedInfo sum.1 sum.2) then p
  else
    { renames := (sum.1, ⟨p.vars.length⟩) :: p.renames
      vars := p.vars ++ [p.fusedInfo sum.1 sum.2] }

end Fusion.Names

namespace Function

/-- The variables when the sums have been fused in order. -/
def namesAfter (f : Function) (sums : List (Var × List Expr)) : Fusion.Names :=
  sums.foldl Fusion.Names.next ⟨[], f.vars⟩

/-- The variable that fusion puts in the place of another. -/
def fusedVar (f : Function) : Var → Var := (f.namesAfter f.allFusions).renames.apply

/-- What is recorded of the variables of the fused function. -/
def fusedVars (f : Function) : List VarInfo := (f.namesAfter f.allFusions).vars

/-- What a binding computes after fusion, in terms of the variables from before. -/
def fusedValue (f : Function) (block : Block) (x : Binding) : Expr :=
  ((f.fusedOperands? block x).map (Expr.ofOp .fma)).getD x.value

/-- The bindings of the function with fused operations in the place of sums, under their old names
and in terms of the variables from before. -/
def fusedForms (f : Function) : List Binding :=
  f.blocks.flatMap fun block => block.bindings.map fun x => x.withValue (f.fusedValue block x)

/-- What fusion makes of a binding of the block. -/
def fusedBinding (f : Function) (block : Block) (x : Binding) : Binding :=
  ((x.withValue (f.fusedValue block x)).rename f.fusedVar).annotated f.fusedVars

/-- What fusion makes of a block: bindings one for one, in a block of the same kind. -/
def fusedBlock (f : Function) (block : Block) : Block :=
  ⟨block.kind, block.bindings.map (f.fusedBinding block)⟩

/-- What fusion makes of a function. -/
def fused (f : Function) : Function :=
  { f with
    blocks := f.blocks.map f.fusedBlock
    body := f.body.rename f.fusedVar
    vars := f.fusedVars }

variable {f : Function} {before after : List Block} {block : Block} {done rest : List Binding}
  {x y : Binding} {t u v : Var} {a a' : Expr} {operands : List Expr} {sums : List (Var × List Expr)}

/-! ### Products and sums -/

theorem fusedOperands?_eq_some : f.fusedOperands? block x = some operands ↔
    ∃ v head t c a a', x = .define v (.call head [.var t, c]) ∧ block.kind = .dataflow ∧
      head.callee = .op .add ∧ f.useCount t = 1 ∧ block.product? t = some (a, a') ∧
      operands = [a, a', c] := by
  constructor
  · intro h
    unfold fusedOperands? at h
    split at h
    · next v head t c =>
        split at h
        · next isSum =>
            obtain ⟨⟨a, a'⟩, found, same⟩ := Option.map_eq_some_iff.1 h
            exact ⟨v, head, t, c, a, a', rfl, isSum.1, isSum.2.1, isSum.2.2, found, same.symm⟩
        · cases h
    · cases h
    · cases h
  · rintro ⟨v, head, t, c, a, a', rfl, dataflow, callee, once, found, rfl⟩
    rw [fusedOperands?, if_pos ⟨dataflow, callee, once⟩, found]
    rfl

/-- What a block defines as a product is the product that is found. -/
theorem product?_eq_some (wellFormed : f.Scoped) (inFunction : block ∈ f.blocks) :
    block.product? t = some (a, a') ↔
      ∃ head, .define t (.call head [a, a']) ∈ block.bindings ∧ head.callee = .op .multiply := by
  have found {a a' : Expr} (h : block.product? t = some (a, a')) :
      ∃ head, .define t (.call head [a, a']) ∈ block.bindings ∧ head.callee = .op .multiply := by
    obtain ⟨y, mem, isProduct⟩ := List.exists_of_findSome?_eq_some h
    obtain ⟨head, rfl, callee⟩ := Binding.product?_eq_some.1 isProduct
    exact ⟨head, mem, callee⟩
  refine ⟨found, ?_⟩
  rintro ⟨head, mem, callee⟩
  have some : (block.product? t).isSome := by
    rw [Block.product?, List.findSome?_isSome_iff]
    exact ⟨_, mem, by rw [Binding.product?_eq_some.2 ⟨head, rfl, callee⟩]; rfl⟩
  obtain ⟨⟨e, e'⟩, other⟩ := Option.isSome_iff_exists.1 some
  obtain ⟨head', mem', -⟩ := found other
  cases wellFormed.eq_of_defined (mem_bindings inFunction mem) (mem_bindings inFunction mem')
    rfl rfl
  exact other

theorem mem_fusions_iff {xs : List Binding} : (v, operands) ∈ f.fusions block xs ↔
    ∃ x ∈ xs, x.defined? = some v ∧ f.fusedOperands? block x = some operands := by
  rw [fusions, List.mem_filterMap]
  refine exists_congr fun x => and_congr_right fun _ => ?_
  rw [Option.bind_eq_some_iff]
  constructor
  · rintro ⟨w, defines, isSum⟩
    obtain ⟨es, found, same⟩ := Option.map_eq_some_iff.1 isSum
    cases same
    exact ⟨defines, found⟩
  · rintro ⟨defines, found⟩
    exact ⟨v, defines, by rw [found]; rfl⟩

theorem fusions_append (f : Function) (block : Block) (xs ys : List Binding) :
    f.fusions block (xs ++ ys) = f.fusions block xs ++ f.fusions block ys :=
  List.filterMap_append

/-- Each fused sum is the definition of its variable. -/
theorem defined_of_fusions {xs : List Binding} (mem : v ∈ (f.fusions block xs).map Prod.fst) :
    v ∈ xs.filterMap Binding.defined? := by
  obtain ⟨⟨u, operands⟩, fused, rfl⟩ := List.mem_map.1 mem
  obtain ⟨x, here, defines, -⟩ := mem_fusions_iff.1 fused
  exact List.mem_filterMap.2 ⟨x, here, defines⟩

theorem defined_of_blockFusions {blocks : List Block}
    (mem : v ∈ (blocks.flatMap fun block => f.fusions block block.bindings).map Prod.fst) :
    v ∈ (blocks.flatMap Block.bindings).filterMap Binding.defined? := by
  rw [List.map_flatMap] at mem
  obtain ⟨block, inBlocks, mem⟩ := List.mem_flatMap.1 mem
  rw [List.filterMap_flatMap]
  exact List.mem_flatMap.2 ⟨block, inBlocks, defined_of_fusions mem⟩

/-- Sums are fused in dataflow blocks only. -/
theorem dataflow_of_sum (isSum : f.fusedOperands? block x = some operands) :
    block.kind = .dataflow := by
  obtain ⟨_, _, _, _, _, _, -, kind, -⟩ := fusedOperands?_eq_some.1 isSum
  exact kind

/-- A product is no sum. -/
theorem fusedOperands?_of_isProduct (product : x.IsProduct t) :
    f.fusedOperands? block x = none := by
  rw [← Option.not_isSome_iff_eq_none, Option.isSome_iff_exists]
  rintro ⟨operands, isSum⟩
  obtain ⟨v, head, u, c, a, a', rfl, -, callee, -⟩ := fusedOperands?_eq_some.1 isSum
  exact product.not_addsTo ⟨v, head, c, rfl, callee⟩

section WellFormed

variable (wellFormed : f.WellFormed)
include wellFormed

/-- Which sums are fused is a matter of the bindings that define them. -/
theorem mem_allFusions_iff (inFunction : block ∈ f.blocks) (inBlock : x ∈ block.bindings)
    (defines : v ∈ x.defined?) :
    (v, operands) ∈ f.allFusions ↔ f.fusedOperands? block x = some operands := by
  rw [allFusions, List.mem_flatMap]
  constructor
  · rintro ⟨other, there, mem⟩
    obtain ⟨y, inOther, definesToo, isSum⟩ := mem_fusions_iff.1 mem
    cases wellFormed.toScoped.eq_of_defined (mem_bindings inFunction inBlock)
      (mem_bindings there inOther) defines definesToo
    rwa [wellFormed.eq_of_defined_block inFunction there
      (List.mem_filterMap.2 ⟨x, inBlock, defines⟩) (List.mem_filterMap.2 ⟨x, inOther, defines⟩)]
  · exact fun isSum => ⟨block, inFunction, mem_fusions_iff.2 ⟨x, inBlock, defines, isSum⟩⟩

/-- What is defined before a place in a block is not defined after it. -/
theorem not_defined_later (splitBlocks : f.blocks = before ++ block :: after)
    (split : block.bindings = done ++ rest)
    (defined : v ∈ f.params ++ (before.flatMap Block.bindings ++ done).filterMap Binding.defined?)
    (later : y ∈ rest) : v ∉ y.defined? := by
  intro defines
  obtain ⟨mid, last, rfl⟩ := List.append_of_mem later
  rw [← List.append_assoc] at split
  obtain ⟨notParam, new⟩ :=
    not_defined_before wellFormed.toScoped (bindings_of_split splitBlocks split) defines
  refine (List.mem_append.1 defined).elim notParam fun bound => new ?_
  rw [← List.append_assoc, List.filterMap_append]
  exact List.mem_append_left _ bound

/-- The product that a fused sum adds to comes before it in the block. -/
theorem product_before (splitBlocks : f.blocks = before ++ block :: after)
    (split : block.bindings = done ++ x :: rest)
    (isSum : f.fusedOperands? block x = some operands) :
    ∃ v head t c head' a a', x = .define v (.call head [.var t, c]) ∧
      .define t (.call head' [a, a']) ∈ done ∧ operands = [a, a', c] := by
  have inFunction : block ∈ f.blocks := by simp [splitBlocks]
  obtain ⟨v, head, t, c, a, a', rfl, -, -, -, found, rfl⟩ := fusedOperands?_eq_some.1 isSum
  obtain ⟨head', inBlock, -⟩ := (product?_eq_some wellFormed.toScoped inFunction).1 found
  have visible := wellFormed.inScope before block after done _ rest splitBlocks split t
    (by simp [Binding.value, Expr.reads, Expr.readsAll])
  rw [split] at inBlock
  have earlier := (List.mem_append.1 inBlock).resolve_right fun later =>
    not_defined_later wellFormed splitBlocks split visible.defined later rfl
  exact ⟨v, head, t, c, head', a, a', rfl, earlier, rfl⟩

end WellFormed

end Function

/-! ### Names -/

namespace Fusion.Names

variable {f : Function} {p : Names} {sum : Var × List Expr} {v : Var}

theorem vars_next (p : Names) (sum : Var × List Expr) : p.vars <+: (p.next sum).vars := by
  rw [next]
  split
  · exact List.prefix_rfl
  · exact List.prefix_append _ _

theorem apply_next (other : v ≠ sum.1) : (p.next sum).renames.apply v = p.renames.apply v := by
  rw [next]
  split
  · rfl
  · rw [Renaming.apply_cons, if_neg other]

/-- The variables are those of the function, some of which have been renamed to new ones of the same
kind. -/
structure For (p : Names) (f : Function) : Prop where
  grown : f.vars <+: p.vars
  kinds : ∀ v, f.Allocates v → p.vars[(p.renames.apply v).index]?.map VarInfo.kind = f.kind? v
  apart : ∀ v w, f.Allocates v → f.Allocates w → p.renames.apply v = p.renames.apply w → v = w

namespace For

theorem recorded (h : p.For f) (allocates : f.Allocates v) :
    p.vars[v.index]? = f.vars[v.index]? := by
  obtain ⟨more, vars⟩ := h.grown
  rw [← vars]
  exact getElem?_grown allocates

theorem allocated (h : p.For f) (allocates : f.Allocates v) :
    (p.renames.apply v).index < p.vars.length := by
  have found := Function.isSome_kind?.2 allocates
  rw [← h.kinds v allocates, Option.isSome_map] at found
  simpa using found

theorem next (h : p.For f) (sum : Var × List Expr) : (p.next sum).For f := by
  have grown := h.grown.trans (vars_next p sum)
  rw [Names.next] at grown ⊢
  split at grown
  · next same =>
      rw [if_pos same]
      exact h
  · next differ =>
      rw [if_neg differ]
      have new {v : Var} (allocates : f.Allocates v) :
          p.renames.apply v ≠ ⟨p.vars.length⟩ := by
        intro same
        have old := h.allocated allocates
        rw [same] at old
        exact Nat.lt_irrefl _ old
      refine ⟨grown, fun v allocates => ?_, fun v w hv hw same => ?_⟩
      · rw [Renaming.apply_cons]
        split
        · next is =>
            rw [List.getElem?_concat_length, fusedInfo, ← is, List.getD_eq_getElem?_getD,
              h.recorded allocates, Function.kind?, List.getElem?_eq_getElem allocates]
            rfl
        · rw [getElem?_grown (h.allocated allocates)]
          exact h.kinds v allocates
      · rw [Renaming.apply_cons, Renaming.apply_cons] at same
        split at same <;> split at same
        · next isV isW => rw [isV, isW]
        · exact absurd same.symm (new hw)
        · exact absurd same (new hv)
        · exact h.apart v w hv hw same

end For

/-- No dimension variables are recorded but those that have a name. -/
def Named (p : Names) (f : Function) : Prop :=
  ∀ info ∈ p.vars, ∀ d ∈ (info.shape.getD []).vars, d.index < f.dimNames.length

theorem Named.next (h : p.Named f)
    (operands : ∀ e ∈ sum.2, ∀ d ∈ e.dimVars, d.index < f.dimNames.length) :
    (p.next sum).Named f := by
  rw [Names.next]
  split
  · exact h
  · refine List.forall_mem_append.2 ⟨h, List.forall_mem_singleton.2 ?_⟩
    refine Expr.named_inferShape? h ?_
    rw [Expr.substitute, Expr.dimVars_rename, Expr.ofOp, Expr.dimVars,
      Expr.dimVarsAll_eq_flatMap]
    intro d mem
    obtain ⟨e, operand, named⟩ := List.mem_flatMap.1 mem
    exact operands e operand d named

end Fusion.Names

namespace Function

variable {f : Function} {before after : List Block} {block : Block} {done rest : List Binding}
  {x : Binding} {t v w : Var} {operands : List Expr} {sums later : List (Var × List Expr)}

theorem namesAfter_concat (f : Function) (sums : List (Var × List Expr)) (sum : Var × List Expr) :
    f.namesAfter (sums ++ [sum]) = (f.namesAfter sums).next sum :=
  List.foldl_append

theorem names_for (f : Function) (sums : List (Var × List Expr)) : (f.namesAfter sums).For f := by
  induction sums using List.reverseRecOn with
  | nil => exact ⟨List.prefix_rfl, fun v _ => rfl, fun v w _ _ => id⟩
  | append_singleton sums sum ih =>
      rw [namesAfter_concat]
      exact ih.next sum

theorem named_names (annotations : Fusion.Names.Named ⟨[], f.vars⟩ f)
    (operands : ∀ sum ∈ sums, ∀ e ∈ sum.2, ∀ d ∈ e.dimVars, d.index < f.dimNames.length) :
    (f.namesAfter sums).Named f := by
  induction sums using List.reverseRecOn with
  | nil => exact annotations
  | append_singleton sums sum ih =>
      obtain ⟨earlier, last⟩ := List.forall_mem_append.1 operands
      rw [namesAfter_concat]
      exact (ih earlier).next (List.forall_mem_singleton.1 last)

/-- Variables are never taken away. -/
theorem vars_namesAfter_append (f : Function) (sums later : List (Var × List Expr)) :
    (f.namesAfter sums).vars <+: (f.namesAfter (sums ++ later)).vars := by
  induction later using List.reverseRecOn with
  | nil => simp
  | append_singleton later sum ih =>
      rw [← List.append_assoc, namesAfter_concat]
      exact ih.trans (Fusion.Names.vars_next _ _)

/-- What is not the variable of a later sum is not renamed later. -/
theorem apply_namesAfter_append (sums : List (Var × List Expr)) (other : v ∉ later.map Prod.fst) :
    (f.namesAfter (sums ++ later)).renames.apply v = (f.namesAfter sums).renames.apply v := by
  induction later using List.reverseRecOn with
  | nil => rw [List.append_nil]
  | append_singleton later sum ih =>
      rw [List.map_append, List.mem_append, not_or] at other
      have notLast : v ≠ sum.1 := fun same => other.2 (by simp [same])
      rw [← List.append_assoc, namesAfter_concat, Fusion.Names.apply_next notLast, ih other.1]

theorem fusedVar_of_not_mem (other : v ∉ f.allFusions.map Prod.fst) : f.fusedVar v = v :=
  apply_namesAfter_append [] other

/-! ### The fused function is well formed -/

theorem defined?_fusedBinding (f : Function) (block : Block) (x : Binding) :
    (f.fusedBinding block x).defined? = x.defined?.map f.fusedVar := by
  cases x <;> rfl

theorem pattern?_fusedBinding (f : Function) (block : Block) (x : Binding) :
    (f.fusedBinding block x).pattern? = x.pattern? := by
  cases x <;> rfl

theorem value_fusedBinding (f : Function) (block : Block) (x : Binding) :
    (f.fusedBinding block x).value =
      ((f.fusedValue block x).rename f.fusedVar).annotate f.fusedVars := by
  cases x <;> rfl

theorem reads_fusedBinding (f : Function) (block : Block) (x : Binding) :
    (f.fusedBinding block x).value.reads = (f.fusedValue block x).reads.map f.fusedVar := by
  rw [value_fusedBinding, Expr.reads_annotate, Expr.reads_rename]

theorem kind?_fused (allocates : f.Allocates v) : f.fused.kind? (f.fusedVar v) = f.kind? v :=
  (f.names_for f.allFusions).kinds v allocates

section WellFormed

variable (wellFormed : f.WellFormed)
include wellFormed

/-- A variable that is not that of a fused sum is kept. -/
theorem fusedVar_of_not_fused (inFunction : block ∈ f.blocks) (inBlock : x ∈ block.bindings)
    (defines : v ∈ x.defined?) (kept : f.fusedOperands? block x = none) : f.fusedVar v = v := by
  refine fusedVar_of_not_mem fun mem => ?_
  obtain ⟨⟨u, operands⟩, fused, rfl⟩ := List.mem_map.1 mem
  rw [mem_allFusions_iff wellFormed inFunction inBlock defines, kept] at fused
  cases fused

theorem fusedVar_param (param : v ∈ f.params) : f.fusedVar v = v := by
  have distinct := wellFormed.nodup
  refine fusedVar_of_not_mem fun mem => ?_
  exact (List.nodup_append.1 distinct).2.2 v param v (defined_of_blockFusions mem) rfl

/-- What the fused value reads was visible at the sum, or at its product and so at the sum too. -/
theorem inScope_fusedValue (splitBlocks : f.blocks = before ++ block :: after)
    (split : block.bindings = done ++ x :: rest) :
    ∀ v ∈ (f.fusedValue block x).reads, f.InScope before done v := by
  rw [fusedValue]
  have visible := wellFormed.inScope before block after done x rest splitBlocks split
  cases isSum : f.fusedOperands? block x with
  | none => exact visible
  | some operands =>
      obtain ⟨v, head, t, c, head', a, a', rfl, product, rfl⟩ :=
        product_before wellFormed splitBlocks split isSum
      obtain ⟨first, last, rfl⟩ := List.append_of_mem product
      have atProduct := wellFormed.inScope before block after first _ _ splitBlocks
        (split.trans (List.append_assoc _ _ _))
      intro u read
      simp only [Option.map_some, Option.getD_some, Expr.ofOp, Expr.reads, Expr.readsAll,
        List.mem_append, List.append_nil] at read
      rcases read with left | right | summand
      · exact (atProduct u (by simp [Binding.value, Expr.reads, Expr.readsAll, left])).later _
      · exact (atProduct u (by simp [Binding.value, Expr.reads, Expr.readsAll, right])).later _
      · exact visible u (by simp [Binding.value, Expr.reads, Expr.readsAll, summand])

theorem named_operands (inFunction : block ∈ f.blocks) (inBlock : x ∈ block.bindings)
    (isSum : f.fusedOperands? block x = some operands) :
    ∀ e ∈ operands, ∀ d ∈ e.dimVars, d.index < f.dimNames.length := by
  obtain ⟨v, head, t, c, a, a', rfl, -, -, -, found, rfl⟩ := fusedOperands?_eq_some.1 isSum
  obtain ⟨head', product, -⟩ := (product?_eq_some wellFormed.toScoped inFunction).1 found
  have inSum := wellFormed.shapes _ (mem_bindings inFunction inBlock)
  have inProduct := wellFormed.shapes _ (mem_bindings inFunction product)
  simp only [Binding.value, Expr.dimVars, Expr.dimVarsAll, List.append_nil,
    List.forall_mem_append] at inSum inProduct
  refine List.forall_mem_cons.2 ⟨inProduct.2.1, List.forall_mem_cons.2 ⟨inProduct.2.2, ?_⟩⟩
  exact List.forall_mem_singleton.2 inSum.2.2

theorem named_fusedVars :
    ∀ info ∈ f.fusedVars, ∀ d ∈ (info.shape.getD []).vars, d.index < f.dimNames.length := by
  refine named_names wellFormed.annotations ?_
  rintro ⟨v, operands⟩ mem
  obtain ⟨block, inFunction, mem⟩ := List.mem_flatMap.1 mem
  obtain ⟨x, inBlock, -, isSum⟩ := mem_fusions_iff.1 mem
  exact named_operands wellFormed inFunction inBlock isSum

theorem named_fusedBinding (inFunction : block ∈ f.blocks) (inBlock : x ∈ block.bindings) :
    ∀ d ∈ (f.fusedBinding block x).value.dimVars, d.index < f.dimNames.length := by
  rw [value_fusedBinding]
  refine Expr.named_annotate (named_fusedVars wellFormed) ?_
  rw [Expr.dimVars_rename, fusedValue]
  cases isSum : f.fusedOperands? block x with
  | none => exact wellFormed.shapes x (mem_bindings inFunction inBlock)
  | some operands =>
      have named := named_operands wellFormed inFunction inBlock isSum
      intro d mem
      rw [Option.map_some, Option.getD_some, Expr.ofOp, Expr.dimVars,
        Expr.dimVarsAll_eq_flatMap] at mem
      obtain ⟨e, operand, named'⟩ := List.mem_flatMap.1 mem
      exact named e operand d named'

theorem rewrites_fused : f.Rewrites f.fused f.fusedVar f.fusedBlock f.fusedBinding where
  params := rfl
  ofParams _ := fusedVar_param wellFormed
  blocks := rfl
  body := rfl
  dimNames := rfl
  bindings _ := rfl
  defines := defined?_fusedBinding f
  patterns := pattern?_fusedBinding f
  apart v hv w hw := (f.names_for f.allFusions).apart v w (wellFormed.definitions v hv)
    (wellFormed.definitions w hw)
  kinds v mem := .inr (kind?_fused (wellFormed.definitions v mem))
  plainBlocks block mem plain v here := by
    rw [kind?_fused (wellFormed.definitions v (defined_of_block mem here))]
    exact wellFormed.plainBlocks block mem plain v here
  reads before block after done x rest splitBlocks split := by
    rw [reads_fusedBinding, List.forall_mem_map]
    exact fun v read => ⟨v, inScope_fusedValue wellFormed splitBlocks split v read, rfl⟩
  annotations := named_fusedVars wellFormed
  shapes _ inFunction _ inBlock := named_fusedBinding wellFormed inFunction inBlock

theorem WellFormed.fused : f.fused.WellFormed :=
  (rewrites_fused wellFormed).wellFormed wellFormed

end WellFormed

end Function

end TensorIR
