import Mathlib.Data.List.Flatten
import Mathlib.Data.List.Nodup
import Mathlib.Data.List.Pairwise
import TensorIR.Proofs.Rewriting

/-!
# The demoted function

All that demotion does to a function comes to one renaming, which can be written down at once
(`Function.demotedVar`): the variables that dataflow blocks define get the positions after all
others, in program order, with the records they had, made plain (`Function.demoted`).

A demoted function is well formed if the function from before was, and none of it has to be checked
again. Whatever was visible at a place still is, since a plain variable is visible wherever one of a
region was; no two variables become one, since the new positions are past all old ones.
-/

namespace TensorIR

/-- The variables that the block defines, in order. -/
def Block.defined (block : Block) : List Var := block.bindings.filterMap Binding.defined?

/-- The variables that dataflow blocks define, outputs included, in program order. -/
def regionVars (blocks : List Block) : List Var :=
  (blocks.filter Block.isDataflow).flatMap Block.defined

theorem mem_regionVars {blocks : List Block} {v : Var} :
    v ∈ regionVars blocks ↔ ∃ block ∈ blocks, block.kind = .dataflow ∧ v ∈ block.defined := by
  simp [regionVars, Block.isDataflow, and_assoc]

theorem regionVars_sublist (blocks : List Block) :
    (regionVars blocks).Sublist (blocks.flatMap Block.defined) :=
  List.filter_sublist.flatMap Block.defined

theorem regionVars_append (xs ys : List Block) :
    regionVars (xs ++ ys) = regionVars xs ++ regionVars ys := by
  rw [regionVars, List.filter_append, List.flatMap_append]
  rfl

theorem regionVars_bindings (kind : BlockKind) (xs ys : List Binding) :
    regionVars [⟨kind, xs ++ ys⟩] = regionVars [⟨kind, xs⟩] ++ regionVars [⟨kind, ys⟩] := by
  cases kind <;> simp [regionVars, Block.isDataflow, Block.defined]

theorem regionVars_empty (before : List Block) (kind : BlockKind) :
    regionVars (before ++ [⟨kind, []⟩]) = regionVars before := by
  rw [regionVars_append]
  cases kind <;> exact List.append_nil _

namespace Function

/-- The variable that demotion puts in the place of another. -/
def demotedVar (f : Function) (v : Var) : Var :=
  if v ∈ regionVars f.blocks then ⟨f.vars.length + (regionVars f.blocks).idxOf v⟩ else v

/-- What is recorded of the variable, made plain. -/
def demotedInfo (f : Function) (v : Var) : VarInfo :=
  { f.vars.getD v.index ⟨"", .plain, none, none⟩ with kind := .plain }

/-- What demotion makes of a block: a plain one with the variables renamed. -/
def demotedBlock (f : Function) (block : Block) : Block :=
  ⟨.plain, block.bindings.map (Binding.rename f.demotedVar)⟩

/-- What demotion makes of a function. -/
def demoted (f : Function) : Function :=
  { f with
    blocks := f.blocks.map f.demotedBlock
    body := f.body.rename f.demotedVar
    vars := f.vars ++ (regionVars f.blocks).map f.demotedInfo }

variable {f : Function} {block : Block} {v w : Var}

/-! ### What regions define -/

theorem defined_eq (f : Function) : f.defined = f.params ++ f.blocks.flatMap Block.defined := by
  rw [defined, bindings, List.filterMap_flatMap]
  rfl

theorem defined_of_block (inFunction : block ∈ f.blocks) (here : v ∈ block.defined) :
    v ∈ f.defined := by
  rw [defined_eq]
  exact List.mem_append_right _ (List.mem_flatMap.2 ⟨block, inFunction, here⟩)

theorem defined_of_region (region : v ∈ regionVars f.blocks) : v ∈ f.defined := by
  obtain ⟨block, inFunction, -, here⟩ := mem_regionVars.1 region
  exact defined_of_block inFunction here

namespace WellFormed

variable (wellFormed : f.WellFormed)
include wellFormed

theorem nodup_blocks : (f.blocks.flatMap Block.defined).Nodup := by
  have distinct := wellFormed.nodup
  rw [defined_eq] at distinct
  exact (List.nodup_append.1 distinct).2.1

theorem nodup_regionVars : (regionVars f.blocks).Nodup :=
  wellFormed.nodup_blocks.sublist (regionVars_sublist f.blocks)

theorem param_not_region (param : v ∈ f.params) : v ∉ regionVars f.blocks := by
  intro region
  have distinct := wellFormed.nodup
  rw [defined_eq] at distinct
  exact (List.nodup_append.1 distinct).2.2 v param v ((regionVars_sublist _).subset region) rfl

/-- A variable is defined in one block only. -/
theorem eq_of_defined_block {other : Block} (mem : block ∈ f.blocks) (inFunction : other ∈ f.blocks)
    (here : v ∈ block.defined) (there : v ∈ other.defined) : block = other := by
  by_contra differ
  have apart := (List.nodup_flatMap.1 wellFormed.nodup_blocks).2
  have : Std.Symm (Function.onFun List.Disjoint Block.defined) :=
    ⟨fun _ _ apart _ here there => apart there here⟩
  exact apart.forall mem inFunction differ here there

/-- A variable of a plain block is not one of a dataflow block too. -/
theorem plain_not_region (mem : block ∈ f.blocks) (plain : block.kind = .plain)
    (defines : v ∈ block.defined) : v ∉ regionVars f.blocks := by
  intro region
  obtain ⟨other, inFunction, dataflow, here⟩ := mem_regionVars.1 region
  rw [wellFormed.eq_of_defined_block mem inFunction defines here, dataflow] at plain
  cases plain

/-- Outside of dataflow blocks all variables are plain. -/
theorem plain_of_not_region (defined : v ∈ f.defined) (outside : v ∉ regionVars f.blocks) :
    f.kind? v = some .plain := by
  rw [defined_eq] at defined
  cases List.mem_append.1 defined with
  | inl param => exact wellFormed.params v param
  | inr bound =>
      obtain ⟨block, mem, here⟩ := List.mem_flatMap.1 bound
      cases kind : block.kind with
      | plain => exact wellFormed.plainBlocks block mem kind v here
      | dataflow => exact absurd (mem_regionVars.2 ⟨block, mem, kind, here⟩) outside

end WellFormed

/-! ### The renaming -/

theorem demotedVar_of_region (region : v ∈ regionVars f.blocks) :
    f.demotedVar v = ⟨f.vars.length + (regionVars f.blocks).idxOf v⟩ := if_pos region

theorem demotedVar_of_not_region (outside : v ∉ regionVars f.blocks) : f.demotedVar v = v :=
  if_neg outside

theorem demotedVar_inj (hv : f.Allocates v) (hw : f.Allocates w)
    (same : f.demotedVar v = f.demotedVar w) : v = w := by
  rw [Allocates] at hv hw
  by_cases region : v ∈ regionVars f.blocks <;> by_cases region' : w ∈ regionVars f.blocks
  · rw [demotedVar_of_region region, demotedVar_of_region region'] at same
    have index : (regionVars f.blocks).idxOf v = (regionVars f.blocks).idxOf w := by
      simpa using same
    exact (List.idxOf_inj region).1 index
  · rw [demotedVar_of_region region, demotedVar_of_not_region region'] at same
    simp only [← same] at hw
    omega
  · rw [demotedVar_of_not_region region, demotedVar_of_region region'] at same
    simp only [same] at hv
    omega
  · rwa [demotedVar_of_not_region region, demotedVar_of_not_region region'] at same

/-- A variable of which the new one has been allocated, or which needs no new one, is recorded as it
was, but as a plain variable. -/
theorem record_demotedVar (wellFormed : f.WellFormed) {old rest : List Var}
    (split : regionVars f.blocks = old ++ rest) (defined : v ∈ f.defined)
    (ready : v ∈ regionVars f.blocks → v ∈ old) :
    ∃ info, f.vars[v.index]? = some info ∧
      (f.vars ++ old.map f.demotedInfo)[(f.demotedVar v).index]? =
        some { info with kind := .plain } := by
  have allocated := wellFormed.definitions v defined
  have found := List.getElem?_eq_getElem allocated
  refine ⟨_, found, ?_⟩
  by_cases region : v ∈ regionVars f.blocks
  · have mem := ready region
    rw [demotedVar_of_region region, split, List.idxOf_append_of_mem mem,
      List.getElem?_append_right (Nat.le_add_right _ _)]
    simp [List.getElem?_idxOf mem, demotedInfo, found]
  · have plain := wellFormed.plain_of_not_region defined region
    rw [kind?, found] at plain
    rw [demotedVar_of_not_region region, List.getElem?_append_left allocated, found,
      Option.some_inj, ← Option.some.inj plain]

/-! ### The demoted function is well formed -/

theorem demotedVar_param (wellFormed : f.WellFormed) (param : v ∈ f.params) :
    f.demotedVar v = v :=
  demotedVar_of_not_region (wellFormed.param_not_region param)

theorem kind?_demoted (wellFormed : f.WellFormed) (defined : v ∈ f.defined) :
    f.demoted.kind? (f.demotedVar v) = some .plain := by
  obtain ⟨info, -, found⟩ := record_demotedVar wellFormed (List.append_nil _).symm defined id
  exact congrArg (Option.map VarInfo.kind) found

/-- The shapes recorded of the demoted variables are recorded in the function already. -/
theorem shape_demotedInfo (wellFormed : f.WellFormed) (region : v ∈ regionVars f.blocks) :
    ∃ info ∈ f.vars, (f.demotedInfo v).shape = info.shape := by
  have allocated := wellFormed.definitions v (defined_of_region region)
  refine ⟨f.vars[v.index], List.getElem_mem allocated, ?_⟩
  simp [demotedInfo, List.getElem?_eq_getElem allocated]

theorem rewrites_demoted (wellFormed : f.WellFormed) :
    f.Rewrites f.demoted f.demotedVar f.demotedBlock fun _ => Binding.rename f.demotedVar where
  params := rfl
  ofParams _ := demotedVar_param wellFormed
  blocks := rfl
  body := rfl
  dimNames := rfl
  bindings _ := rfl
  defines _ := Binding.defined?_rename f.demotedVar
  patterns _ := Binding.pattern?_rename f.demotedVar
  apart v hv w hw := demotedVar_inj (wellFormed.definitions v hv) (wellFormed.definitions w hw)
  kinds _ mem := .inl (kind?_demoted wellFormed mem)
  plainBlocks _ mem _ _ here := kind?_demoted wellFormed (defined_of_block mem here)
  reads before block after done x rest splitBlocks split := by
    rw [Binding.value_rename, Expr.reads_rename, List.forall_mem_map]
    intro v read
    exact ⟨v, wellFormed.inScope before block after done x rest splitBlocks split v read, rfl⟩
  annotations := by
    refine List.forall_mem_append.2 ⟨wellFormed.annotations, ?_⟩
    rw [List.forall_mem_map]
    intro v region
    obtain ⟨info, mem, shape⟩ := shape_demotedInfo wellFormed region
    rw [shape]
    exact wellFormed.annotations info mem
  shapes block inFunction x inBlock := by
    rw [Binding.value_rename, Expr.dimVars_rename]
    exact wellFormed.shapes x (mem_bindings inFunction inBlock)

theorem WellFormed.demoted (wellFormed : f.WellFormed) : f.demoted.WellFormed :=
  (rewrites_demoted wellFormed).wellFormed wellFormed

end Function

end TensorIR
