import Mathlib.Data.List.Nodup
import TensorIR.Proofs.Alpha.Relabeling
import TensorIR.Proofs.Renaming

/-!
# Rewriting a function in place

Demotion and fusion leave every block and every binding in its place, and what they make of them is
otherwise their own business. The result is well formed if the function was, and the argument for
that is the same for both, so it is made here once. `Function.Rewrites` gathers what it needs to
know of a pass.

Visibility is what carries it. A variable stays of its kind or becomes plain, and a plain variable
is visible wherever one of a region would be. So whatever was in scope at a place still is after the
renaming (`Function.Rewrites.inScope`), and a binding has only to read what was.
-/

namespace TensorIR

theorem Expr.dimVars_rename (r : Var → Var) (e : Expr) : (e.rename r).dimVars = e.dimVars := by
  induction e using Expr.induction with
  | var _ | shape _ | const _ | external _ | global _ => rfl
  | item t i ih => exact ih
  | tuple es ih | call _ es ih =>
      simp only [rename, dimVars, renameAll_eq_map, dimVarsAll_eq_flatMap, List.flatMap_map]
      simp only [List.flatMap_def]
      rw [List.map_congr_left ih]

namespace Function

/-- One function is another with its variables renamed and each binding rewritten where it
stands. -/
structure Rewrites (f g : Function) (r : Var → Var) (rewriteBlock : Block → Block)
    (rewrite : Block → Binding → Binding) : Prop where
  params : g.params = f.params
  ofParams : ∀ v ∈ f.params, r v = v
  blocks : g.blocks = f.blocks.map rewriteBlock
  body : g.body = f.body.rename r
  dimNames : g.dimNames = f.dimNames
  bindings : ∀ block, (rewriteBlock block).bindings = block.bindings.map (rewrite block)
  defines : ∀ block x, (rewrite block x).defined? = x.defined?.map r
  patterns : ∀ block x, (rewrite block x).pattern? = x.pattern?
  apart : ∀ v ∈ f.defined, ∀ w ∈ f.defined, r v = r w → v = w
  kinds : ∀ v ∈ f.defined, g.kind? (r v) = some .plain ∨ g.kind? (r v) = f.kind? v
  plainBlocks : ∀ block ∈ f.blocks, (rewriteBlock block).kind = .plain →
    ∀ v ∈ block.bindings.filterMap Binding.defined?, g.kind? (r v) = some .plain
  reads : ∀ before block after done x rest, f.blocks = before ++ block :: after →
    block.bindings = done ++ x :: rest →
    ∀ w ∈ (rewrite block x).value.reads, ∃ v, f.InScope before done v ∧ r v = w
  annotations : ∀ info ∈ g.vars, ∀ d ∈ (info.shape.getD []).vars, d.index < f.dimNames.length
  shapes : ∀ block ∈ f.blocks, ∀ x ∈ block.bindings,
    ∀ d ∈ (rewrite block x).value.dimVars, d.index < f.dimNames.length

namespace Rewrites

variable {f g : Function} {r : Var → Var} {rewriteBlock : Block → Block}
  {rewrite : Block → Binding → Binding} {v : Var} (h : f.Rewrites g r rewriteBlock rewrite)
include h

theorem filterMap_defined (block : Block) (xs : List Binding) :
    (xs.map (rewrite block)).filterMap Binding.defined? =
      (xs.filterMap Binding.defined?).map r := by
  rw [List.filterMap_map, List.map_filterMap]
  exact congrArg (List.filterMap · xs) (funext (h.defines block))

theorem filterMap_defined_blocks (blocks : List Block) :
    ((blocks.map rewriteBlock).flatMap Block.bindings).filterMap Binding.defined? =
      ((blocks.flatMap Block.bindings).filterMap Binding.defined?).map r := by
  rw [List.flatMap_map, List.filterMap_flatMap, List.filterMap_flatMap, List.map_flatMap]
  refine congrArg (List.flatMap · blocks) (funext fun block => ?_)
  rw [h.bindings, h.filterMap_defined]

theorem forall_bindings {P : Binding → Prop} : (∀ y ∈ g.bindings, P y) ↔
    ∀ block ∈ f.blocks, ∀ x ∈ block.bindings, P (rewrite block x) := by
  simp only [Function.bindings, h.blocks, h.bindings, List.flatMap_map, List.forall_mem_flatMap,
    List.forall_mem_map]

theorem filterMap_defined_bindings : g.bindings.filterMap Binding.defined? =
    (f.bindings.filterMap Binding.defined?).map r := by
  rw [Function.bindings, h.blocks]
  exact h.filterMap_defined_blocks f.blocks

theorem defined : g.defined = f.defined.map r := by
  rw [Function.defined, Function.defined, List.map_append, map_eq_self h.ofParams, h.params,
    h.filterMap_defined_bindings]

theorem kind_plain (mem : v ∈ f.defined) (known : f.kind? v = some .plain) :
    g.kind? (r v) = some .plain :=
  (h.kinds v mem).elim id fun same => same.trans known

theorem allocates (wellFormed : f.WellFormed) (mem : v ∈ f.defined) : g.Allocates (r v) := by
  refine isSome_kind?.1 ?_
  rcases h.kinds v mem with plain | same
  · rw [plain]
    rfl
  · rw [same]
    exact isSome_kind?.2 (wellFormed.definitions v mem)

/-- What was in scope at a place still is, renamed. -/
theorem inScope {before : List Block} {block : Block} {done : List Binding} (mem : v ∈ f.defined)
    (visible : f.InScope before done v) :
    g.InScope (before.map rewriteBlock) (done.map (rewrite block)) (r v) := by
  have earlier (bound : v ∈ (before.flatMap Block.bindings ++ done).filterMap Binding.defined?) :
      r v ∈ ((before.map rewriteBlock).flatMap Block.bindings ++
        done.map (rewrite block)).filterMap Binding.defined? := by
    rw [List.filterMap_append, h.filterMap_defined_blocks, h.filterMap_defined, ← List.map_append,
      ← List.filterMap_append]
    exact List.mem_map_of_mem bound
  rcases visible with param | ⟨bound, known⟩ | ⟨bound, known⟩
  · rw [h.ofParams v param]
    exact .inl (h.params ▸ param)
  · exact .inr (.inl ⟨earlier bound, h.kind_plain mem known⟩)
  · rcases h.kinds v mem with plain | same
    · refine .inr (.inl ⟨earlier ?_, plain⟩)
      rw [List.filterMap_append]
      exact List.mem_append_right _ bound
    · refine .inr (.inr ⟨?_, same.trans known⟩)
      rw [h.filterMap_defined]
      exact List.mem_map_of_mem bound

/-- Every place in the result is one of the function from before. -/
theorem inScope_reads (before' : List Block) (block' : Block) (after' : List Block)
    (done' : List Binding) (x' : Binding) (rest' : List Binding)
    (splitBlocks : g.blocks = before' ++ block' :: after')
    (split : block'.bindings = done' ++ x' :: rest') :
    ∀ v ∈ x'.value.reads, g.InScope before' done' v := by
  rw [h.blocks] at splitBlocks
  obtain ⟨before, tail, blocks, rfl, tailEq⟩ := List.map_eq_append_iff.1 splitBlocks
  obtain ⟨block, after, rfl, rfl, rfl⟩ := List.map_eq_cons_iff.1 tailEq
  rw [h.bindings] at split
  obtain ⟨done, bindings, here, rfl, bindingsEq⟩ := List.map_eq_append_iff.1 split
  obtain ⟨x, rest, rfl, rfl, rfl⟩ := List.map_eq_cons_iff.1 bindingsEq
  intro w read
  obtain ⟨v, visible, rfl⟩ := h.reads before block after done x rest blocks here w read
  exact h.inScope (visible.mem_defined blocks here) visible

theorem forall_body_reads {P : Var → Prop} :
    (∀ w ∈ g.body.reads, P w) ↔ ∀ v ∈ f.body.reads, P (r v) := by
  rw [h.body, Expr.reads_rename, List.forall_mem_map]

theorem toScoped (wellFormed : f.WellFormed) : g.Scoped where
  nodup := by
    rw [h.defined]
    exact wellFormed.nodup.map_on h.apart
  definitions := by
    rw [h.defined, List.forall_mem_map]
    exact fun v mem => h.allocates wellFormed mem
  reads := by
    rw [h.forall_bindings]
    intro block inFunction x inBlock w read
    obtain ⟨before, after, splitBlocks⟩ := List.append_of_mem inFunction
    obtain ⟨done, rest, split⟩ := List.append_of_mem inBlock
    obtain ⟨v, visible, rfl⟩ := h.reads before block after done x rest splitBlocks split w read
    exact h.allocates wellFormed (visible.mem_defined splitBlocks split)
  body := by
    rw [h.forall_body_reads]
    exact fun v read => h.allocates wellFormed (wellFormed.defined_of_result read)

theorem wellFormed (wellFormed : f.WellFormed) : g.WellFormed where
  toScoped := h.toScoped wellFormed
  nonempty := by
    rw [h.blocks, List.forall_mem_map]
    intro block mem empty
    rw [h.bindings] at empty
    exact wellFormed.nonempty block mem (List.map_eq_nil_iff.1 empty)
  params := by
    rw [h.params]
    intro v param
    have kind := h.kind_plain (List.mem_append_left _ param) (wellFormed.params v param)
    rwa [h.ofParams v param] at kind
  plainBlocks := by
    rw [h.blocks, List.forall_mem_map]
    intro block mem plain
    rw [h.bindings, h.filterMap_defined, List.forall_mem_map]
    exact h.plainBlocks block mem plain
  inScope := h.inScope_reads
  result := by
    rw [h.forall_body_reads]
    intro v read
    rw [h.params, h.filterMap_defined_bindings]
    refine (wellFormed.result v read).imp (fun param => ?_) fun bound =>
      ⟨List.mem_map_of_mem bound.1, h.kind_plain (List.mem_append_right _ bound.1) bound.2⟩
    rw [h.ofParams v param]
    exact param
  annotations := by
    rw [h.dimNames]
    exact h.annotations
  shapes := by
    rw [h.dimNames, h.forall_bindings]
    exact h.shapes
  patterns := by
    rw [h.dimNames, h.forall_bindings]
    intro block inFunction x inBlock
    rw [h.patterns]
    exact wellFormed.patterns x (mem_bindings inFunction inBlock)
  resultShapes := by
    rw [h.body, Expr.dimVars_rename, h.dimNames]
    exact wellFormed.resultShapes

end Rewrites

end Function

end TensorIR
