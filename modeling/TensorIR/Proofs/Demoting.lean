import TensorIR.Proofs.Demoted
import TensorIR.Proofs.Demotion
import TensorIR.Proofs.History
import TensorIR.Proofs.Idempotence
import TensorIR.Proofs.RenamedInference

/-!
# Demotion is a renaming

Demotion walks through a function with a renaming that grows, and sends every binding through the
builder once more, which annotates and checks it. A function that came from a builder is demoted to
the function that the whole renaming makes of it, and without fail (`Builder.demote_of_history`).

There are two reasons why the growing renaming is as good as the whole one. A value reads what was
defined before, and on that the two agree (`Demotion.Follows`). And the builder finds nothing to add
or to object to, since a renamed variable has the shape and the type of the old one, so that
everything inferred is what was inferred before (`Binding.Settled.rename`). So after any number of
bindings the builder is known, down to its list of variables (`Demotion.reached`).
-/

namespace TensorIR

/-- A settled binding stays settled when its variables are renamed to some that are recorded with
the same shapes and types. -/
theorem Binding.Settled.rename {vars vars' : List VarInfo} {inside inside' : Bool} {r : Var → Var}
    {x : Binding} (h : x.Settled vars inside) (agrees : Expr.Agrees vars vars' r x.value.reads)
    (allocated : ∀ v ∈ x.value.reads, (r v).index < vars'.length)
    (bindable : ∀ v ∈ x.defined?, ∀ info, vars[v.index]? = some info →
      ∃ info', (r v).Bindable vars' inside' info' ∧ info'.shape = info.shape ∧
        info'.ty = info.ty) : (x.rename r).Settled vars' inside' := by
  have annotated := Expr.annotate_rename agrees
  have reads : ∀ w ∈ (x.value.rename r).reads, w.index < vars'.length := by
    rw [Expr.reads_rename]
    exact List.forall_mem_map.2 allocated
  cases x with
  | define v value =>
      have same : value.annotate vars = value := congrArg Binding.value h.annotated
      obtain ⟨info, place, fits⟩ := h.accepted
      obtain ⟨info', place', shape, ty⟩ := bindable v rfl info place.1
      have inferredShape : (value.rename r).inferShape? vars' = value.inferShape? vars :=
        Expr.inferShape?_rename fun v read => (agrees v read).1
      have inferredTy : (value.rename r).inferTy? vars' = value.inferTy? vars :=
        Expr.inferTy?_rename fun v read => (agrees v read).2
      refine ⟨⟨info', place', ?_, ?_⟩, ?_, reads⟩
      · rw [inferredShape, shape]
        exact fits.shape
      · rw [inferredTy, ty]
        exact fits.ty
      · exact congrArg (define (r v)) (annotated.trans (congrArg _ same))
  | matchShape v value pattern =>
      have same : value.annotate vars = value := congrArg Binding.value h.annotated
      refine ⟨?_, ?_, reads⟩
      · intro w defines
        obtain ⟨u, mem, rfl⟩ := Option.map_eq_some_iff.1 defines
        obtain ⟨info, place⟩ := h.accepted u mem
        obtain ⟨info', place', -⟩ := bindable u mem info place.1
        exact ⟨info', place'⟩
      · exact congrArg (matchShape (v.map r) · pattern) (annotated.trans (congrArg _ same))

/-! ### Emitting a binding -/

namespace Demotion

variable {f : Function} {before after : List Block} {block : Block} {done rest : List Binding}
  {x : Binding} {v : Var} {ρ : Renaming}

/-- The builder when some blocks have been demoted and then some bindings of one more. -/
def reached (f : Function) (before : List Block) (current : Block) : Builder :=
  { Builder.reopen f with
    vars := f.vars ++ (regionVars (before ++ [current])).map f.demotedInfo
    blocks := before.map f.demotedBlock
    pending := current.bindings.map (Binding.rename f.demotedVar) }

/-- The variables that are defined when the bindings have been. -/
def definedBy (f : Function) (xs : List Binding) : List Var :=
  f.params ++ xs.filterMap Binding.defined?

theorem definedBy_append (f : Function) (xs : List Binding) (x : Binding) :
    definedBy f (xs ++ [x]) = definedBy f xs ++ x.defined?.toList := by
  rw [definedBy, defined_append, ← List.append_assoc]
  rfl

/-- The renaming so far agrees with the renaming of the whole function on all that has been defined
so far, and it does not touch what will never be renamed. -/
structure Follows (f : Function) (done : List Binding) (ρ : Renaming) : Prop where
  known : ∀ v ∈ definedBy f done, ρ.apply v = f.demotedVar v
  others : ∀ v, v ∉ regionVars f.blocks → ρ.apply v = v

/-- The variables that have been defined in regions come first. -/
theorem exists_later (splitBlocks : f.blocks = before ++ block :: after)
    (split : block.bindings = done ++ rest) : ∃ later,
      regionVars f.blocks = regionVars (before ++ [⟨block.kind, done⟩]) ++ later := by
  obtain ⟨kind, bindings⟩ := block
  subst split
  refine ⟨regionVars [⟨kind, rest⟩] ++ regionVars after, ?_⟩
  rw [splitBlocks, List.append_cons, regionVars_append, regionVars_append, regionVars_append,
    regionVars_bindings, List.append_assoc, List.append_assoc, List.append_assoc]

/-- Of the variables defined so far those of regions have new ones. -/
theorem ready_of_defined (wellFormed : f.WellFormed)
    (splitBlocks : f.blocks = before ++ block :: after) (split : block.bindings = done ++ rest)
    (defined : v ∈ definedBy f (before.flatMap Block.bindings ++ done))
    (region : v ∈ regionVars f.blocks) : v ∈ regionVars (before ++ [⟨block.kind, done⟩]) := by
  have dataflow {other : Block} (mem : other ∈ f.blocks) (here : v ∈ other.defined) :
      other.kind = .dataflow := by
    cases kind : other.kind with
    | dataflow => rfl
    | plain => exact absurd region (wellFormed.plain_not_region mem kind here)
  rw [definedBy, List.filterMap_append, List.mem_append, List.mem_append] at defined
  rcases defined with param | earlier | here
  · exact absurd region (wellFormed.param_not_region param)
  · rw [List.filterMap_flatMap, List.mem_flatMap] at earlier
    obtain ⟨other, mem, inOther⟩ := earlier
    have inFunction : other ∈ f.blocks := by simp [splitBlocks, mem]
    refine mem_regionVars.2 ⟨other, List.mem_append_left _ mem, ?_, inOther⟩
    exact dataflow inFunction inOther
  · have inBlock : v ∈ block.defined := by
      rw [Block.defined, split, List.filterMap_append]
      exact List.mem_append_left _ here
    have kind := dataflow (show block ∈ f.blocks by simp [splitBlocks]) inBlock
    exact mem_regionVars.2 ⟨_, List.mem_append_right _ (List.mem_singleton_self _), kind, here⟩

/-- A variable that has been defined is recorded as it was, but as a plain variable. -/
theorem record_reached (wellFormed : f.WellFormed)
    (splitBlocks : f.blocks = before ++ block :: after) (split : block.bindings = done ++ rest)
    (defined : v ∈ definedBy f (before.flatMap Block.bindings ++ done)) :
    ∃ info, f.vars[v.index]? = some info ∧
      (reached f before ⟨block.kind, done⟩).vars[(f.demotedVar v).index]? =
        some { info with kind := .plain } := by
  obtain ⟨later, vars⟩ := exists_later splitBlocks split
  refine Function.record_demotedVar wellFormed vars ?_
    (ready_of_defined wellFormed splitBlocks split defined)
  rw [Function.defined, Function.bindings, splitBlocks, List.flatMap_append, List.flatMap_cons,
    split]
  refine List.append_subset.2 ⟨List.subset_append_left _ _, ?_⟩ defined
  refine List.Subset.trans (List.filterMap_subset _ ?_) (List.subset_append_right _ _)
  simp

/-- What a binding reads has been defined before it. -/
theorem defined_of_reads (wellFormed : f.WellFormed)
    (splitBlocks : f.blocks = before ++ block :: after)
    (split : block.bindings = done ++ x :: rest) :
    ∀ v ∈ x.value.reads, v ∈ definedBy f (before.flatMap Block.bindings ++ done) := by
  intro v read
  exact (wellFormed.inScope before block after done x rest splitBlocks split v read).defined

/-- The renamed binding is settled where it is emitted. -/
theorem settled_rename (wellFormed : f.WellFormed) (settled : f.Settled)
    (splitBlocks : f.blocks = before ++ block :: after)
    (split : block.bindings = done ++ x :: rest) :
    (x.rename f.demotedVar).Settled (reached f before ⟨block.kind, done ++ [x]⟩).vars false := by
  have split' : block.bindings = (done ++ [x]) ++ rest := by rw [split, List.append_cons]
  have inFunction : block ∈ f.blocks := by simp [splitBlocks]
  have here := (settled block inFunction).bindings x (by simp [split])
  have defined : definedBy f (before.flatMap Block.bindings ++ (done ++ [x])) =
      definedBy f (before.flatMap Block.bindings ++ done) ++ x.defined?.toList := by
    rw [← List.append_assoc, definedBy_append]
  have record {v : Var} (mem : v ∈ definedBy f (before.flatMap Block.bindings ++ (done ++ [x]))) :=
    record_reached wellFormed splitBlocks split' mem
  have reads : ∀ v ∈ x.value.reads,
      v ∈ definedBy f (before.flatMap Block.bindings ++ (done ++ [x])) := by
    intro v read
    rw [defined]
    exact List.mem_append_left _ (defined_of_reads wellFormed splitBlocks split v read)
  refine here.rename ?_ ?_ ?_
  · intro v read
    obtain ⟨info, old, new⟩ := record (reads v read)
    rw [old, new]
    exact ⟨rfl, rfl⟩
  · intro v read
    obtain ⟨info, old, new⟩ := record (reads v read)
    exact (List.getElem?_eq_some_iff.1 new).1
  · intro v defines info found
    obtain ⟨info', old, new⟩ := record (v := v) (by simp [defined, Option.mem_def.1 defines])
    cases found.symm.trans old
    exact ⟨_, ⟨new, by simp [VarInfo.isDataflow]⟩, rfl, rfl⟩

theorem checkPlain_of_plain {b : Builder} {vs : List Var}
    (plain : ∀ v ∈ vs, ∃ info, b.vars[v.index]? = some info ∧ info.isDataflow = false) :
    checkPlain f b vs = .ok () := by
  induction vs with
  | nil => rfl
  | cons v vs ih =>
      obtain ⟨⟨info, found, kind⟩, later⟩ := List.forall_mem_cons.1 plain
      have looked : looking (b.info v) = .ok info := by
        rw [looking_eq_ok, Builder.info, found]
      rw [checkPlain, looked, ok_bind, kind]
      exact ih later

/-- The reads of the renamed value are of plain variables. -/
theorem checkPlain_reads (wellFormed : f.WellFormed)
    (splitBlocks : f.blocks = before ++ block :: after)
    (split : block.bindings = done ++ x :: rest) :
    checkPlain f (reached f before ⟨block.kind, done⟩) (x.value.rename f.demotedVar).reads =
      .ok () := by
  refine checkPlain_of_plain ?_
  rw [Expr.reads_rename, List.forall_mem_map]
  intro v read
  obtain ⟨info, -, found⟩ := record_reached wellFormed splitBlocks split
    (defined_of_reads wellFormed splitBlocks split v read)
  exact ⟨_, found, rfl⟩

theorem substitute_eq_rename (follows : Follows f done ρ) {e : Expr}
    (reads : ∀ v ∈ e.reads, v ∈ definedBy f done) : e.substitute ρ = e.rename f.demotedVar :=
  Expr.rename_congr fun v read => follows.known v (reads v read)

theorem binding_renamed (value : x.value.substitute ρ = x.value.rename f.demotedVar)
    (defines : x.defined? = some v) :
    (x.substitute ρ).withDefined (f.demotedVar v) = x.rename f.demotedVar := by
  cases x with
  | define u _ =>
      cases defines
      exact congrArg (Binding.define _) value
  | matchShape u _ pattern =>
      cases defines
      exact congrArg (Binding.matchShape _ · pattern) value

/-- The new variable of one that a region defines comes next. -/
theorem demotedVar_next (wellFormed : f.WellFormed)
    (splitBlocks : f.blocks = before ++ block :: after)
    (split : block.bindings = done ++ x :: rest) (dataflow : block.kind = .dataflow)
    (defines : x.defined? = some v) :
    f.demotedVar v = ⟨(reached f before ⟨block.kind, done⟩).vars.length⟩ ∧
      (reached f before ⟨block.kind, done ++ [x]⟩).vars =
        (reached f before ⟨block.kind, done⟩).vars ++ [f.demotedInfo v] := by
  have one : regionVars [⟨block.kind, [x]⟩] = [v] := by
    simp [regionVars, Block.isDataflow, Block.defined, dataflow, defines]
  have grown : regionVars (before ++ [⟨block.kind, done ++ [x]⟩]) =
      regionVars (before ++ [⟨block.kind, done⟩]) ++ [v] := by
    rw [regionVars_append, regionVars_bindings, one, regionVars_append, List.append_assoc]
  obtain ⟨later, all⟩ := exists_later splitBlocks
    (show block.bindings = (done ++ [x]) ++ rest by rw [split, List.append_cons])
  rw [grown] at all
  have region : v ∈ regionVars f.blocks := by simp [all]
  have distinct := wellFormed.nodup_regionVars
  rw [all] at distinct
  have new : v ∉ regionVars (before ++ [⟨block.kind, done⟩]) := by
    intro old
    exact (List.nodup_append.1 (List.nodup_append.1 distinct).1).2.2 v old v (by simp) rfl
  constructor
  · rw [Function.demotedVar_of_region region, all, List.append_assoc,
      List.idxOf_append_of_notMem new]
    simp [reached]
  · simp [reached, grown]

/-- A binding that no new variable is needed for allocates none. -/
theorem vars_kept (own : x.defined? = none ∨ block.kind = .plain) :
    (reached f before ⟨block.kind, done ++ [x]⟩).vars =
      (reached f before ⟨block.kind, done⟩).vars := by
  have none : regionVars [⟨block.kind, [x]⟩] = [] := by
    rcases own with undefined | plain
    · cases block.kind <;> simp [regionVars, Block.isDataflow, Block.defined, undefined]
    · simp [regionVars, Block.isDataflow, plain]
  simp only [reached, regionVars_append, regionVars_bindings, none, List.append_nil]

theorem Follows.kept (follows : Follows f done ρ)
    (kept : ∀ v ∈ x.defined?, v ∉ regionVars f.blocks) : Follows f (done ++ [x]) ρ := by
  refine ⟨?_, follows.others⟩
  rw [definedBy_append, List.forall_mem_append]
  refine ⟨follows.known, fun v mem => ?_⟩
  have outside := kept v (Option.mem_toList.1 mem)
  rw [follows.others v outside, Function.demotedVar_of_not_region outside]

theorem Follows.renamed (follows : Follows f done ρ) (defines : x.defined? = some v)
    (region : v ∈ regionVars f.blocks) : Follows f (done ++ [x]) ((v, f.demotedVar v) :: ρ) := by
  constructor
  · rw [definedBy_append, List.forall_mem_append]
    constructor
    · intro u known
      rw [Renaming.apply_cons]
      split
      · next same => rw [same]
      · exact follows.known u known
    · intro u mem
      cases (Option.mem_toList.1 mem).symm.trans defines
      rw [Renaming.apply_cons, if_pos rfl]
  · intro u outside
    have other : u ≠ v := fun same => outside (same ▸ region)
    rw [Renaming.apply_cons, if_neg other]
    exact follows.others u outside

/-- With the variables allocated that it needs, the renamed binding is taken as it is. -/
theorem push_rename (wellFormed : f.WellFormed) (settled : f.Settled)
    (splitBlocks : f.blocks = before ++ block :: after)
    (split : block.bindings = done ++ x :: rest) {b : Builder}
    (vars : (reached f before ⟨block.kind, done ++ [x]⟩).vars = b.vars)
    (here : b = { reached f before ⟨block.kind, done⟩ with vars := b.vars }) :
    building f.name (b.push (x.rename f.demotedVar)) =
      .ok (reached f before ⟨block.kind, done ++ [x]⟩) := by
  have pushed := settled_rename wellFormed settled splitBlocks split
  rw [vars] at pushed
  have outside : b.inDataflow = false := by rw [here]; rfl
  rw [building_eq_ok, Builder.push_settled (by rwa [outside]), here, ← vars]
  simp [reached, Builder.append]

/-- What a block defines is still recorded as it was. -/
theorem info_reached (wellFormed : f.WellFormed) (inFunction : block ∈ f.blocks)
    (here : v ∈ block.defined) (before : List Block) (current : Block) :
    ∃ info, f.vars[v.index]? = some info ∧ (reached f before current).info v = .ok info := by
  have allocated := wellFormed.definitions v (Function.defined_of_block inFunction here)
  refine ⟨_, List.getElem?_eq_getElem allocated, Builder.info_eq_ok.2 ?_⟩
  exact (getElem?_grown allocated).trans (List.getElem?_eq_getElem allocated)

section Binding

variable (wellFormed : f.WellFormed) (settled : f.Settled)
  (splitBlocks : f.blocks = before ++ block :: after) (split : block.bindings = done ++ x :: rest)
  (follows : Follows f (before.flatMap Block.bindings ++ done) ρ)
include wellFormed settled splitBlocks split follows

/-- A binding that defines nothing new is emitted with its reads renamed. -/
theorem emitBinding_kept (own : x.defined? = none ∨ block.kind = .plain) :
    emitBinding f block.kind x ρ (reached f before ⟨block.kind, done⟩) =
        .ok (ρ, reached f before ⟨block.kind, done ++ [x]⟩) ∧
      Follows f (before.flatMap Block.bindings ++ done ++ [x]) ρ := by
  have inFunction : block ∈ f.blocks := by simp [splitBlocks]
  have inBlock : x ∈ block.bindings := by simp [split]
  have kept : ∀ v ∈ x.defined?, v ∉ regionVars f.blocks := by
    intro v defines
    cases own with
    | inl none =>
        rw [none] at defines
        cases defines
    | inr plain =>
        exact wellFormed.plain_not_region inFunction plain
          (List.mem_filterMap.2 ⟨x, inBlock, defines⟩)
  have value := substitute_eq_rename follows (defined_of_reads wellFormed splitBlocks split)
  have same := Binding.substitute_eq_rename value fun v mem =>
    Function.demotedVar_of_not_region (kept v mem)
  have pushed := push_rename wellFormed settled splitBlocks split (vars_kept own) rfl
  rw [← same] at pushed
  refine ⟨?_, follows.kept kept⟩
  simp only [emitBinding, value_substitute, value, checkPlain_reads wellFormed splitBlocks split,
    ok_bind, defined?_substitute]
  cases defines : x.defined? with
  | none => exact bind_eq_ok.2 ⟨_, pushed, rfl⟩
  | some v =>
      have kind : block.kind = .plain := own.resolve_left (by simp [defines])
      have here : v ∈ block.defined := List.mem_filterMap.2 ⟨x, inBlock, defines⟩
      obtain ⟨info, found, looked⟩ :=
        info_reached wellFormed inFunction here before ⟨block.kind, done⟩
      have plain := wellFormed.plainBlocks block inFunction kind v here
      rw [Function.kind?, found] at plain
      rw [kind] at looked pushed ⊢
      refine bind_eq_ok.2 ⟨_, looking_eq_ok.2 looked, guard_eq_ok.2 ⟨?_, ?_⟩⟩
      · simp [VarInfo.isDataflow, Option.some.inj plain]
      · exact bind_eq_ok.2 ⟨_, pushed, rfl⟩

/-- A binding of a region is emitted under the new variable. -/
theorem emitBinding_renamed (dataflow : block.kind = .dataflow) (defines : x.defined? = some v) :
    emitBinding f block.kind x ρ (reached f before ⟨block.kind, done⟩) =
        .ok ((v, f.demotedVar v) :: ρ, reached f before ⟨block.kind, done ++ [x]⟩) ∧
      Follows f (before.flatMap Block.bindings ++ done ++ [x]) ((v, f.demotedVar v) :: ρ) := by
  have inFunction : block ∈ f.blocks := by simp [splitBlocks]
  have inBlock : x ∈ block.bindings := by simp [split]
  have here : v ∈ block.defined := List.mem_filterMap.2 ⟨x, inBlock, defines⟩
  have value := substitute_eq_rename follows (defined_of_reads wellFormed splitBlocks split)
  obtain ⟨info, found, looked⟩ :=
    info_reached wellFormed inFunction here before ⟨block.kind, done⟩
  have recorded : f.demotedInfo v = { info with kind := .plain } := by
    simp [Function.demotedInfo, found]
  -- The new variable is allocated before the binding is sent, and so is there when it is checked.
  obtain ⟨next, vars⟩ := demotedVar_next wellFormed splitBlocks split dataflow defines
  have pushed := push_rename wellFormed settled splitBlocks split
    (b := ((reached f before ⟨block.kind, done⟩).fresh (f.demotedInfo v)).1) vars rfl
  rw [recorded, ← binding_renamed value defines] at pushed
  refine ⟨?_, follows.renamed defines (mem_regionVars.2 ⟨block, inFunction, dataflow, here⟩)⟩
  simp only [emitBinding, value_substitute, value, checkPlain_reads wellFormed splitBlocks split,
    ok_bind, defined?_substitute, defines]
  rw [next] at pushed ⊢
  rw [dataflow] at looked pushed ⊢
  exact bind_eq_ok.2 ⟨_, looking_eq_ok.2 looked, bind_eq_ok.2 ⟨_, pushed, rfl⟩⟩

/-- Each binding is demoted to the renamed one, and the renaming goes on to follow. -/
theorem emitBinding_reached :
    ∃ ρ', emitBinding f block.kind x ρ (reached f before ⟨block.kind, done⟩) =
        .ok (ρ', reached f before ⟨block.kind, done ++ [x]⟩) ∧
      Follows f (before.flatMap Block.bindings ++ done ++ [x]) ρ' := by
  by_cases own : x.defined? = none ∨ block.kind = .plain
  · exact ⟨ρ, emitBinding_kept wellFormed settled splitBlocks split follows own⟩
  · obtain ⟨defined, notPlain⟩ := not_or.1 own
    obtain ⟨v, defines⟩ := Option.ne_none_iff_exists'.1 defined
    have dataflow : block.kind = .dataflow := by
      cases kind : block.kind with
      | dataflow => rfl
      | plain => exact absurd kind notPlain
    exact ⟨_, emitBinding_renamed wellFormed settled splitBlocks split follows dataflow defines⟩

end Binding

/-! ### Emitting blocks -/

theorem emitBindings_reached (wellFormed : f.WellFormed) (settled : f.Settled)
    (splitBlocks : f.blocks = before ++ block :: after) {xs : List Binding}
    (split : block.bindings = done ++ xs)
    (follows : Follows f (before.flatMap Block.bindings ++ done) ρ) :
    ∃ ρ', emitBindings f block.kind xs ρ (reached f before ⟨block.kind, done⟩) =
        .ok (ρ', reached f before block) ∧
      Follows f (before.flatMap Block.bindings ++ block.bindings) ρ' := by
  induction xs generalizing done ρ with
  | nil =>
      rw [List.append_nil] at split
      rw [← split] at follows ⊢
      exact ⟨ρ, rfl, follows⟩
  | cons x xs ih =>
      obtain ⟨ρ₁, emitted, follows₁⟩ :=
        emitBinding_reached wellFormed settled splitBlocks split follows
      rw [List.append_cons] at split
      rw [List.append_assoc] at follows₁
      obtain ⟨ρ', rest, follows'⟩ := ih split follows₁
      exact ⟨ρ', bind_eq_ok.2 ⟨_, emitted, rest⟩, follows'⟩

/-- Sealing completes the block at hand. -/
theorem sealBlock_reached (nonempty : block.bindings ≠ []) (kind : BlockKind) :
    (reached f before block).sealBlock = reached f (before ++ [block]) ⟨kind, []⟩ := by
  have pending : (reached f before block).pending ≠ [] := by simp [reached, nonempty]
  rw [Builder.sealBlock, if_neg (by simp [reached, Builder.reopen]),
    Builder.endBlock_of_nonempty .plain pending]
  simp only [reached, regionVars_empty, List.map_append]
  rfl

theorem emitBlocks_reached (wellFormed : f.WellFormed) (settled : f.Settled) {blocks : List Block}
    (split : f.blocks = before ++ blocks) (follows : Follows f (before.flatMap Block.bindings) ρ)
    (kind : BlockKind) :
    ∃ ρ', emitBlocks f blocks ρ (reached f before ⟨kind, []⟩) =
        .ok (ρ', reached f f.blocks ⟨.plain, []⟩) ∧ Follows f f.bindings ρ' := by
  induction blocks generalizing before ρ kind with
  | nil =>
      rw [List.append_nil] at split
      rw [← split] at follows
      refine ⟨ρ, ?_, follows⟩
      simp only [emitBlocks, reached, regionVars_empty, split]
  | cons block blocks ih =>
      have start : Follows f (before.flatMap Block.bindings ++ []) ρ := by
        rwa [List.append_nil]
      obtain ⟨ρ₁, emitted, follows₁⟩ :=
        emitBindings_reached wellFormed settled split (List.nil_append _).symm start
      have nonempty : block.bindings ≠ [] := wellFormed.nonempty block (by simp [split])
      have here : reached f before ⟨kind, []⟩ = reached f before ⟨block.kind, []⟩ := by
        simp only [reached, regionVars_empty]
      rw [List.append_cons] at split
      have next : Follows f ((before ++ [block]).flatMap Block.bindings) ρ₁ := by
        simpa using follows₁
      obtain ⟨ρ', rest, follows'⟩ := ih split next .plain
      rw [← sealBlock_reached nonempty .plain] at rest
      exact ⟨ρ', bind_eq_ok.2 ⟨_, here ▸ emitted, rest⟩, follows'⟩

theorem checkPlain_body (wellFormed : f.WellFormed) :
    checkPlain f (reached f f.blocks ⟨.plain, []⟩) (f.body.rename f.demotedVar).reads = .ok () := by
  refine checkPlain_of_plain ?_
  rw [Expr.reads_rename, List.forall_mem_map]
  intro v read
  obtain ⟨info, -, found⟩ := Function.record_demotedVar wellFormed (List.append_nil _).symm
    (wellFormed.defined_of_result read) id
  rw [reached, regionVars_empty]
  exact ⟨_, found, rfl⟩

theorem finish_reached (wellFormed : f.WellFormed) :
    (reached f f.blocks ⟨.plain, []⟩).finish (f.body.rename f.demotedVar) = .ok f.demoted := by
  refine Builder.finish_eq_ok_iff.2 ⟨rfl, rfl, ?_, ?_⟩
  · simp only [reached, regionVars_empty]
    rfl
  · exact Function.check_of_wellFormed wellFormed.demoted

end Demotion

namespace Function

variable {f : Function}

theorem demote_eq_demoted (settled : f.Settled) (checked : f.check = .ok ()) :
    f.demote = .ok f.demoted := by
  have wellFormed := wellFormed_of_check checked
  have start : Demotion.Follows f (([] : List Block).flatMap Block.bindings) [] := by
    refine ⟨fun v param => ?_, fun v outside => rfl⟩
    rw [Demotion.definedBy, List.flatMap_nil, List.filterMap_nil, List.append_nil] at param
    exact (demotedVar_param wellFormed param).symm
  obtain ⟨ρ, emitted, follows⟩ :=
    Demotion.emitBlocks_reached wellFormed settled (List.nil_append _).symm start .plain
  have first : Demotion.reached f [] ⟨.plain, []⟩ = .reopen f := by
    simp [Demotion.reached, regionVars, Block.defined, Builder.reopen]
  have body := Demotion.substitute_eq_rename follows fun v read => wellFormed.defined_of_result read
  rw [first] at emitted
  refine bind_eq_ok.2 ⟨_, emitted, ?_⟩
  simp only [body, Demotion.checkPlain_body wellFormed, ok_bind]
  exact building_eq_ok.2 (Demotion.finish_reached wellFormed)

/-- The second function is the first with plain blocks, its variables renamed: those that regions
define get new ones, recorded as they were but plain, and the others are kept. -/
structure IsDemotion (f : Function) (r : Var → Var) (g : Function) : Prop where
  name : g.name = f.name
  params : g.params = f.params
  retTy : g.retTy = f.retTy
  dimNames : g.dimNames = f.dimNames
  blocks : g.blocks = f.blocks.map fun block => ⟨.plain, block.bindings.map (Binding.rename r)⟩
  body : g.body = f.body.rename r
  injective : ∀ v w, f.Allocates v → f.Allocates w → r v = r w → v = w
  fresh : ∀ v ∈ regionVars f.blocks, f.vars.length ≤ (r v).index ∧
    ∃ info, f.vars[v.index]? = some info ∧ g.vars[(r v).index]? = some { info with kind := .plain }
  others : ∀ v, v ∉ regionVars f.blocks → r v = v
  ofParams : ∀ v ∈ f.params, r v = v
  ofPlain : ∀ block ∈ f.blocks, block.kind = .plain → ∀ v ∈ block.defined, r v = v
  vars : f.vars <+: g.vars

theorem isDemotion_demoted (wellFormed : f.WellFormed) :
    f.IsDemotion f.demotedVar f.demoted where
  name := rfl
  params := rfl
  retTy := rfl
  dimNames := rfl
  blocks := rfl
  body := rfl
  injective _ _ := demotedVar_inj
  fresh v region := by
    refine ⟨?_, record_demotedVar wellFormed (List.append_nil _).symm (defined_of_region region) id⟩
    rw [demotedVar_of_region region]
    exact Nat.le_add_right _ _
  others v := demotedVar_of_not_region
  ofParams v := demotedVar_param wellFormed
  ofPlain block mem plain v defines :=
    demotedVar_of_not_region (wellFormed.plain_not_region mem plain defines)
  vars := List.prefix_append _ _

theorem IsDemotion.defined_eq {g : Function} {r : Var → Var} (h : f.IsDemotion r g) :
    g.defined = f.defined.map r := by
  have renamed : g.bindings = f.bindings.map (Binding.rename r) := by
    rw [bindings, bindings, h.blocks, List.flatMap_map, List.map_flatMap]
  rw [defined, defined, renamed, Binding.filterMap_defined_rename, List.map_append,
    map_eq_self h.ofParams, h.params]

end Function

namespace Builder

variable {b : Builder}

/-- A function that came from a regular history is demoted without fail, by one renaming. -/
theorem demote_of_history {actions : List Action} {body : Expr} {f : Function}
    (initial : b.Initial) (regular : b.Regular actions)
    (finished : (b.performAll actions).finish body = .ok f) :
    ∃ g r, f.demote = .ok g ∧ f.IsDemotion r g := by
  obtain ⟨settled, checked⟩ := settled_of_history initial regular finished
  exact ⟨f.demoted, f.demotedVar, Function.demote_eq_demoted settled checked,
    Function.isDemotion_demoted (Function.wellFormed_of_check checked)⟩

/-- The history of a function with every kind of binding that a region can hold:

    fn main(x: (2)) {
      y = add(x, x)
      dataflow { lv0 = multiply(y, x); m: match_shape(lv0, (2)); gv0 = add(lv0, m) }
      z = add(gv0, y); z
    }
-/
def mingling : List Action :=
  [.param "x" (some [.int 2]) (some (.tensor (some 1) .float32)),
    .emitNamed "y" (.ofOp .add [.var ⟨0⟩, .var ⟨0⟩]), .openRegion,
    .emit (.ofOp .multiply [.var ⟨1⟩, .var ⟨0⟩]),
    .fresh ⟨"m", .dataflow, some [.int 2], none⟩,
    .push (.matchShape (some ⟨3⟩) (.var ⟨2⟩) [.int 2]),
    .emitOutput (.ofOp .add [.var ⟨2⟩, .var ⟨3⟩]), .closeRegion,
    .emitNamed "z" (.ofOp .add [.var ⟨4⟩, .var ⟨1⟩])]

/-- The function that the history builds. -/
def mingled : Function :=
  (({ name := "main" } : Builder).performAll mingling).toFunction (.var ⟨5⟩)

/-- All that the region binds gets a new variable, and what is read is read under the new names. -/
theorem demote_of_history_mingled : ∃ g r, mingled.demote = .ok g ∧ mingled.IsDemotion r g ∧
    g.defined = [⟨0⟩, ⟨1⟩, ⟨6⟩, ⟨7⟩, ⟨8⟩, ⟨5⟩] ∧ [⟨2⟩, ⟨3⟩, ⟨4⟩].map r = [⟨6⟩, ⟨7⟩, ⟨8⟩] := by
  obtain ⟨g, r, demoted, isDemotion⟩ := demote_of_history (.new "main")
    (show Regular _ mingling by decide +kernel)
    (show (performAll _ mingling).finish (.var ⟨5⟩) = .ok mingled by decide +kernel)
  have names : mingled.demote.toOption.map Function.defined =
      some [⟨0⟩, ⟨1⟩, ⟨6⟩, ⟨7⟩, ⟨8⟩, ⟨5⟩] := by decide +kernel
  rw [demoted] at names
  have defined := Option.some.inj names
  refine ⟨g, r, demoted, isDemotion, defined, ?_⟩
  have old : mingled.defined = [⟨0⟩, ⟨1⟩, ⟨2⟩, ⟨3⟩, ⟨4⟩, ⟨5⟩] := by decide +kernel
  rw [isDemotion.defined_eq, old] at defined
  simp only [List.map_cons, List.cons.injEq] at defined
  simp [defined]

end Builder

end TensorIR
