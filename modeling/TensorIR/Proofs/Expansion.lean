import Mathlib.Data.List.Flatten
import Mathlib.Data.List.Nodup
import Mathlib.Data.List.Perm.Basic
import TensorIR.Proofs.Dominance
import TensorIR.Proofs.Scoping

/-!
# Expanding bindings in place

Two passes put a few bindings in the place of one and leave everything else where it is. In the few
there may be a definition of a variable that is new. An `Expansion` says beside which bindings a
variable is new, what is recorded of it, and which bindings replace a binding once the new variables
have their names; these are the positions after all old variables, in program order. With that the
expanded function can be written down at once, `Expansion.apply`.

`Expansion.Lawful` is what a pass has to show of its expansion, one binding at a time: the bindings
define what the old one defined and the new variable, and read what it read or what they define
themselves. The expanded function is then well formed. Nothing is renamed, so what was in scope at
a place is so still, and a place in the expanded function is a place in the expansion of one
binding.
-/

namespace TensorIR

/-- The kind of a variable that a block defines for itself. -/
def BlockKind.varKind : BlockKind → VarKind
  | plain => .plain
  | dataflow => .dataflow

/-- A way to put bindings in the place of one, with a new variable beside the old one where they
need it. -/
structure Expansion where
  /-- The variable of a binding beside which a new one is allocated. -/
  beside? : Binding → Option Var
  /-- What is recorded of the new variable, apart from its kind. -/
  record : Binding → VarInfo
  /-- The bindings in the place of one, given the new variable beside each. -/
  expand : (Var → Var) → Binding → List Binding

/-- A place in a list of expanded elements lies in the expansion of one of them. -/
theorem exists_of_flatMap_split {α β : Type} {h : α → List β} {xs : List α} {front back : List β}
    {y : β} (split : xs.flatMap h = front ++ y :: back) :
    ∃ done x rest pre post, xs = done ++ x :: rest ∧ h x = pre ++ y :: post ∧
      front = done.flatMap h ++ pre := by
  induction xs generalizing front with
  | nil => simp at split
  | cons x xs ih =>
      rw [List.flatMap_cons, List.append_eq_append_iff] at split
      obtain ⟨mid, rfl, later⟩ | ⟨mid, here, later⟩ := split
      · obtain ⟨done, z, rest, pre, post, rfl, expanded, rfl⟩ := ih later
        exact ⟨x :: done, z, rest, pre, post, rfl, expanded, by simp⟩
      · cases mid with
        | nil =>
            have begins : xs.flatMap h = [] ++ y :: back := later.symm
            obtain ⟨done, z, rest, pre, post, rfl, expanded, same⟩ := ih begins
            refine ⟨x :: done, z, rest, pre, post, rfl, expanded, ?_⟩
            simp [here, ← same]
        | cons w mid =>
            cases later
            exact ⟨[], x, xs, front, mid, rfl, here, rfl⟩

namespace Expansion

variable (E : Expansion) (f : Function)

/-- The variables beside which the bindings get new ones. -/
def besides (xs : List Binding) : List Var := xs.filterMap E.beside?

/-- The records of the variables that are new in a list of blocks. -/
def records (blocks : List Block) : List VarInfo :=
  blocks.flatMap fun block => (block.bindings.filter fun x => (E.beside? x).isSome).map fun x =>
    { E.record x with kind := block.kind.varKind }

/-- The new variable beside another. -/
def newVar (v : Var) : Var := ⟨f.vars.length + (E.besides f.bindings).idxOf v⟩

/-- The bindings in the place of one binding of the function. -/
def expanded (x : Binding) : List Binding := E.expand (E.newVar f) x

/-- The block with the bindings in the place of each of its own. -/
def expandedBlock (block : Block) : Block := ⟨block.kind, block.bindings.flatMap (E.expanded f)⟩

/-- The function with every binding expanded where it stands. -/
def apply : Function :=
  { f with blocks := f.blocks.map (E.expandedBlock f), vars := f.vars ++ E.records f.blocks }

/-- What an expansion has to keep to at a binding. -/
structure LawfulAt (x : Binding) : Prop where
  beside : ∀ v, E.beside? x = some v → x.defined? = some v
  defines : ∀ r, ((E.expand r x).filterMap Binding.defined?).Perm
    (x.defined?.toList ++ (E.beside? x).toList.map r)
  nonempty : ∀ r, E.expand r x ≠ []
  patterns : (∀ r, E.expand r x = [x]) ∨
    x.pattern? = none ∧ ∀ r, ∀ y ∈ E.expand r x, y.pattern? = none
  reads : ∀ r, ReadsAfter x.value.reads (E.expand r x)
  annotations : x ∈ f.bindings → (E.beside? x).isSome →
    ∀ d ∈ ((E.record x).shape.getD []).vars, d.index < f.dimNames.length
  shapes : x ∈ f.bindings → ∀ r, ∀ y ∈ E.expand r x,
    ∀ d ∈ y.value.dimVars, d.index < f.dimNames.length

/-- The expansion keeps to its conditions at every binding, whether the function has it or not. -/
def Lawful : Prop := ∀ x, E.LawfulAt f x

/-- The second function is the first with every binding expanded where it stands. The new variables
are one for each binding that has one, after all old ones, and of the kind of their block. -/
structure Expands (r : Var → Var) (g : Function) : Prop where
  name : g.name = f.name
  params : g.params = f.params
  retTy : g.retTy = f.retTy
  dimNames : g.dimNames = f.dimNames
  body : g.body = f.body
  blocks : g.blocks = f.blocks.map fun block => ⟨block.kind, block.bindings.flatMap (E.expand r)⟩
  vars : g.vars = f.vars ++ E.records f.blocks
  fresh : ∀ v ∈ E.besides f.bindings, f.vars.length ≤ (r v).index
  distinct : ∀ v ∈ E.besides f.bindings, ∀ w ∈ E.besides f.bindings, r v = r w → v = w
  recorded : ∀ block ∈ f.blocks, ∀ x ∈ block.bindings, ∀ v, E.beside? x = some v →
    g.vars[(r v).index]? = some { E.record x with kind := block.kind.varKind }

variable {E f} {v w : Var} {info : VarInfo} {block : Block} {x : Binding}

theorem Expands.bindings {r : Var → Var} {g : Function} (expands : E.Expands f r g) :
    g.bindings = f.bindings.flatMap (E.expand r) := by
  rw [Function.bindings, expands.blocks, List.flatMap_map, Function.bindings, List.flatMap_assoc]

theorem bindings_expandedBlocks (blocks : List Block) :
    (blocks.map (E.expandedBlock f)).flatMap Block.bindings =
      (blocks.flatMap Block.bindings).flatMap (E.expanded f) := by
  rw [List.flatMap_map, List.flatMap_assoc]
  rfl

theorem bindings_apply : (E.apply f).bindings = f.bindings.flatMap (E.expanded f) :=
  bindings_expandedBlocks f.blocks

/-- A binding may stay as it is. -/
theorem LawfulAt.kept (wellFormed : f.WellFormed) (noneBeside : E.beside? x = none)
    (same : ∀ r, E.expand r x = [x]) : E.LawfulAt f x where
  beside v beside := absurd (noneBeside.symm.trans beside) nofun
  defines r := by
    rw [same, noneBeside, defined_cons]
    rfl
  nonempty r := same r ▸ List.cons_ne_nil x []
  patterns := .inl same
  reads r := same r ▸ ⟨fun _ => id, trivial⟩
  annotations _ beside := by
    rw [noneBeside] at beside
    cases beside
  shapes mem r y inExpansion := by
    rw [same, List.mem_singleton] at inExpansion
    exact inExpansion ▸ wellFormed.shapes x mem

/-! ### New variables -/

theorem besides_append (xs ys : List Binding) :
    E.besides (xs ++ ys) = E.besides xs ++ E.besides ys := List.filterMap_append

theorem records_append (xs ys : List Block) :
    E.records (xs ++ ys) = E.records xs ++ E.records ys := List.flatMap_append

theorem records_bindings (kind : BlockKind) (xs ys : List Binding) :
    E.records [⟨kind, xs ++ ys⟩] = E.records [⟨kind, xs⟩] ++ E.records [⟨kind, ys⟩] := by
  simp [records]

theorem records_empty (before : List Block) (kind : BlockKind) :
    E.records (before ++ [⟨kind, []⟩]) = E.records before := by
  simp [records]

theorem mem_besides {xs : List Binding} : v ∈ E.besides xs ↔ ∃ x ∈ xs, E.beside? x = some v :=
  List.mem_filterMap

theorem length_records (blocks : List Block) :
    (E.records blocks).length = (E.besides (blocks.flatMap Block.bindings)).length := by
  rw [records, besides, List.length_flatMap, List.filterMap_flatMap, List.length_flatMap]
  refine congrArg List.sum (List.map_congr_left fun block _ => ?_)
  rw [List.length_map]
  induction block.bindings with
  | nil => rfl
  | cons x xs ih =>
      rw [List.filter_cons, List.filterMap_cons]
      cases E.beside? x with
      | none => exact ih
      | some v => exact congrArg (· + 1) ih

theorem le_newVar (v : Var) : f.vars.length ≤ (E.newVar f v).index := Nat.le_add_right _ _

theorem newVar_inj (mem : v ∈ E.besides f.bindings) (same : E.newVar f v = E.newVar f w) :
    v = w := by
  have index : (E.besides f.bindings).idxOf v = (E.besides f.bindings).idxOf w := by
    simpa [newVar] using same
  exact (List.idxOf_inj mem).1 index

/-- The bindings before one account for the new variables before its own. -/
theorem newVar_of_split {done rest : List Binding} (split : f.bindings = done ++ x :: rest)
    (beside : E.beside? x = some v) (new : v ∉ E.besides done) :
    E.newVar f v = ⟨f.vars.length + (E.besides done).length⟩ := by
  have here : E.besides (x :: rest) = v :: E.besides rest := List.filterMap_cons_some beside
  rw [newVar, split, besides_append, List.idxOf_append_of_notMem new, here, List.idxOf_cons_self]
  rfl

namespace Lawful

variable (lawful : E.Lawful f)
include lawful

theorem besides_sublist (xs : List Binding) :
    (E.besides xs).Sublist (xs.filterMap Binding.defined?) := by
  induction xs with
  | nil => exact List.Sublist.refl _
  | cons x xs ih =>
      rw [besides, List.filterMap_cons, List.filterMap_cons]
      cases beside : E.beside? x with
      | none =>
          cases x.defined? with
          | none => exact ih
          | some v => exact ih.cons v
      | some v =>
          rw [(lawful x).beside v beside]
          exact ih.cons_cons v

theorem nodup_besides (wellFormed : f.WellFormed) : (E.besides f.bindings).Nodup :=
  (List.nodup_append.1 wellFormed.nodup).2.1.sublist (lawful.besides_sublist f.bindings)

/-- No binding before one gets a new variable beside the same. -/
theorem not_besides_before (wellFormed : f.WellFormed) {done rest : List Binding}
    (split : f.bindings = done ++ x :: rest) (beside : E.beside? x = some v) :
    v ∉ E.besides done := by
  intro mem
  have before := (lawful.besides_sublist done).subset mem
  exact (not_defined_before wellFormed.toScoped split ((lawful x).beside v beside)).2 before

/-- What is recorded of the new variable beside that of a binding. -/
theorem record_newVar (wellFormed : f.WellFormed) {before after : List Block}
    {done rest : List Binding} (splitBlocks : f.blocks = before ++ block :: after)
    (split : block.bindings = done ++ x :: rest) (beside : E.beside? x = some v) :
    (E.apply f).vars[(E.newVar f v).index]? =
      some { E.record x with kind := block.kind.varKind } := by
  have place := Function.bindings_of_split splitBlocks split
  have records : E.records f.blocks = E.records (before ++ [⟨block.kind, done⟩]) ++
      ({ E.record x with kind := block.kind.varKind } ::
        (E.records [⟨block.kind, rest⟩] ++ E.records after)) := by
    have whole : block = ⟨block.kind, done ++ ([x] ++ rest)⟩ := by
      obtain ⟨kind, bindings⟩ := block
      exact congrArg _ split
    have one : E.records [⟨block.kind, [x]⟩] =
        [{ E.record x with kind := block.kind.varKind }] := by
      simp [Expansion.records, beside]
    rw [splitBlocks, List.append_cons, records_append, records_append, records_append, whole,
      records_bindings, records_bindings, one]
    simp
  have length : (E.besides (before.flatMap Block.bindings ++ done)).length =
      (E.records (before ++ [⟨block.kind, done⟩])).length := by
    rw [length_records]
    simp
  rw [newVar_of_split place beside (lawful.not_besides_before wellFormed place beside), length]
  show (f.vars ++ E.records f.blocks)[_]? = _
  rw [records, ← List.append_assoc, ← List.length_append,
    List.getElem?_append_right (Nat.le_refl _), Nat.sub_self]
  rfl

theorem kind?_newVar (wellFormed : f.WellFormed) (inFunction : block ∈ f.blocks)
    (inBlock : x ∈ block.bindings) (beside : E.beside? x = some v) :
    (E.apply f).kind? (E.newVar f v) = some block.kind.varKind := by
  obtain ⟨before, after, splitBlocks⟩ := List.append_of_mem inFunction
  obtain ⟨done, rest, split⟩ := List.append_of_mem inBlock
  exact congrArg (Option.map VarInfo.kind)
    (lawful.record_newVar wellFormed splitBlocks split beside)

theorem expands (wellFormed : f.WellFormed) : E.Expands f (E.newVar f) (E.apply f) where
  name := rfl
  params := rfl
  retTy := rfl
  dimNames := rfl
  body := rfl
  blocks := rfl
  vars := rfl
  fresh v _ := le_newVar v
  distinct _ mem _ _ := newVar_inj mem
  recorded block inFunction x inBlock v beside := by
    obtain ⟨before, after, splitBlocks⟩ := List.append_of_mem inFunction
    obtain ⟨done, rest, split⟩ := List.append_of_mem inBlock
    exact lawful.record_newVar wellFormed splitBlocks split beside

/-! ### The expanded function is well formed -/

/-- What expanded bindings define: what the old ones did, and the new variables. -/
theorem defined_expanded (xs : List Binding) :
    ((xs.flatMap (E.expanded f)).filterMap Binding.defined?).Perm
      (xs.filterMap Binding.defined? ++ (E.besides xs).map (E.newVar f)) := by
  have each := List.Perm.flatMap_left xs fun x _ => (lawful x).defines (E.newVar f)
  rw [List.filterMap_flatMap]
  refine (each.trans (List.flatMap_append_perm xs _ _).symm).trans (List.Perm.of_eq ?_)
  rw [besides, List.filterMap_eq_flatMap_toList, List.filterMap_eq_flatMap_toList, List.map_flatMap]

theorem mem_defined_expanded {xs : List Binding} :
    v ∈ (xs.flatMap (E.expanded f)).filterMap Binding.defined? ↔
      v ∈ xs.filterMap Binding.defined? ∨ ∃ u ∈ E.besides xs, E.newVar f u = v := by
  rw [(lawful.defined_expanded xs).mem_iff, List.mem_append, List.mem_map]

theorem defined_apply : (E.apply f).defined.Perm
    (f.defined ++ (E.besides f.bindings).map (E.newVar f)) := by
  rw [Function.defined, Function.defined, List.append_assoc, bindings_apply]
  exact (lawful.defined_expanded f.bindings).append_left f.params

omit lawful in
theorem kind?_old (allocated : f.Allocates v) : (E.apply f).kind? v = f.kind? v :=
  congrArg (Option.map VarInfo.kind) (List.getElem?_append_left allocated)

theorem allocates_defined (wellFormed : f.WellFormed) :
    ∀ v ∈ (E.apply f).defined, (E.apply f).Allocates v := by
  intro v mem
  rcases List.mem_append.1 (lawful.defined_apply.mem_iff.1 mem) with old | new
  · rw [← Function.isSome_kind?, kind?_old (wellFormed.definitions v old),
      Function.isSome_kind?]
    exact wellFormed.definitions v old
  · obtain ⟨u, beside, rfl⟩ := List.mem_map.1 new
    obtain ⟨x, mem, beside⟩ := mem_besides.1 beside
    obtain ⟨block, inFunction, inBlock⟩ := List.mem_flatMap.1 mem
    rw [← Function.isSome_kind?, lawful.kind?_newVar wellFormed inFunction inBlock beside]
    rfl

theorem nodup_defined (wellFormed : f.WellFormed) : (E.apply f).defined.Nodup := by
  refine lawful.defined_apply.nodup_iff.2 (List.nodup_append.2 ⟨wellFormed.nodup, ?_, ?_⟩)
  · refine (lawful.nodup_besides wellFormed).map_on fun u mem w _ same => ?_
    exact newVar_inj mem same
  · intro u old w new same
    obtain ⟨v, -, rfl⟩ := List.mem_map.1 new
    have allocated : u.index < f.vars.length := wellFormed.definitions u old
    have past := le_newVar (E := E) (f := f) v
    rw [← same] at past
    omega

/-- What was in scope at a place is in scope where the expansion of that place begins. -/
theorem inScope_expanded {before : List Block} {done : List Binding} (wellFormed : f.WellFormed)
    (visible : f.InScope before done v) :
    (E.apply f).InScope (before.map (E.expandedBlock f)) (done.flatMap (E.expanded f)) v := by
  have kept := kind?_old (E := E) (visible.allocates wellFormed)
  rcases visible with param | ⟨defined, plain⟩ | ⟨defined, dataflow⟩
  · exact .inl param
  · refine .inr (.inl ⟨?_, kept.trans plain⟩)
    rw [bindings_expandedBlocks, ← List.flatMap_append, lawful.mem_defined_expanded]
    exact .inl defined
  · exact .inr (.inr ⟨lawful.mem_defined_expanded.2 (.inl defined), kept.trans dataflow⟩)

theorem inScope_apply (wellFormed : f.WellFormed) (before' : List Block) (block' : Block)
    (after' : List Block) (done' : List Binding) (y : Binding) (rest' : List Binding)
    (splitBlocks : (E.apply f).blocks = before' ++ block' :: after')
    (split : block'.bindings = done' ++ y :: rest') :
    ∀ v ∈ y.value.reads, (E.apply f).InScope before' done' v := by
  obtain ⟨before, tail, blocks, rfl, tailEq⟩ := List.map_eq_append_iff.1 splitBlocks
  obtain ⟨block, after, rfl, rfl, rfl⟩ := List.map_eq_cons_iff.1 tailEq
  obtain ⟨done, x, rest, pre, post, here, expanded, rfl⟩ := exists_of_flatMap_split split
  intro v read
  have reads := (lawful x).reads (E.newVar f)
  rw [show E.expand _ x = _ from expanded, readsAfter_append] at reads
  rcases List.mem_append.1 (reads.2.1 v read) with old | new
  · exact (lawful.inScope_expanded wellFormed
      (wellFormed.inScope before block after done x rest blocks here v old)).later pre
  · have defined : v ∈ (done.flatMap (E.expanded f) ++ pre).filterMap Binding.defined? := by
      rw [List.filterMap_append]
      exact List.mem_append_right _ new
    refine Function.InScope.of_defined defined (lawful.allocates_defined wellFormed v ?_)
    have inBlock : v ∈ (block.bindings.flatMap (E.expanded f)).filterMap Binding.defined? := by
      rw [show block.bindings.flatMap (E.expanded f) = _ from split, List.filterMap_append]
      exact List.mem_append_left _ defined
    obtain ⟨z, mem, defines⟩ := List.mem_filterMap.1 inBlock
    have expandedIn : E.expandedBlock f block ∈ (E.apply f).blocks :=
      List.mem_map_of_mem (by simp [blocks])
    exact Function.mem_defined (Function.mem_bindings expandedIn mem) defines

omit lawful in
theorem forall_bindings {P : Binding → Prop} : (∀ y ∈ (E.apply f).bindings, P y) ↔
    ∀ x ∈ f.bindings, ∀ y ∈ E.expanded f x, P y := by
  rw [bindings_apply, List.forall_mem_flatMap]

theorem toScoped (wellFormed : f.WellFormed) : (E.apply f).Scoped where
  nodup := lawful.nodup_defined wellFormed
  definitions := lawful.allocates_defined wellFormed
  reads := by
    intro y mem v read
    obtain ⟨block, inFunction, inBlock⟩ := List.mem_flatMap.1 mem
    obtain ⟨before, after, splitBlocks⟩ := List.append_of_mem inFunction
    obtain ⟨done, rest, split⟩ := List.append_of_mem inBlock
    have visible := lawful.inScope_apply wellFormed before block after done y rest splitBlocks
      split v read
    exact lawful.allocates_defined wellFormed v (visible.mem_defined splitBlocks split)
  body := by
    intro v read
    have defined := lawful.defined_apply.mem_iff.2
      (List.mem_append_left _ (wellFormed.defined_of_result read))
    exact lawful.allocates_defined wellFormed v defined

theorem wellFormed (wellFormed : f.WellFormed) : (E.apply f).WellFormed where
  toScoped := lawful.toScoped wellFormed
  nonempty := by
    show ∀ block ∈ f.blocks.map (E.expandedBlock f), block.bindings ≠ []
    rw [List.forall_mem_map]
    intro block mem empty
    obtain ⟨x, inBlock⟩ := List.exists_mem_of_ne_nil _ (wellFormed.nonempty block mem)
    exact (lawful x).nonempty _ (List.flatMap_eq_nil_iff.1 empty x inBlock)
  params := by
    intro v param
    rw [kind?_old (wellFormed.definitions v (List.mem_append_left _ param))]
    exact wellFormed.params v param
  plainBlocks := by
    show ∀ block ∈ f.blocks.map (E.expandedBlock f), _
    rw [List.forall_mem_map]
    intro block mem plain v defined
    rcases lawful.mem_defined_expanded.1 defined with old | ⟨u, beside, rfl⟩
    · obtain ⟨x, inBlock, defines⟩ := List.mem_filterMap.1 old
      have inFunction := Function.mem_defined (Function.mem_bindings mem inBlock) defines
      rw [kind?_old (wellFormed.definitions v inFunction)]
      exact wellFormed.plainBlocks block mem plain v old
    · obtain ⟨x, inBlock, beside⟩ := mem_besides.1 beside
      rw [lawful.kind?_newVar wellFormed mem inBlock beside, show block.kind = .plain from plain]
      rfl
  inScope := lawful.inScope_apply wellFormed
  result := by
    intro v read
    refine (wellFormed.result v read).imp_right fun ⟨bound, plain⟩ => ⟨?_, ?_⟩
    · rw [bindings_apply, lawful.mem_defined_expanded]
      exact .inl bound
    · rw [kind?_old (wellFormed.definitions v (List.mem_append_right _ bound)), plain]
  annotations := by
    refine List.forall_mem_append.2 ⟨wellFormed.annotations, ?_⟩
    intro info mem
    obtain ⟨block, inFunction, new⟩ := List.mem_flatMap.1 mem
    obtain ⟨x, splits, rfl⟩ := List.mem_map.1 new
    obtain ⟨inBlock, beside⟩ := List.mem_filter.1 splits
    exact (lawful x).annotations (Function.mem_bindings inFunction inBlock) beside
  shapes := by
    rw [forall_bindings]
    exact fun x mem => (lawful x).shapes mem (E.newVar f)
  patterns := by
    rw [forall_bindings]
    intro x mem
    rcases (lawful x).patterns with same | ⟨-, none⟩
    · rw [expanded, same, List.forall_mem_singleton]
      exact wellFormed.patterns x mem
    · intro y inExpansion
      rw [none _ y inExpansion]
      exact List.forall_mem_nil _
  resultShapes := wellFormed.resultShapes

end Lawful

end Expansion

end TensorIR
