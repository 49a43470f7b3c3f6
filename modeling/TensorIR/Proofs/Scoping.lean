import Mathlib.Logic.Basic
import TensorIR.Proofs.WellFormed

/-!
# The check accepts exactly the well-formed functions

`Function.check` is a walk that carries a scope of three lists. Here is what it decides, said
without a walk: `Function.WellFormed` speaks of positions in the list of blocks only, of what stands
before a binding in its own block and in the blocks before.

The two meet in `Scope.Tracks`. At every position the scope holds the definitions so far, split by
kind, and by whether the block at hand or an earlier one has made them. Under that invariant each
step of the walk succeeds exactly if a local condition holds, and `foldlM_isOk_iff` collects the
conditions of all steps, which is one induction for parameters and bindings alike. Only blocks,
which the walk also counts, need an induction of their own. `Function.Admitted` has the conditions
of the whole walk, and well-formedness is the same said without lists of what came before.
-/

namespace TensorIR

/-- A fold whose steps succeed under a condition on what came before, as an invariant of the state
shows, succeeds if the condition holds at every position. -/
theorem foldlM_isOk_iff {ε σ α : Type} {step : σ → α → Except ε σ} (holds : List α → σ → Prop)
    (good : List α → α → Prop)
    (ok : ∀ {done s x}, holds done s → ((∃ t, step s x = .ok t) ↔ good done x))
    (next : ∀ {done s x t}, holds done s → step s x = .ok t → holds (done ++ [x]) t)
    (done : List α) {s : σ} (start : holds done s) (xs : List α) :
    (∃ t, xs.foldlM step s = .ok t) ↔
      ∀ front x back, xs = front ++ x :: back → good (done ++ front) x := by
  induction xs generalizing done s with
  | nil =>
      refine iff_of_true ⟨s, rfl⟩ fun front x back split => ?_
      cases front <;> cases split
  | cons y ys ih =>
      constructor
      · rintro ⟨t, ran⟩ front x back split
        obtain ⟨mid, first, rest⟩ := foldlM_cons_eq_ok.1 ran
        cases front with
        | nil =>
            cases split
            rw [List.append_nil]
            exact (ok start).1 ⟨mid, first⟩
        | cons z front =>
            cases split
            have later := (ih _ (next start first)).1 ⟨t, rest⟩ front x back rfl
            rwa [List.append_assoc] at later
      · intro all
        obtain ⟨mid, first⟩ := (ok start).2 (by simpa using all [] y ys rfl)
        obtain ⟨t, rest⟩ := (ih _ (next start first)).2 fun front x back split => by
          have later := all (y :: front) x back (congrArg (y :: ·) split)
          rwa [List.append_assoc]
        exact ⟨t, foldlM_cons_eq_ok.2 ⟨mid, first, rest⟩⟩

theorem foldlM_invariant {ε σ α : Type} {step : σ → α → Except ε σ} (holds : List α → σ → Prop)
    (next : ∀ {done s x t}, holds done s → step s x = .ok t → holds (done ++ [x]) t)
    (done : List α) {xs : List α} {s t : σ} (start : holds done s)
    (ran : xs.foldlM step s = .ok t) :
    holds (done ++ xs) t := by
  induction xs generalizing done s with
  | nil =>
      cases ran
      rwa [List.append_nil]
  | cons y ys ih =>
      obtain ⟨mid, first, rest⟩ := foldlM_cons_eq_ok.1 ran
      have last := ih _ (next start first) rest
      rwa [List.append_assoc] at last

namespace Expr

mutual

/-- The dimension variables in the shapes of an expression and in the shapes annotated on its
calls. -/
def dimVars : Expr → List DimVar
  | shape s => s.vars
  | tuple fields => dimVarsAll fields
  | item t _ => t.dimVars
  | call head args => (head.shape.getD []).vars ++ dimVarsAll args
  | var _ | const _ | external _ | global _ => []

/-- The dimension variables that are mentioned in a list of expressions, from left to right. -/
def dimVarsAll : List Expr → List DimVar
  | [] => []
  | e :: es => e.dimVars ++ dimVarsAll es

end

theorem dimVarsAll_eq_flatMap (es : List Expr) : dimVarsAll es = es.flatMap dimVars := by
  induction es with
  | nil => rfl
  | cons e es ih => rw [dimVarsAll, ih, List.flatMap_cons]

end Expr

namespace Function

/-- The kind of a variable, if it is allocated. -/
def kind? (f : Function) (v : Var) : Option VarKind := f.vars[v.index]?.map VarInfo.kind

/-- Whether the value of a binding may read a variable, given the blocks before its own and the
bindings before it in its own: a parameter, a plain variable that is defined before, or a dataflow
variable that is defined before in the same block. -/
def InScope (f : Function) (before : List Block) (done : List Binding) (v : Var) : Prop :=
  v ∈ f.params ∨
    (v ∈ (before.flatMap Block.bindings ++ done).filterMap Binding.defined? ∧
      f.kind? v = some .plain) ∨
    (v ∈ done.filterMap Binding.defined? ∧ f.kind? v = some .dataflow)

/-- The rules that a function has to keep. Of variables alone, `Scoped` says that they are allocated
and that none is defined twice. -/
structure WellFormed (f : Function) : Prop extends f.Scoped where
  nonempty : ∀ block ∈ f.blocks, block.bindings ≠ []
  params : ∀ v ∈ f.params, f.kind? v = some .plain
  plainBlocks : ∀ block ∈ f.blocks, block.kind = .plain →
    ∀ v ∈ block.bindings.filterMap Binding.defined?, f.kind? v = some .plain
  inScope : ∀ before block after done x rest, f.blocks = before ++ block :: after →
    block.bindings = done ++ x :: rest → ∀ v ∈ x.value.reads, f.InScope before done v
  result : ∀ v ∈ f.body.reads,
    v ∈ f.params ∨ (v ∈ f.bindings.filterMap Binding.defined? ∧ f.kind? v = some .plain)
  annotations : ∀ info ∈ f.vars, ∀ d ∈ (info.shape.getD []).vars, d.index < f.dimNames.length
  shapes : ∀ x ∈ f.bindings, ∀ d ∈ x.value.dimVars, d.index < f.dimNames.length
  patterns : ∀ x ∈ f.bindings, ∀ d ∈ (x.pattern?.getD []).vars, d.index < f.dimNames.length
  resultShapes : ∀ d ∈ f.body.dimVars, d.index < f.dimNames.length

variable {f : Function} {kind : BlockKind} {scope scope' : Scope} {old new : List Var}

theorem isSome_kind? {v : Var} : (f.kind? v).isSome ↔ f.Allocates v := by
  rw [kind?, Option.isSome_map, Allocates]
  simp

namespace InScope

variable {before : List Block} {done : List Binding} {v : Var}

/-- What is in scope has been defined before. -/
theorem defined (h : f.InScope before done v) :
    v ∈ f.params ++ (before.flatMap Block.bindings ++ done).filterMap Binding.defined? := by
  rcases h with param | ⟨plain, -⟩ | ⟨dataflow, -⟩
  · exact List.mem_append_left _ param
  · exact List.mem_append_right _ plain
  · rw [List.filterMap_append]
    exact List.mem_append_right _ (List.mem_append_right _ dataflow)

theorem allocates (h : f.InScope before done v) (wellFormed : f.WellFormed) : f.Allocates v := by
  rcases h with param | ⟨-, known⟩ | ⟨-, known⟩
  · exact wellFormed.definitions v (List.mem_append_left _ param)
  all_goals exact isSome_kind?.1 (by rw [known]; rfl)

/-- What is in scope stays so to the end of the block. -/
theorem later (h : f.InScope before done v) (more : List Binding) :
    f.InScope before (done ++ more) v := by
  have grows (xs : List Binding) :
      xs.filterMap Binding.defined? ⊆ (xs ++ more).filterMap Binding.defined? :=
    List.filterMap_subset _ (List.subset_append_left xs more)
  refine h.imp id (Or.imp (And.imp_left fun plain => ?_) (And.imp_left fun inner => grows _ inner))
  rw [← List.append_assoc]
  exact grows _ plain

/-- What the block itself defines before a place is in scope there, of whatever kind it is. -/
theorem of_defined (defined : v ∈ done.filterMap Binding.defined?) (allocated : f.Allocates v) :
    f.InScope before done v := by
  obtain ⟨kind, known⟩ := Option.isSome_iff_exists.1 (isSome_kind?.2 allocated)
  cases kind with
  | plain =>
      refine .inr (.inl ⟨?_, known⟩)
      rw [List.filterMap_append]
      exact List.mem_append_right _ defined
  | dataflow => exact .inr (.inr ⟨defined, known⟩)

end InScope

/-! ### Single checks -/

theorem allocated_eq_ok {v : Var} {info : VarInfo} :
    f.allocated v = .ok info ↔ f.vars[v.index]? = some info := by
  rw [allocated]
  cases f.vars[v.index]? with
  | none => simp
  | some found => exact pure_eq_ok.trans Option.some_inj.symm

theorem checkRead_eq_ok {v : Var} :
    f.checkRead scope v = .ok () ↔ f.Allocates v ∧ scope.sees v = true := by
  simp only [checkRead]
  rw [bind_eq_ok]
  constructor
  · rintro ⟨info, found, h⟩
    refine ⟨allocates_of_allocated found, ?_⟩
    split at h
    · next seen => exact seen
    · split at h <;> exact absurd h throw_ne_ok
  · rintro ⟨allocated, seen⟩
    refine ⟨_, allocated_eq_ok.2 (List.getElem?_eq_getElem allocated), ?_⟩
    rw [if_pos seen]
    rfl

theorem checkExpr_eq_ok {e : Expr} : f.checkExpr scope e = .ok () ↔
    (∀ v ∈ e.reads, f.Allocates v ∧ scope.sees v = true) ∧
      ∀ d ∈ e.dimVars, d.index < f.dimNames.length := by
  induction e using Expr.induction with
  | var v =>
      rw [checkExpr, checkRead_eq_ok, Expr.reads, Expr.dimVars]
      simp
  | shape s =>
      rw [checkExpr, checkShape_eq_ok, Expr.reads, Expr.dimVars]
      simp
  | const _ | external _ | global _ =>
      rw [checkExpr, Expr.reads, Expr.dimVars]
      simp
  | item t i ih => rw [checkExpr, ih, Expr.reads, Expr.dimVars]
  | tuple es ih =>
      rw [checkExpr, checkExprs_eq_ok, Expr.reads, Expr.dimVars, Expr.readsAll_eq_flatMap,
        Expr.dimVarsAll_eq_flatMap, List.forall_mem_flatMap, List.forall_mem_flatMap,
        ← forall₂_and]
      exact forall₂_congr ih
  | call head es ih =>
      rw [checkExpr, check_bind_eq_ok, checkShape_eq_ok, checkExprs_eq_ok, Expr.reads,
        Expr.dimVars, Expr.readsAll_eq_flatMap, Expr.dimVarsAll_eq_flatMap,
        List.forall_mem_append, List.forall_mem_flatMap, List.forall_mem_flatMap, and_left_comm,
        ← forall₂_and]
      exact and_congr_right fun _ => forall₂_congr ih

end Function

/-! ### The scope at a position -/

/-- The scope after the definitions `old` of parameters and earlier blocks and the definitions `new`
of the block at hand. -/
structure Scope.Tracks (f : Function) (old new : List Var) (scope : Scope) : Prop where
  plain : ∀ v, v ∈ scope.plain ↔ v ∈ old ++ new ∧ f.kind? v = some .plain
  inner : ∀ v, v ∈ scope.inner ↔ v ∈ new ∧ f.kind? v = some .dataflow
  expired : ∀ v, v ∈ scope.expired ↔ v ∈ old ∧ f.kind? v = some .dataflow
  allocated : ∀ v ∈ old ++ new, f.Allocates v

namespace Scope.Tracks

variable {f : Function} {kind : BlockKind} {scope scope' : Scope} {old new : List Var} {v : Var}

theorem sees (h : scope.Tracks f old new) : scope.sees v = true ↔
    (v ∈ old ++ new ∧ f.kind? v = some .plain) ∨ (v ∈ new ∧ f.kind? v = some .dataflow) := by
  rw [Scope.sees, Bool.or_eq_true, List.contains_iff_mem, List.contains_iff_mem, h.plain, h.inner]

theorem defines (h : scope.Tracks f old new) : scope.defines v = true ↔ v ∈ old ++ new := by
  rw [Scope.defines, Bool.or_eq_true, Bool.or_eq_true, List.contains_iff_mem,
    List.contains_iff_mem, List.contains_iff_mem, h.plain, h.inner, h.expired]
  constructor
  · rintro ((⟨mem, -⟩ | ⟨mem, -⟩) | ⟨mem, -⟩)
    · exact mem
    · exact List.mem_append_right _ mem
    · exact List.mem_append_left _ mem
  · intro mem
    obtain ⟨k, kind⟩ := Option.isSome_iff_exists.1 (Function.isSome_kind?.2 (h.allocated v mem))
    cases k with
    | plain => exact .inl (.inl ⟨mem, kind⟩)
    | dataflow =>
        rcases List.mem_append.1 mem with mem | mem
        · exact .inr ⟨mem, kind⟩
        · exact .inl (.inr ⟨mem, kind⟩)

theorem empty (f : Function) : Scope.Tracks f [] [] {} where
  plain v := by simp
  inner v := by simp
  expired v := by simp
  allocated := List.forall_mem_nil _

/-- When a block ends its definitions become old ones. -/
theorem leaveBlock (h : scope.Tracks f old new) : scope.leaveBlock.Tracks f (old ++ new) [] where
  plain v := by
    rw [List.append_nil]
    exact h.plain v
  inner v := by simp [Scope.leaveBlock]
  expired v := by
    rw [Scope.leaveBlock, List.mem_append, h.inner, h.expired, List.mem_append, or_comm,
      or_and_right]
  allocated := by
    rw [List.append_nil]
    exact h.allocated

/-- Definitions of plain variables only are old ones at once. -/
theorem settle (h : scope.Tracks f old new) (plain : ∀ v ∈ new, f.kind? v = some .plain) :
    scope.Tracks f (old ++ new) [] where
  plain v := by
    rw [List.append_nil]
    exact h.plain v
  inner v := by
    rw [h.inner]
    refine iff_of_false ?_ (by simp)
    rintro ⟨mem, kind⟩
    rw [plain v mem] at kind
    cases kind
  expired v := by
    rw [h.expired, List.mem_append]
    refine and_congr_left fun kind => ⟨.inl, ?_⟩
    rintro (mem | mem)
    · exact mem
    · rw [plain v mem] at kind
      cases kind
  allocated := by
    rw [List.append_nil]
    exact h.allocated

/-- What a definition adds to the scope. -/
theorem define (h : scope.Tracks f old new)
    (checked : f.checkDefinition kind scope v = .ok scope') :
    scope'.Tracks f old (new ++ [v]) := by
  simp only [Function.checkDefinition] at checked
  obtain ⟨info, found, checked⟩ := bind_eq_ok.1 checked
  obtain ⟨-, checked⟩ := guard_eq_ok.1 checked
  have recorded : f.kind? v = some info.kind :=
    congrArg (Option.map VarInfo.kind) (Function.allocated_eq_ok.1 found)
  have allocated : ∀ u ∈ old ++ (new ++ [v]), f.Allocates u := by
    rw [← List.append_assoc]
    exact List.forall_mem_append.2 ⟨h.allocated,
      List.forall_mem_singleton.2 (Function.allocates_of_allocated found)⟩
  split at checked
  · next dataflow =>
      obtain ⟨-, checked⟩ := guard_eq_ok.1 checked
      cases checked
      rw [beq_iff_eq.1 dataflow] at recorded
      refine ⟨fun u => ?_, fun u => ?_, h.expired, allocated⟩
      · show u ∈ scope.plain ↔ _
        rw [h.plain]
        grind
      · rw [List.mem_cons, h.inner]
        grind
  · next notDataflow =>
      cases checked
      have kind : info.kind = .plain := by
        cases kind : info.kind with
        | plain => rfl
        | dataflow => exact absurd (beq_iff_eq.2 kind) notDataflow
      rw [kind] at recorded
      refine ⟨fun u => ?_, fun u => ?_, h.expired, allocated⟩
      · rw [List.mem_cons, h.plain]
        grind
      · show u ∈ scope.inner ↔ _
        rw [h.inner]
        grind

end Scope.Tracks

namespace Function

variable {f : Function} {kind : BlockKind} {scope scope' : Scope} {old new taken : List Var}

/-! ### The conditions at a position -/

/-- The variable can be defined in a block of the kind, where those of the list have been. -/
def Definable (f : Function) (kind : BlockKind) (taken : List Var) (v : Var) : Prop :=
  v ∉ taken ∧ f.Allocates v ∧ (kind = .plain → f.kind? v = some .plain)

/-- The variable can be read after the definitions `old` and those of the block at hand. -/
def Readable (f : Function) (old new : List Var) (v : Var) : Prop :=
  f.Allocates v ∧
    ((v ∈ old ++ new ∧ f.kind? v = some .plain) ∨ (v ∈ new ∧ f.kind? v = some .dataflow))

/-- The expression can stand after the definitions `old` and those of the block at hand. -/
def Admits (f : Function) (old new : List Var) (e : Expr) : Prop :=
  (∀ v ∈ e.reads, f.Readable old new v) ∧ ∀ d ∈ e.dimVars, d.index < f.dimNames.length

/-- A binding is in order after the variables `old` of earlier blocks and `new` of its own: all that
it mentions is known, and what it defines can be defined here. -/
def AdmitsBinding (f : Function) (kind : BlockKind) (old new : List Var) (x : Binding) : Prop :=
  f.Admits old new x.value ∧ (∀ d ∈ (x.pattern?.getD []).vars, d.index < f.dimNames.length) ∧
    ∀ v ∈ x.defined?, f.Definable kind (old ++ new) v

/-- A block is in order after the variables `old`: it is not empty, and each of its bindings is in
order after those before it. -/
def AdmitsBlock (f : Function) (old : List Var) (block : Block) : Prop :=
  block.bindings ≠ [] ∧ ∀ done x rest, block.bindings = done ++ x :: rest →
    f.AdmitsBinding block.kind old (done.filterMap Binding.defined?) x

theorem admits_iff (tracks : scope.Tracks f old new) {e : Expr} :
    f.checkExpr scope e = .ok () ↔ f.Admits old new e := by
  rw [checkExpr_eq_ok, Admits]
  exact and_congr_left fun _ => forall₂_congr fun v _ => and_congr_right fun _ => tracks.sees

theorem definable_iff (tracks : scope.Tracks f old new) {v : Var} :
    (∃ t, f.checkDefinition kind scope v = .ok t) ↔ f.Definable kind (old ++ new) v := by
  rw [Definable, ← tracks.defines, Bool.not_eq_true]
  constructor
  · rintro ⟨t, checked⟩
    simp only [checkDefinition] at checked
    obtain ⟨info, found, checked⟩ := bind_eq_ok.1 checked
    obtain ⟨fresh, checked⟩ := guard_eq_ok.1 checked
    refine ⟨Bool.not_eq_true _ ▸ fresh, allocates_of_allocated found, ?_⟩
    rintro rfl
    rw [kind?, allocated_eq_ok.1 found]
    split at checked
    · exact absurd rfl (guard_eq_ok.1 checked).1
    · next notDataflow =>
        cases kind : info.kind with
        | plain => exact congrArg some kind
        | dataflow => exact absurd (beq_iff_eq.2 kind) notDataflow
  · rintro ⟨fresh, allocated, plain⟩
    have found := List.getElem?_eq_getElem allocated
    simp only [checkDefinition, allocated_eq_ok.2 found, ok_bind, fresh, Bool.false_eq_true,
      if_false]
    rw [kind?, found] at plain
    split
    · next dataflow =>
        rw [if_neg]
        · exact ⟨_, rfl⟩
        · intro isPlain
          have kind := Option.some.inj (plain isPlain)
          rw [VarInfo.isDataflow, kind] at dataflow
          cases dataflow
    · exact ⟨_, rfl⟩

theorem tracks_binding (tracks : scope.Tracks f old new) {x : Binding}
    (checked : f.checkBinding kind scope x = .ok scope') :
    scope'.Tracks f old (new ++ x.defined?.toList) := by
  simp only [checkBinding] at checked
  obtain ⟨-, checked⟩ := check_bind_eq_ok.1 checked
  obtain ⟨-, checked⟩ := check_bind_eq_ok.1 checked
  split at checked
  · next v defined =>
      rw [defined]
      exact tracks.define checked
  · next defined =>
      cases checked
      rwa [defined, Option.toList_none, List.append_nil]

theorem admitsBinding_iff (tracks : scope.Tracks f old new) {x : Binding} :
    (∃ t, f.checkBinding kind scope x = .ok t) ↔ f.AdmitsBinding kind old new x := by
  rw [AdmitsBinding, ← admits_iff tracks, ← checkShape_eq_ok]
  simp only [checkBinding]
  cases defined : x.defined? with
  | none =>
      simp only [check_bind_eq_ok, pure_eq_ok]
      simp
  | some v =>
      simp only [check_bind_eq_ok, exists_and_left, Option.mem_some_iff, forall_eq']
      exact and_congr_right fun _ => and_congr_right fun _ => definable_iff tracks

theorem tracks_bindings (tracks : scope.Tracks f old []) {xs : List Binding}
    (checked : xs.foldlM (f.checkBinding kind) scope = .ok scope') :
    scope'.Tracks f old (xs.filterMap Binding.defined?) := by
  refine foldlM_invariant (fun done s => s.Tracks f old (done.filterMap Binding.defined?))
    (fun {done s x t} tracks one => ?_) [] tracks checked
  rw [defined_append]
  exact tracks_binding tracks one

theorem tracks_block (tracks : scope.Tracks f old []) {block : Block} {n : Nat}
    (checked : f.checkBlock n scope block = .ok scope') :
    scope'.Tracks f (old ++ block.bindings.filterMap Binding.defined?) [] := by
  simp only [checkBlock] at checked
  obtain ⟨-, checked⟩ := guard_eq_ok.1 checked
  obtain ⟨last, bindings, left⟩ := bind_eq_ok.1 checked
  cases left
  exact (tracks_bindings tracks bindings).leaveBlock

theorem admitsBlock_iff (tracks : scope.Tracks f old []) {block : Block} (n : Nat) :
    (∃ t, f.checkBlock n scope block = .ok t) ↔ f.AdmitsBlock old block := by
  have bindings := foldlM_isOk_iff
    (fun done s => s.Tracks f old (done.filterMap Binding.defined?))
    (fun done x => f.AdmitsBinding block.kind old (done.filterMap Binding.defined?) x)
    (fun tracks => admitsBinding_iff tracks)
    (fun {done s x t} tracks one => by
      rw [defined_append]
      exact tracks_binding tracks one)
    [] tracks block.bindings
  rw [AdmitsBlock]
  simp only [List.nil_append] at bindings
  rw [← bindings]
  simp only [checkBlock]
  constructor
  · rintro ⟨t, checked⟩
    obtain ⟨nonempty, checked⟩ := guard_eq_ok.1 checked
    obtain ⟨last, ran, -⟩ := bind_eq_ok.1 checked
    exact ⟨fun empty => nonempty (List.isEmpty_iff.2 empty), last, ran⟩
  · rintro ⟨nonempty, last, ran⟩
    refine ⟨last.leaveBlock, guard_eq_ok.2 ⟨fun empty => nonempty (List.isEmpty_iff.1 empty), ?_⟩⟩
    exact bind_eq_ok.2 ⟨last, ran, rfl⟩

/-- The walk over a list of blocks, and where it ends. -/
theorem admitsBlocks_iff (tracks : scope.Tracks f old []) (blocks : List Block) (n : Nat) :
    (∃ t, f.checkBlocks n scope blocks = .ok t) ↔
      ∀ before block after, blocks = before ++ block :: after →
        f.AdmitsBlock (old ++ (before.flatMap Block.bindings).filterMap Binding.defined?)
          block := by
  induction blocks generalizing old scope n with
  | nil =>
      refine iff_of_true ⟨scope, rfl⟩ fun before block after split => ?_
      cases before <;> cases split
  | cons first blocks ih =>
      rw [checkBlocks]
      constructor
      · rintro ⟨t, checked⟩ before block after split
        obtain ⟨mid, head, rest⟩ := bind_eq_ok.1 checked
        cases before with
        | nil =>
            cases split
            rw [List.flatMap_nil, List.filterMap_nil, List.append_nil]
            exact (admitsBlock_iff tracks n).1 ⟨mid, head⟩
        | cons b before =>
            cases split
            have later := (ih (tracks_block tracks head) _).1 ⟨t, rest⟩ before block after rfl
            rwa [List.append_assoc, ← List.filterMap_append, ← List.flatMap_cons]
              at later
      · intro all
        obtain ⟨mid, head⟩ := (admitsBlock_iff tracks n).2 (by simpa using all [] first blocks rfl)
        obtain ⟨t, rest⟩ := (ih (tracks_block tracks head) (n + 1)).2
          fun before block after split => by
            have later := all (first :: before) block after (congrArg (first :: ·) split)
            rwa [List.flatMap_cons, List.filterMap_append, ← List.append_assoc]
              at later
        exact ⟨t, bind_eq_ok.2 ⟨mid, head, rest⟩⟩

theorem tracks_blocks (tracks : scope.Tracks f old []) {blocks : List Block} {n : Nat}
    (checked : f.checkBlocks n scope blocks = .ok scope') :
    scope'.Tracks f (old ++ (blocks.flatMap Block.bindings).filterMap Binding.defined?) [] := by
  induction blocks generalizing old scope n with
  | nil =>
      cases checked
      rwa [List.flatMap_nil, List.filterMap_nil, List.append_nil]
  | cons first blocks ih =>
      rw [checkBlocks] at checked
      obtain ⟨mid, head, rest⟩ := bind_eq_ok.1 checked
      have last := ih (tracks_block tracks head) rest
      rwa [List.append_assoc, ← List.filterMap_append, ← List.flatMap_cons] at last

/-! ### The whole function -/

theorem definable_params (tracks : scope.Tracks f [] []) (params : List Var) :
    (∃ t, params.foldlM (f.checkDefinition .plain) scope = .ok t) ↔
      ∀ front v back, params = front ++ v :: back → f.Definable .plain front v := by
  have all := foldlM_isOk_iff (Scope.Tracks f []) (f.Definable .plain)
    (fun tracks => definable_iff tracks) (fun tracks one => tracks.define one) [] tracks params
  simpa only [List.nil_append] using all

theorem tracks_params {params : List Var} (plain : ∀ v ∈ params, f.kind? v = some .plain)
    (checked : params.foldlM (f.checkDefinition .plain) {} = .ok scope) :
    scope.Tracks f params [] := by
  have tracks : scope.Tracks f [] ([] ++ params) :=
    foldlM_invariant (Scope.Tracks f []) (fun tracks one => tracks.define one) []
      (Scope.Tracks.empty f) checked
  exact tracks.settle plain

theorem named_iff {vars : List VarInfo} {n : Nat} :
    (∀ d ∈ Shape.vars (vars.flatMap fun info => info.shape.getD []), d.index < n) ↔
      ∀ info ∈ vars, ∀ d ∈ (info.shape.getD []).vars, d.index < n := by
  simp only [Shape.vars, List.forall_mem_flatMap]

/-- The bindings of a function before one of them and after it. -/
theorem bindings_of_split {before after : List Block} {block : Block} {done rest : List Binding}
    {x : Binding} (splitBlocks : f.blocks = before ++ block :: after)
    (split : block.bindings = done ++ x :: rest) :
    f.bindings = (before.flatMap Block.bindings ++ done) ++
      x :: (rest ++ after.flatMap Block.bindings) := by
  rw [Function.bindings, splitBlocks, List.flatMap_append, List.flatMap_cons, split]
  simp

theorem InScope.mem_defined {before after : List Block} {block : Block} {done rest : List Binding}
    {x : Binding} {v : Var} (h : f.InScope before done v)
    (splitBlocks : f.blocks = before ++ block :: after)
    (split : block.bindings = done ++ x :: rest) : v ∈ f.defined := by
  rw [Function.defined, bindings_of_split splitBlocks split, List.filterMap_append,
    ← List.append_assoc]
  exact List.mem_append_left _ h.defined

/-- A well-formed function reads what it defines. -/
theorem WellFormed.defined_of_read (wellFormed : f.WellFormed) {x : Binding} (mem : x ∈ f.bindings)
    {v : Var} (read : v ∈ x.value.reads) : v ∈ f.defined := by
  obtain ⟨block, inFunction, inBlock⟩ := List.mem_flatMap.1 mem
  obtain ⟨before, after, splitBlocks⟩ := List.append_of_mem inFunction
  obtain ⟨done, rest, split⟩ := List.append_of_mem inBlock
  exact (wellFormed.inScope before block after done x rest splitBlocks split v read).mem_defined
    splitBlocks split

theorem WellFormed.defined_of_result (wellFormed : f.WellFormed) {v : Var}
    (read : v ∈ f.body.reads) : v ∈ f.defined := by
  rcases wellFormed.result v read with param | ⟨bound, -⟩
  · exact List.mem_append_left _ param
  · exact List.mem_append_right _ bound

/-- What the check asks for, position by position. -/
structure Admitted (f : Function) : Prop where
  annotations : ∀ info ∈ f.vars, ∀ d ∈ (info.shape.getD []).vars, d.index < f.dimNames.length
  params : ∀ front v back, f.params = front ++ v :: back → f.Definable .plain front v
  blocks : ∀ before block after, f.blocks = before ++ block :: after →
    f.AdmitsBlock (f.params ++ (before.flatMap Block.bindings).filterMap Binding.defined?) block
  body : f.Admits (f.params ++ f.bindings.filterMap Binding.defined?) [] f.body

theorem plain_of_definable {params : List Var}
    (definable : ∀ front v back, params = front ++ v :: back → f.Definable .plain front v) :
    ∀ v ∈ params, f.kind? v = some .plain := by
  intro v mem
  obtain ⟨front, back, split⟩ := List.append_of_mem mem
  exact (definable front v back split).2.2 rfl

theorem admitted_of_check (h : f.check = .ok ()) : f.Admitted := by
  simp only [check] at h
  obtain ⟨annotations, h⟩ := check_bind_eq_ok.1 h
  obtain ⟨entry, params, h⟩ := bind_eq_ok.1 h
  obtain ⟨last, blocks, body⟩ := bind_eq_ok.1 h
  have definable := (definable_params (Scope.Tracks.empty f) f.params).1 ⟨_, params⟩
  have tracks := tracks_params (plain_of_definable definable) params
  exact ⟨named_iff.1 (checkShape_eq_ok.1 annotations), definable,
    (admitsBlocks_iff tracks f.blocks 0).1 ⟨_, blocks⟩,
    (admits_iff (tracks_blocks tracks blocks)).1 body⟩

theorem check_of_admitted (h : f.Admitted) : f.check = .ok () := by
  obtain ⟨entry, params⟩ := (definable_params (Scope.Tracks.empty f) f.params).2 h.params
  have tracks := tracks_params (plain_of_definable h.params) params
  obtain ⟨last, blocks⟩ := (admitsBlocks_iff tracks f.blocks 0).2 h.blocks
  have body := (admits_iff (tracks_blocks tracks blocks)).2 h.body
  have annotations := checkShape_eq_ok.2 (named_iff.2 h.annotations)
  rw [check, annotations, ok_bind]
  exact bind_eq_ok.2 ⟨entry, params, bind_eq_ok.2 ⟨last, blocks, body⟩⟩

theorem Admitted.block (h : f.Admitted) {block : Block} (mem : block ∈ f.blocks) :
    ∃ old, f.AdmitsBlock old block := by
  obtain ⟨before, after, split⟩ := List.append_of_mem mem
  exact ⟨_, h.blocks before block after split⟩

theorem Admitted.binding (h : f.Admitted) {block : Block} {x : Binding}
    (inFunction : block ∈ f.blocks) (inBlock : x ∈ block.bindings) :
    ∃ old new, f.AdmitsBinding block.kind old new x := by
  obtain ⟨old, -, bindings⟩ := h.block inFunction
  obtain ⟨done, rest, split⟩ := List.append_of_mem inBlock
  exact ⟨old, _, bindings done x rest split⟩

theorem wellFormed_of_check (h : f.check = .ok ()) : f.WellFormed := by
  have admitted := admitted_of_check h
  refine { scoped_of_check h with
    nonempty := fun block mem => ?_
    params := plain_of_definable admitted.params
    plainBlocks := fun block inFunction isPlain v defines => ?_
    inScope := fun before block after done x rest splitBlocks split v read => ?_
    result := fun v read => ?_
    annotations := admitted.annotations
    shapes := fun x mem => ?_
    patterns := fun x mem => ?_
    resultShapes := admitted.body.2 }
  · obtain ⟨old, nonempty, -⟩ := admitted.block mem
    exact nonempty
  · obtain ⟨x, inBlock, defined⟩ := List.mem_filterMap.1 defines
    obtain ⟨old, new, -, -, definable⟩ := admitted.binding inFunction inBlock
    exact (definable v defined).2.2 isPlain
  · have binding := (admitted.blocks before block after splitBlocks).2 done x rest split
    rcases (binding.1.1 v read).2 with ⟨mem, kind⟩ | here
    · rw [List.append_assoc, List.mem_append, ← List.filterMap_append] at mem
      exact mem.imp_right fun mem => .inl ⟨mem, kind⟩
    · exact .inr (.inr here)
  · rcases (admitted.body.1 v read).2 with ⟨mem, kind⟩ | ⟨mem, -⟩
    · rw [List.append_nil, List.mem_append] at mem
      exact mem.imp_right fun mem => ⟨mem, kind⟩
    · cases mem
  · obtain ⟨block, inFunction, inBlock⟩ := List.mem_flatMap.1 mem
    obtain ⟨old, new, admits, -, -⟩ := admitted.binding inFunction inBlock
    exact admits.2
  · obtain ⟨block, inFunction, inBlock⟩ := List.mem_flatMap.1 mem
    obtain ⟨old, new, -, pattern, -⟩ := admitted.binding inFunction inBlock
    exact pattern

theorem WellFormed.admitsBinding (h : f.WellFormed) {before after : List Block} {block : Block}
    {done rest : List Binding} {x : Binding} (splitBlocks : f.blocks = before ++ block :: after)
    (split : block.bindings = done ++ x :: rest) :
    f.AdmitsBinding block.kind
      (f.params ++ (before.flatMap Block.bindings).filterMap Binding.defined?)
      (done.filterMap Binding.defined?) x := by
  have inFunction : block ∈ f.blocks := by
    rw [splitBlocks]
    simp
  have inBlock : x ∈ block.bindings := by
    rw [split]
    simp
  have mem := mem_bindings inFunction inBlock
  refine ⟨⟨fun v read => ⟨h.reads x mem v read, ?_⟩, h.shapes x mem⟩, h.patterns x mem,
    fun v defines => ⟨?_, ?_, fun isPlain => ?_⟩⟩
  · rw [List.append_assoc, List.mem_append, ← List.filterMap_append]
    rcases h.inScope before block after done x rest splitBlocks split v read with
      param | plain | dataflow
    · exact .inl ⟨.inl param, h.params v param⟩
    · exact .inl ⟨.inr plain.1, plain.2⟩
    · exact .inr dataflow
  · have fresh := not_defined_before h.toScoped (bindings_of_split splitBlocks split) defines
    rw [List.append_assoc, List.mem_append, ← List.filterMap_append]
    exact not_or.2 fresh
  · exact h.definitions v (Function.mem_defined mem defines)
  · exact h.plainBlocks block inFunction isPlain v (List.mem_filterMap.2 ⟨x, inBlock, defines⟩)

theorem WellFormed.admitted (h : f.WellFormed) : f.Admitted := by
  refine ⟨h.annotations, fun front v back split => ?_, fun before block after splitBlocks => ?_,
    fun v read => ⟨h.toScoped.body v read, ?_⟩, h.resultShapes⟩
  · have mem : v ∈ f.params := by
      rw [split]
      simp
    have distinct := (List.nodup_append.1 h.nodup).1
    rw [split, List.nodup_append] at distinct
    exact ⟨fun before => distinct.2.2 v before v List.mem_cons_self rfl,
      h.definitions v (List.mem_append_left _ mem), fun _ => h.params v mem⟩
  · refine ⟨h.nonempty block ?_, fun done x rest split => h.admitsBinding splitBlocks split⟩
    rw [splitBlocks]
    simp
  · rw [List.append_nil, List.mem_append]
    rcases h.result v read with param | ⟨mem, kind⟩
    · exact .inl ⟨.inl param, h.params v param⟩
    · exact .inl ⟨.inr mem, kind⟩

theorem check_of_wellFormed (h : f.WellFormed) : f.check = .ok () := check_of_admitted h.admitted

/-- The check accepts exactly the well-formed functions. -/
theorem check_eq_ok_iff (f : Function) : f.check = .ok () ↔ f.WellFormed :=
  ⟨wellFormed_of_check, check_of_wellFormed⟩

end Function

end TensorIR
