import TensorIR.Proofs.Alpha.Comparing
import TensorIR.Proofs.Alpha.Graph

/-!
# The comparison decides equality up to renaming

The comparison of two well-formed functions has a result, which is positive exactly if one renames
to the other.

If it is positive then the functions are alike under a correspondence, and become one another under
the maps that it is the graph of. Everything that a function uses has a partner, which makes the
maps one-to-one there. Conversely two maps that are one-to-one on what a well-formed function uses
make a correspondence, and a comparison of functions alike succeeds.

A comparison could also end without a result, when it looks up a variable that is not allocated. It
looks up defined variables only, and a well-formed function has allocated those.
-/

namespace TensorIR

open Relator

variable {κ : Correspondence} {φ : Var → Var} {δ : DimVar → DimVar}

/-! ### All that a function uses has a partner -/

theorem Shape.vars_alike {s t : Option Shape} (h : Option.Rel (Shape.Alike κ) s t) :
    List.Forall₂ κ.dims (s.getD []).vars (t.getD []).vars :=
  (Shape.alike_getD h).vars

theorem Expr.Alike.dimVars {e f : Expr} (h : Expr.Alike κ e f) :
    List.Forall₂ κ.dims e.dimVars f.dimVars := by
  have ofAll {es fs : List Expr}
      (ih : List.Forall₂ (fun e f => List.Forall₂ κ.dims e.dimVars f.dimVars) es fs) :
      List.Forall₂ κ.dims (Expr.dimVarsAll es) (Expr.dimVarsAll fs) := by
    rw [Expr.dimVarsAll_eq_flatMap, Expr.dimVarsAll_eq_flatMap]
    exact List.rel_flatMap ih fun _ _ h => h
  refine h.induction ?var ?shape ?tuple ?item ?const ?external ?global ?call
  case var => exact fun _ _ _ => .nil
  case shape => exact fun _ _ alike => alike.vars
  case tuple => exact fun _ _ _ ih => ofAll ih
  case item => exact fun _ _ _ _ ih => ih
  case const | external | global => exact fun _ => .nil
  case call =>
    exact fun _ _ _ _ head _ ih => List.rel_append (Shape.vars_alike head.shape) (ofAll ih)

theorem Binding.Alike.dimVars {x y : Binding} (h : Binding.Alike κ x y) :
    List.Forall₂ κ.dims x.dimVars y.dimVars :=
  List.rel_append h.value.dimVars (Shape.vars_alike h.pattern?)

namespace Function

variable {f g : Function}

namespace Alike

theorem defined (h : Function.Alike κ f g) : List.Forall₂ κ.vars f.defined g.defined := by
  refine List.rel_append h.params (List.rel_filterMap (fun x y alike => ?_) h.bindings)
  exact alike.defined?

theorem recordedDims (h : Function.Alike κ f g) {v w : Var} (paired : κ.vars v w) :
    List.Forall₂ κ.dims (f.recordedDims v) (g.recordedDims w) :=
  Shape.vars_alike (rel_bind (h.records.infos v w paired) fun _ _ => VarInfo.Alike.shape)

theorem dimVars (h : Function.Alike κ f g) : List.Forall₂ κ.dims f.dimVars g.dimVars :=
  List.rel_append (List.rel_append (List.rel_flatMap h.defined fun _ _ => h.recordedDims)
    (List.rel_flatMap h.bindings fun _ _ => Binding.Alike.dimVars)) h.body.dimVars

end Alike

/-- A map that follows a correspondence is one-to-one on what has partners. -/
theorem injOn_of_alike {α : Type} {R : α → α → Prop} {m : α → α} (unique : LeftUnique R)
    (graph : ∀ a b, R a b → m a = b) {xs ys : List α} (h : List.Forall₂ R xs ys) :
    Set.InjOn m {x | x ∈ xs} := by
  intro a mem a' mem' same
  obtain ⟨b, -, related⟩ := exists_partner h mem
  obtain ⟨b', -, related'⟩ := exists_partner h mem'
  rw [graph a b related, graph a' b' related'] at same
  subst same
  exact unique related related'

theorem renamesTo_of_alike (h : Function.Alike κ f g) : f.RenamesTo g := by
  obtain ⟨φ, vars⟩ := exists_map_of_unique κ.vars_unique.2
  obtain ⟨δ, dims⟩ := exists_map_of_unique κ.dims_unique.2
  refine ⟨φ, δ, injOn_of_alike κ.vars_unique.1 vars h.defined,
    injOn_of_alike κ.dims_unique.1 dims h.dimVars, map_of_alike vars h.params,
    map_of_alike (fun _ _ alike => alike.relabel vars dims) h.blocks, h.body.relabel vars dims,
    h.retTy, fun v mem => ?_⟩
  obtain ⟨w, -, paired⟩ := exists_partner h.defined mem
  rw [vars v w paired]
  exact rel_imp (h.records.infos v w paired) fun _ _ alike => alike.becomes dims

/-! ### From maps to a correspondence -/

/-- Two maps as a correspondence: the identifiers that a function uses are paired with their images,
and the variables that are yet to be allocated are paired in order. -/
def Becomes.correspondence (become : f.Becomes φ δ g)
    (vars : Set.InjOn φ {v | v ∈ f.defined}) (dims : Set.InjOn δ {d | d ∈ f.dimVars})
    (left : f.Scoped) (right : g.Scoped) : Correspondence where
  vars v w := (v ∈ f.defined ∧ φ v = w) ∨ ∃ n, v = ⟨f.vars.length + n⟩ ∧ w = ⟨g.vars.length + n⟩
  dims d e := d ∈ f.dimVars ∧ δ d = e
  vars_unique := by
    refine unique_or_fresh (unique_graph vars) ?_
    rintro v w ⟨mem, rfl⟩
    refine ⟨left.definitions v mem, right.definitions (φ v) ?_⟩
    rw [become.defined]
    exact List.mem_map_of_mem mem
  dims_unique := unique_graph dims

theorem WellFormed.named (wellFormed : f.WellFormed) :
    ∀ d ∈ f.dimVars, d.index < f.dimNames.length := by
  rw [dimVars, List.forall_mem_append, List.forall_mem_append, List.forall_mem_flatMap,
    List.forall_mem_flatMap]
  refine ⟨⟨fun v _ => ?_, fun x mem => ?_⟩, wellFormed.resultShapes⟩
  · rw [recordedDims]
    cases recorded : f.vars[v.index]? with
    | none => exact List.forall_mem_nil _
    | some info => exact wellFormed.annotations info (List.mem_of_getElem? recorded)
  · exact List.forall_mem_append.2 ⟨wellFormed.shapes x mem, wellFormed.patterns x mem⟩

theorem alike_of_becomes (left : f.WellFormed) (right : g.WellFormed)
    (vars : Set.InjOn φ {v | v ∈ f.defined}) (dims : Set.InjOn δ {d | d ∈ f.dimVars})
    (become : f.Becomes φ δ g) : ∃ κ, Function.Alike κ f g := by
  let κ := become.correspondence vars dims left.toScoped right.toScoped
  have ofVars : ∀ v ∈ f.defined, κ.vars v (φ v) := fun v mem => .inl ⟨mem, rfl⟩
  have ofDims : ∀ d ∈ f.dimVars, κ.dims d (δ d) := fun d mem => ⟨mem, rfl⟩
  have used := ofDims
  rw [dimVars, List.forall_mem_append, List.forall_mem_append, List.forall_mem_flatMap,
    List.forall_mem_flatMap] at used
  refine ⟨κ, ?_, ?_, ?_, become.retTy, ?_, fun n => .inr ⟨n, rfl, rfl⟩, ?_,
    left.annotations, right.annotations⟩
  · rw [← become.params]
    exact forall₂_map_self fun v mem => ofVars v (List.mem_append_left _ mem)
  · rw [← become.blocks]
    refine forall₂_map_self fun block inFunction => ⟨rfl, forall₂_map_self fun x inBlock => ?_⟩
    have mem := mem_bindings inFunction inBlock
    refine Binding.alike_relabel (fun v defines => ofVars v ?_)
      (fun v read => ofVars v (left.defined_of_read mem read)) (used.1.2 x mem)
    exact Function.mem_defined mem defines
  · rw [← become.body]
    exact Expr.alike_relabel (fun v read => ofVars v (left.defined_of_result read)) used.2
  · rintro v w (⟨mem, rfl⟩ | ⟨n, rfl, rfl⟩)
    · have recorded := become.records v mem
      have fixed := used.1.1 v mem
      rw [recordedDims] at fixed
      revert recorded fixed
      generalize f.vars[v.index]? = i
      generalize g.vars[(φ v).index]? = j
      rintro (record | _) fixed
      · exact .some (record.alike fixed)
      · exact .none
    · rw [List.getElem?_eq_none (Nat.le_add_right _ _),
        List.getElem?_eq_none (Nat.le_add_right _ _)]
      exact .none
  · rintro d e ⟨mem, rfl⟩
    refine ⟨left.named d mem, right.named (δ d) ?_⟩
    rw [become.dimVars]
    exact List.mem_map_of_mem mem

/-! ### The comparison has a result -/

/-- A comparison that does not miss an identifier. -/
def Decided {α : Type} (result : Except Mismatch α) : Prop :=
  ∀ id, result ≠ .error (.unallocated id)

theorem Decided.bind {α β : Type} {result : Except Mismatch α} {next : α → Except Mismatch β}
    (first : Decided result) (rest : ∀ a, Decided (next a)) : Decided (result >>= next) := by
  cases result with
  | ok a => exact rest a
  | error e => exact fun id same => first id (congrArg Except.error (Except.error.inj same))

theorem decided_ofOption {α : Type} (x : Option α) : Decided (Mismatch.ofOption x) := by
  cases x <;> exact fun _ => nofun

theorem decided_different {α : Type} : Decided (.error .different : Except Mismatch α) :=
  fun _ => nofun

theorem decided_ok {α : Type} (a : α) : Decided (.ok a : Except Mismatch α) := fun _ => nofun

theorem decided_info {v : Var} (allocated : f.Allocates v) :
    Decided ((f.info v).mapError .unallocated) := by
  rw [info_eq_ok.2 (List.getElem?_eq_getElem allocated)]
  exact decided_ok _

theorem decided_definition {v w : Var} (left : f.Allocates v) (right : g.Allocates w)
    (p : Pairing) : Decided (f.matchDefinition g v w p) :=
  (decided_info left).bind fun _ => (decided_info right).bind fun _ =>
    (decided_ofOption _).bind fun _ => decided_ofOption _

theorem decided_params {vs ws : List Var} (left : ∀ v ∈ vs, f.Allocates v)
    (right : ∀ w ∈ ws, g.Allocates w) (p : Pairing) : Decided (f.matchParams g vs ws p) := by
  induction vs generalizing ws p with
  | nil =>
      cases ws with
      | nil => exact decided_ok p
      | cons _ _ => exact decided_different
  | cons v vs ih =>
      cases ws with
      | nil => exact decided_different
      | cons w ws =>
          rw [List.forall_mem_cons] at left right
          exact (decided_definition left.1 right.1 p).bind fun _ => ih left.2 right.2 _

theorem decided_binding {x y : Binding} (left : ∀ v ∈ x.defined?, f.Allocates v)
    (right : ∀ w ∈ y.defined?, g.Allocates w) (p : Pairing) :
    Decided (f.matchBinding g x y p) := by
  cases x with
  | define v e =>
      cases y with
      | define w e' =>
          exact (decided_ofOption _).bind fun _ => decided_definition (left v rfl) (right w rfl) _
      | matchShape _ _ _ => exact decided_different
  | matchShape v e s =>
      cases y with
      | define _ _ => exact decided_different
      | matchShape w e' t =>
          refine (decided_ofOption _).bind fun _ => (decided_ofOption _).bind fun _ => ?_
          cases v with
          | none =>
              cases w with
              | none => exact decided_ok _
              | some _ => exact decided_different
          | some v =>
              cases w with
              | none => exact decided_different
              | some w => exact decided_definition (left v rfl) (right w rfl) _

theorem decided_bindings {xs ys : List Binding}
    (left : ∀ x ∈ xs, ∀ v ∈ x.defined?, f.Allocates v)
    (right : ∀ y ∈ ys, ∀ w ∈ y.defined?, g.Allocates w) (p : Pairing) :
    Decided (f.matchBindings g xs ys p) := by
  induction xs generalizing ys p with
  | nil =>
      cases ys with
      | nil => exact decided_ok p
      | cons _ _ => exact decided_different
  | cons x xs ih =>
      cases ys with
      | nil => exact decided_different
      | cons y ys =>
          rw [List.forall_mem_cons] at left right
          exact (decided_binding left.1 right.1 p).bind fun _ => ih left.2 right.2 _

theorem decided_blocks {xs ys : List Block}
    (left : ∀ x ∈ xs.flatMap Block.bindings, ∀ v ∈ x.defined?, f.Allocates v)
    (right : ∀ y ∈ ys.flatMap Block.bindings, ∀ w ∈ y.defined?, g.Allocates w) (p : Pairing) :
    Decided (f.matchBlocks g xs ys p) := by
  induction xs generalizing ys p with
  | nil =>
      cases ys with
      | nil => exact decided_ok p
      | cons _ _ => exact decided_different
  | cons x xs ih =>
      cases ys with
      | nil => exact decided_different
      | cons y ys =>
          rw [List.flatMap_cons, List.forall_mem_append] at left right
          rw [matchBlocks]
          split
          · exact decided_different
          · exact (decided_bindings left.1 right.1 p).bind fun _ => ih left.2 right.2 _

theorem decided_function (left : f.Scoped) (right : g.Scoped) : Decided (f.matchFunction g) := by
  have ofParams {f : Function} (wellFormed : f.Scoped) : ∀ v ∈ f.params, f.Allocates v :=
    fun v mem => wellFormed.definitions v (List.mem_append_left _ mem)
  have ofBindings {f : Function} (wellFormed : f.Scoped) :
      ∀ x ∈ f.bindings, ∀ v ∈ x.defined?, f.Allocates v := fun x mem v defines =>
    wellFormed.definitions v (Function.mem_defined mem defines)
  rw [matchFunction]
  split
  · exact decided_different
  · exact (decided_params (ofParams left) (ofParams right) _).bind fun _ =>
      (decided_blocks (ofBindings left) (ofBindings right) _).bind fun _ => decided_ofOption _

theorem exists_answer (left : f.Scoped) (right : g.Scoped) :
    ∃ answer, f.alphaEq g = .ok answer := by
  have decided := decided_function left right
  rw [alphaEq]
  revert decided
  generalize f.matchFunction g = result
  intro decided
  cases result with
  | ok _ => exact ⟨true, rfl⟩
  | error mismatch =>
      cases mismatch with
      | different => exact ⟨false, rfl⟩
      | unallocated id => exact absurd rfl (decided id)

theorem alphaEq_iff_renamesTo (left : f.check = .ok ()) (right : g.check = .ok ()) :
    f.alphaEq g = .ok true ↔ f.RenamesTo g := by
  constructor
  · intro equal
    obtain ⟨κ, alike⟩ := alike_of_alphaEq left right equal
    exact renamesTo_of_alike alike
  · rintro ⟨φ, δ, vars, dims, become⟩
    obtain ⟨κ, alike⟩ :=
      alike_of_becomes (wellFormed_of_check left) (wellFormed_of_check right) vars dims become
    exact alphaEq_of_alike left alike

/-- On well-formed functions the comparison decides whether one renames to the other, and it is an
equivalence relation there. -/
theorem alphaEq_decides :
    (∀ f g : Function, f.check = .ok () → g.check = .ok () →
      ∃ answer, f.alphaEq g = .ok answer ∧ (answer = true ↔ f.RenamesTo g)) ∧
    Equivalence fun f g : {f : Function // f.check = .ok ()} => f.1.alphaEq g.1 = .ok true := by
  refine ⟨fun f g left right => ?_, fun f => ?_, fun {f g} equal => ?_, fun {f g h} one two => ?_⟩
  · obtain ⟨answer, found⟩ := exists_answer (scoped_of_check left) (scoped_of_check right)
    refine ⟨answer, found, ?_⟩
    rw [← alphaEq_iff_renamesTo left right, found, Except.ok.injEq]
  · exact (alphaEq_iff_renamesTo f.2 f.2).2 (.refl (wellFormed_of_check f.2))
  · have renames := (alphaEq_iff_renamesTo f.2 g.2).1 equal
    exact (alphaEq_iff_renamesTo g.2 f.2).2 (renames.symm (wellFormed_of_check f.2))
  · have first := (alphaEq_iff_renamesTo f.2 g.2).1 one
    have second := (alphaEq_iff_renamesTo g.2 h.2).1 two
    exact (alphaEq_iff_renamesTo f.2 h.2).2 (first.trans second)

/-- A function that allocates a tensor with the dimensions of its parameter turned round:

    fn main(x: (n, m)) { y = alloc_tensor((m, n)) {float32}; y }
-/
def turned : Function where
  name := "main"
  params := [⟨0⟩]
  blocks := [⟨.plain, [.define ⟨1⟩ (.ofOp .allocTensor [.shape [.var ⟨1⟩, .var ⟨0⟩]]
    (.allocTensor .float32))]⟩]
  body := .var ⟨1⟩
  retTy := none
  vars := [⟨"x", .plain, some [.var ⟨0⟩, .var ⟨1⟩], none⟩, ⟨"y", .plain, none, none⟩]
  dimNames := ["n", "m"]

/-- The same function with other names and positions, and with a variable that it does not use. -/
def turnedMoved : Function :=
  { turned with
    name := "moved"
    params := [⟨2⟩]
    blocks := [⟨.plain, [.define ⟨0⟩ (.ofOp .allocTensor [.shape [.var ⟨0⟩, .var ⟨1⟩]]
      (.allocTensor .float32))]⟩]
    body := .var ⟨0⟩
    vars := [⟨"b", .plain, none, none⟩, ⟨"unused", .dataflow, some [.var ⟨0⟩], none⟩,
      ⟨"a", .plain, some [.var ⟨1⟩, .var ⟨0⟩], none⟩] }

/-- The function for square tensors: its two dimensions are one. -/
def turnedSquare : Function :=
  { turned with
    blocks := [⟨.plain, [.define ⟨1⟩ (.ofOp .allocTensor [.shape [.var ⟨0⟩, .var ⟨0⟩]]
      (.allocTensor .float32))]⟩]
    vars := [⟨"x", .plain, some [.var ⟨0⟩, .var ⟨0⟩], none⟩, ⟨"y", .plain, none, none⟩] }

theorem alphaEq_decides_turned :
    turned ≠ turnedMoved ∧ turned.RenamesTo turnedMoved ∧ ¬ turned.RenamesTo turnedSquare := by
  have equal : turned.alphaEq turnedMoved = .ok true := by decide +kernel
  have different : turned.alphaEq turnedSquare = .ok false := by decide +kernel
  obtain ⟨answer, found, renames⟩ :=
    alphaEq_decides.1 turned turnedMoved (by decide +kernel) (by decide +kernel)
  obtain ⟨answer', found', renames'⟩ :=
    alphaEq_decides.1 turned turnedSquare (by decide +kernel) (by decide +kernel)
  rw [equal] at found
  rw [different] at found'
  cases found
  cases found'
  exact ⟨by decide +kernel, renames.1 rfl, fun h => nomatch renames'.2 h⟩

end Function

end TensorIR
