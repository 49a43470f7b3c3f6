import Mathlib.Data.Finmap
import Mathlib.Data.List.Basic
import TensorIR.Function.Traversal

/-!
# Occurrences of variables

The nodes of a function and the reads of an expression come from two recursions over the same
trees. They meet the same variables in the same order: the traversal reports a read exactly where
`Expr.reads` has one. So what occurs in a function are its parameters, then binding by binding the
reads of the value and the variable that is defined, and the reads of the body at last.

`Function.walk` is the traversal with a state of any kind that changes at every node, and what it
makes of the state is what the list of nodes makes of it. Occurrences are collected by such a walk,
and reads are counted by one, in a table that gets an entry when a variable is first met. The
invariant of the count is that the table holds the multiplicities in the list of reads so far
(`Tally.Counts`).
-/

namespace TensorIR

theorem nodup_eraseDups {α : Type} [DecidableEq α] (xs : List α) : xs.eraseDups.Nodup := by
  match xs with
  | [] => exact List.nodup_nil
  | x :: xs =>
      rw [List.eraseDups_cons, List.nodup_cons]
      refine ⟨fun mem => ?_, nodup_eraseDups _⟩
      simpa using List.mem_eraseDups.1 mem
termination_by xs.length
decreasing_by
  rw [List.length_cons]
  exact Nat.lt_succ_of_le (List.length_filter_le _ _)

/-! ### Walks -/

section Walks

variable {σ : Type} (visit : σ → Node → σ)

mutual

/-- The state after a walk through an expression that visits each subexpression after its parts. -/
def Expr.walk (s : σ) : Expr → σ
  | .tuple fields => visit (Expr.walkAll s fields) (.expr (.tuple fields))
  | .item t i => visit (t.walk s) (.expr (.item t i))
  | .call head args => visit (Expr.walkAll s args) (.expr (.call head args))
  | .var v => visit s (.expr (.var v))
  | .shape d => visit s (.expr (.shape d))
  | .const c => visit s (.expr (.const c))
  | .external n => visit s (.expr (.external n))
  | .global n => visit s (.expr (.global n))

/-- The state after a walk through a list of expressions, from left to right. -/
def Expr.walkAll (s : σ) : List Expr → σ
  | [] => s
  | e :: es => Expr.walkAll (e.walk s) es

end

/-- The state after a walk through a binding: its value, the variable it defines, then itself. -/
def Binding.walk (s : σ) (b : Binding) : σ :=
  let read := b.value.walk visit s
  visit ((b.defined?.map fun v => visit read (.define v)).getD read) (.binding b)

/-- The state after a walk through a block: its bindings in order, then itself. -/
def Block.walk (s : σ) (block : Block) : σ :=
  visit (block.bindings.foldl (Binding.walk visit) s) (.block block)

/-- The state after a visit of every node of a function in post-order. -/
def Function.walk (s : σ) (f : Function) : σ :=
  let entered := f.params.foldl (fun s v => visit s (.param v)) s
  f.body.walk visit (f.blocks.foldl (Block.walk visit) entered)

theorem Expr.walkAll_eq_foldl (s : σ) (es : List Expr) :
    Expr.walkAll visit s es = es.foldl (Expr.walk visit) s := by
  induction es generalizing s with
  | nil => rfl
  | cons e es ih => rw [Expr.walkAll, ih, List.foldl_cons]

theorem Expr.walk_eq_foldl (s : σ) (e : Expr) :
    e.walk visit s = (e.subexprs.map .expr).foldl visit s := by
  induction e using Expr.induction generalizing s with
  | var _ | shape _ | const _ | external _ | global _ => rfl
  | item t i ih =>
      rw [Expr.walk, ih, Expr.subexprs, List.map_append, List.foldl_append]
      rfl
  | tuple es ih | call _ es ih =>
      rw [Expr.walk, Expr.walkAll_eq_foldl, Expr.subexprs, Expr.subexprsAll_eq_flatMap,
        List.map_append, List.foldl_append, List.map_flatMap, List.foldl_flatMap,
        List.foldl_ext _ _ s fun s e mem => ih e mem s]
      rfl

theorem Binding.walk_eq_foldl (s : σ) (b : Binding) : b.walk visit s = b.nodes.foldl visit s := by
  rw [Binding.walk, Expr.walk_eq_foldl, Binding.nodes, List.foldl_append, List.foldl_append]
  cases b.defined? <;> rfl

theorem Block.walk_eq_foldl (s : σ) (block : Block) :
    block.walk visit s = block.nodes.foldl visit s := by
  rw [Block.walk, Block.nodes, List.foldl_append, List.foldl_flatMap,
    funext₂ (Binding.walk_eq_foldl visit)]
  rfl

theorem Function.walk_eq_foldl (s : σ) (f : Function) :
    f.walk visit s = f.nodes.foldl visit s := by
  rw [Function.walk, Function.nodes, List.foldl_append, List.foldl_append, List.foldl_flatMap,
    Expr.walk_eq_foldl, funext₂ (Block.walk_eq_foldl visit), List.foldl_map (f := Node.param)]

end Walks

/-- A walk that collects what is picked at each node. -/
theorem Function.walk_collect {α : Type} (pick : Node → Option α) (f : Function) :
    f.walk (fun found n => found ++ (pick n).toList) [] = f.nodes.filterMap pick := by
  rw [walk_eq_foldl, List.foldl_append_eq_append, List.nil_append, List.filterMap_eq_flatMap_toList,
    List.flatMap_def]

/-! ### Reads -/

theorem Expr.reads_subexprs (e : Expr) : e.subexprs.filterMap asVar? = e.reads := by
  induction e using Expr.induction with
  | var _ | shape _ | const _ | external _ | global _ => rfl
  | item t i ih =>
      rw [subexprs, List.filterMap_append, ih, reads]
      exact List.append_nil _
  | tuple es ih | call _ es ih =>
      rw [subexprs, subexprsAll_eq_flatMap, reads, readsAll_eq_flatMap, List.filterMap_append,
        List.filterMap_flatMap, List.flatMap_congr ih]
      exact List.append_nil _

namespace Function

/-- What is picked from the nodes of a function, if nothing is from its bindings and blocks. -/
theorem filterMap_nodes {α : Type} {pick : Node → Option α}
    (bindings : ∀ b, pick (.binding b) = none) (blocks : ∀ b, pick (.block b) = none)
    (f : Function) :
    f.nodes.filterMap pick =
      f.params.filterMap (pick ∘ .param) ++
        f.bindings.flatMap (fun b => b.value.subexprs.filterMap (pick ∘ .expr) ++
          (b.defined?.bind (pick ∘ .define)).toList) ++
        f.body.subexprs.filterMap (pick ∘ .expr) := by
  have ofBinding (b : Binding) : b.nodes.filterMap pick =
      b.value.subexprs.filterMap (pick ∘ .expr) ++ (b.defined?.bind (pick ∘ .define)).toList := by
    rw [Binding.nodes, List.filterMap_append, List.filterMap_append, List.filterMap_map,
      List.filterMap_cons_none (bindings b), List.filterMap_nil, List.append_nil]
    refine congrArg _ ?_
    cases b.defined? with
    | none => rfl
    | some v => cases found : pick (.define v) <;> simp [found]
  have ofBlock (block : Block) : block.nodes.filterMap pick =
      block.bindings.flatMap fun b => b.nodes.filterMap pick := by
    rw [Block.nodes, List.filterMap_append, List.filterMap_flatMap,
      List.filterMap_cons_none (blocks block), List.filterMap_nil, List.append_nil]
  rw [nodes, List.filterMap_append, List.filterMap_append, List.filterMap_map, List.filterMap_map,
    List.filterMap_flatMap, funext ofBlock, ← List.flatMap_assoc, funext ofBinding]
  rfl

theorem occurrences_eq (f : Function) :
    f.occurrences = f.params ++
      f.bindings.flatMap (fun b => b.value.reads ++ b.defined?.toList) ++ f.body.reads := by
  have params : f.params.filterMap (Node.occurrence? ∘ .param) = f.params := List.filterMap_some
  have defined (b : Binding) : b.defined?.bind (Node.occurrence? ∘ .define) = b.defined? := by
    cases b.defined? <;> rfl
  rw [occurrences, filterMap_nodes (fun _ => rfl) fun _ => rfl, params]
  simp only [defined, ← Expr.reads_subexprs]
  rfl

/-- The traversal reads what values and the body read, in program order. -/
theorem reads_eq (f : Function) :
    f.reads = f.bindings.flatMap (fun b => b.value.reads) ++ f.body.reads := by
  have params : f.params.filterMap (Node.read? ∘ .param) = [] :=
    List.filterMap_eq_nil_iff.2 fun _ _ => rfl
  have defined (b : Binding) : b.defined?.bind (Node.read? ∘ .define) = none := by
    cases b.defined? <;> rfl
  rw [reads, filterMap_nodes (fun _ => rfl) fun _ => rfl, params]
  simp only [defined, Option.toList_none, List.append_nil, ← Expr.reads_subexprs]
  rfl

end Function

/-! ### Counts -/

/-- How often each variable was read; one that was not has no entry. -/
abbrev Tally := Finmap fun _ : Var => Nat

namespace Tally

/-- The table after one more node. -/
def visit (table : Tally) (n : Node) : Tally :=
  match n.read? with
  | some v => table.insert v ((table.lookup v).getD 0 + 1)
  | none => table

/-- The table has the multiplicity of each variable on a list, and no others. -/
def Counts (table : Tally) (read : List Var) : Prop :=
  ∀ v, table.lookup v = if v ∈ read then some (read.count v) else none

theorem Counts.visit {table : Tally} {read : List Var} (h : table.Counts read) (n : Node) :
    (table.visit n).Counts (read ++ n.read?.toList) := by
  intro v
  rw [Tally.visit]
  cases n.read? with
  | none => rw [Option.toList_none, List.append_nil, h v]
  | some w =>
      have before : (table.lookup w).getD 0 = read.count w := by
        rw [h w]
        split
        · rfl
        · next absent => exact (List.count_eq_zero.2 absent).symm
      by_cases same : v = w
      · subst same
        simp [before]
      · simp [Finmap.lookup_insert_of_ne _ same, h v, same, Ne.symm same]

theorem Counts.foldl {table : Tally} {read : List Var} (h : table.Counts read)
    (nodes : List Node) :
    (nodes.foldl Tally.visit table).Counts (read ++ nodes.filterMap Node.read?) := by
  induction nodes generalizing table read with
  | nil => rwa [List.filterMap_nil, List.append_nil]
  | cons n nodes ih =>
      have rest := ih (h.visit n)
      have same : n.read?.toList ++ nodes.filterMap Node.read? =
          (n :: nodes).filterMap Node.read? := by
        rw [List.filterMap_cons]
        cases n.read? <;> rfl
      rwa [List.append_assoc, same] at rest

end Tally

namespace Function

/-- The reads of each variable, counted node by node. -/
def tally (f : Function) : Tally := f.walk Tally.visit ∅

theorem tally_counts (f : Function) : f.tally.Counts f.reads := by
  rw [tally, walk_eq_foldl]
  have start : Tally.Counts ∅ [] := fun v => Finmap.lookup_empty v
  exact start.foldl f.nodes

theorem keys_useCounts (f : Function) :
    f.useCounts.map Prod.fst = f.reads.eraseDups.mergeSort fun v w => v.index ≤ w.index := by
  rw [useCounts, List.map_map]
  exact List.map_id _

theorem mem_useCounts {f : Function} {v : Var} {n : Nat} :
    (v, n) ∈ f.useCounts ↔ f.tally.lookup v = some n := by
  rw [useCounts, List.mem_map, f.tally_counts v]
  simp only [List.mem_mergeSort, List.mem_eraseDups, Prod.mk.injEq, useCount]
  constructor
  · rintro ⟨w, read, rfl, rfl⟩
    rw [if_pos read]
  · intro found
    split at found
    · next read => exact ⟨v, read, rfl, Option.some.inj found⟩
    · cases found

/-- A walk over a function meets its nodes, and these agree with the reads of its expressions: on
what occurs and in which order, on what is read, and on how often. -/
theorem traversals_agree (f : Function) :
    (∀ pick : Node → Option Var,
        f.walk (fun found n => found ++ (pick n).toList) [] = f.nodes.filterMap pick) ∧
      f.occurrences = f.params ++
        f.bindings.flatMap (fun b => b.value.reads ++ b.defined?.toList) ++ f.body.reads ∧
      f.nodes.filterMap Node.read? =
        f.bindings.flatMap (fun b => b.value.reads) ++ f.body.reads ∧
      (∀ v, f.tally.lookup v = if v ∈ f.reads then some (f.reads.count v) else none) ∧
      (∀ v n, (v, n) ∈ f.useCounts ↔ f.tally.lookup v = some n) ∧
      (f.useCounts.map Prod.fst).Nodup := by
  refine ⟨fun pick => f.walk_collect pick, f.occurrences_eq, f.reads_eq, f.tally_counts,
    fun _ _ => mem_useCounts, ?_⟩
  rw [keys_useCounts, (List.mergeSort_perm _ _).nodup_iff]
  exact nodup_eraseDups _

end Function

end TensorIR
