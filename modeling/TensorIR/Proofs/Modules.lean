import Mathlib.Data.List.Forall2
import TensorIR.Pipeline
import TensorIR.Proofs.Emission
import TensorIR.Proofs.ShapeHeap.Naming

/-!
# Passes definition by definition

Every pass lowers the functions of a module one by one and leaves names, order and heap functions
alone; the last pass puts new heap functions behind all of them. `Module.Related` says that of two
modules, for any relation between a function and its lowering. A fact about one function therefore
becomes one about modules by a look-up: what stands under a name in the one module is related to
what stands under it in the other, from either side.

A run of the standard pipeline is a run of its five passes. The checks in between make no
difference to what comes out: a function that a pass has made comes from a builder, and so it is
well formed. Only shape lowering also hands on functions that it has not touched.
-/

namespace TensorIR

theorem mapM_eq_ok {ε α β : Type} {f : α → Except ε β} {xs : List α} {ys : List β} :
    xs.mapM f = .ok ys ↔ List.Forall₂ (fun x y => f x = .ok y) xs ys := by
  induction xs generalizing ys with
  | nil =>
      rw [List.mapM_nil, pure_eq_ok, List.forall₂_nil_left_iff]
      exact eq_comm
  | cons x xs ih =>
      rw [List.mapM_cons, bind_eq_ok, List.forall₂_cons_left_iff]
      refine exists_congr fun y => ?_
      rw [bind_eq_ok]
      constructor
      · rintro ⟨head, ys', tail, same⟩
        exact ⟨ys', head, ih.1 tail, (pure_eq_ok.1 same).symm⟩
      · rintro ⟨ys', head, tail, same⟩
        exact ⟨head, ys', ih.2 tail, pure_eq_ok.2 same.symm⟩

/-- The first fault of a list is that of its first element with a fault. -/
theorem mapM_answers {ε α β : Type} {f : α → Except ε β} {fault : α → Option ε} {xs : List α}
    (each : ∀ x ∈ xs, Answers (fault x) (fun _ => True) (f x)) :
    Answers (xs.findSome? fault) (fun _ => True) (xs.mapM f) := by
  induction xs with
  | nil => exact ⟨[], rfl, trivial⟩
  | cons x xs ih =>
      obtain ⟨here, later⟩ := List.forall_mem_cons.1 each
      rw [← List.singleton_append, List.findSome?_append, List.findSome?_singleton,
        List.singleton_append, List.mapM_cons]
      exact here.bind fun _ _ => (ih later).bind_ok fun _ _ => ⟨_, rfl, trivial⟩

theorem findSome?_filterMap {α β γ : Type} (g : β → Option γ) (f : α → Option β) (xs : List α) :
    (xs.filterMap f).findSome? g = xs.findSome? fun x => (f x).bind g := by
  induction xs with
  | nil => rfl
  | cons x xs ih =>
      rw [List.filterMap_cons, List.findSome?_cons]
      cases f x with
      | none => exact ih
      | some y => rw [List.findSome?_cons, ih, Option.bind_some]

namespace Function

variable {f g : Function}

theorem check_of_building {b : Builder} {body : Expr}
    (h : building f.name (b.finish body) = .ok g) : g.check = .ok () :=
  (Builder.finish_eq_ok (building_eq_ok.1 h)).2.2.2.2

theorem check_of_fuse (h : f.fuse = .ok g) : g.check = .ok () := by
  obtain ⟨_, _, finished⟩ := bind_eq_ok.1 h
  exact check_of_building finished

theorem check_of_demote (h : f.demote = .ok g) : g.check = .ok () := by
  obtain ⟨_, _, h⟩ := bind_eq_ok.1 h
  obtain ⟨-, finished⟩ := check_bind_eq_ok.1 h
  exact check_of_building finished

theorem check_of_replaceBindings {emit : Nat → Binding → Builder → Lowered Builder}
    (h : f.replaceBindings emit = .ok g) : g.check = .ok () := by
  obtain ⟨_, _, finished⟩ := bind_eq_ok.1 h
  exact check_of_building finished

theorem check_of_lower {layout : HeapLayout} {shapeFunction : Option String}
    (h : ShapeHeap.lower f layout shapeFunction = .ok g) : g.check = .ok () := by
  obtain ⟨_, _, h⟩ := bind_eq_ok.1 h
  obtain ⟨_, _, h⟩ := bind_eq_ok.1 h
  obtain ⟨_, _, finished⟩ := bind_eq_ok.1 h
  exact check_of_building finished

/-- A function without symbolic shapes is left as it is, and any other one is lowered. -/
theorem lowered_of_lowerFunction {base : String} {taken : List String}
    {needed : Option HeapFunction} (h : ShapeHeap.lowerFunction base taken f = .ok (g, needed)) :
    (f.symbolicShapes = [] ∧ g = f) ∨
      ∃ layout shapeFunction, ShapeHeap.lower f layout shapeFunction = .ok g := by
  rw [ShapeHeap.lowerFunction] at h
  split at h
  · next none =>
      cases h
      exact .inl ⟨none, rfl⟩
  · obtain ⟨layout, -, h⟩ := bind_eq_ok.1 h
    split at h
    · obtain ⟨_, lowering, same⟩ := bind_eq_ok.1 h
      cases same
      exact .inr ⟨_, _, lowering⟩
    · obtain ⟨_, lowering, same⟩ := bind_eq_ok.1 h
      cases same
      exact .inr ⟨_, _, lowering⟩

theorem check_of_lowerFunction {base : String} {taken : List String}
    {needed : Option HeapFunction} (wellFormed : f.check = .ok ())
    (h : ShapeHeap.lowerFunction base taken f = .ok (g, needed)) : g.check = .ok () := by
  obtain ⟨-, rfl⟩ | ⟨layout, shapeFunction, lowering⟩ := lowered_of_lowerFunction h
  · exact wellFormed
  · exact check_of_lower lowering

end Function

/-- Two functions that are related, or twice the same heap function. -/
inductive Item.Related (R : Function → Function → Prop) : Item → Item → Prop where
  | function {f g} (related : R f g) : Related R (.function f) (.function g)
  | heapFunction {fn} : Related R (.heapFunction fn) (.heapFunction fn)

/-- The same names in the same order, with related definitions. -/
def Entries.Related (R : Function → Function → Prop) :
    List (String × Item) → List (String × Item) → Prop :=
  List.Forall₂ fun x y => x.1 = y.1 ∧ Item.Related R x.2 y.2

namespace Entries

variable {R : Function → Function → Prop} {xs ys : List (String × Item)} {key : String}

theorem Related.keys (h : Related R xs ys) : ys.map Prod.fst = xs.map Prod.fst := by
  induction h with
  | nil => rfl
  | cons head _ ih => rw [List.map_cons, List.map_cons, ih, head.1]

theorem Related.mem_left {f : Function} (h : Related R xs ys)
    (mem : (key, Item.function f) ∈ xs) : ∃ g, (key, Item.function g) ∈ ys ∧ R f g := by
  induction h with
  | nil => cases mem
  | @cons x y xs ys head _ ih =>
      rcases List.mem_cons.1 mem with rfl | mem
      · obtain ⟨name, item⟩ := y
        obtain ⟨rfl, ⟨related⟩⟩ := head
        exact ⟨_, List.mem_cons_self, related⟩
      · obtain ⟨g, mem, related⟩ := ih mem
        exact ⟨g, List.mem_cons_of_mem _ mem, related⟩

theorem Related.mem_right {g : Function} (h : Related R xs ys)
    (mem : (key, Item.function g) ∈ ys) : ∃ f, (key, Item.function f) ∈ xs ∧ R f g := by
  induction h with
  | nil => cases mem
  | @cons x y xs ys head _ ih =>
      rcases List.mem_cons.1 mem with rfl | mem
      · obtain ⟨name, item⟩ := x
        obtain ⟨rfl, ⟨related⟩⟩ := head
        exact ⟨_, List.mem_cons_self, related⟩
      · obtain ⟨f, mem, related⟩ := ih mem
        exact ⟨f, List.mem_cons_of_mem _ mem, related⟩

theorem Related.mem_heapFunction {fn : HeapFunction} (h : Related R xs ys)
    (mem : (key, Item.heapFunction fn) ∈ xs) : (key, Item.heapFunction fn) ∈ ys := by
  induction h with
  | nil => cases mem
  | @cons x y xs ys head _ ih =>
      rcases List.mem_cons.1 mem with rfl | mem
      · obtain ⟨name, item⟩ := y
        obtain ⟨rfl, ⟨⟩⟩ := head
        exact List.mem_cons_self
      · exact List.mem_cons_of_mem _ (ih mem)

end Entries

namespace Module

variable {m m' : Module} {key : String}

theorem mem_functions {g : Function} :
    g ∈ m.functions ↔ ∃ key, m.get? key = some (.function g) := by
  rw [functions, List.mem_filterMap]
  constructor
  · rintro ⟨⟨key, item⟩, mem, is⟩
    cases item with
    | function f =>
        cases is
        exact ⟨key, get?_eq_some_iff.2 mem⟩
    | heapFunction _ => cases is
  · rintro ⟨key, found⟩
    exact ⟨_, get?_eq_some_iff.1 found, rfl⟩

theorem get?_of_function? {f : Function} (h : m.function? key = some f) :
    m.get? key = some (.function f) := by
  obtain ⟨item, found, is⟩ := Option.bind_eq_some_iff.1 h
  cases item with
  | function f' =>
      cases is
      exact found
  | heapFunction _ => cases is

/-- How to see that a result is a module with a function of some property under a name. -/
theorem exists_function_with {x : Lowered Module} (p : Function → Bool)
    (h : (x.toOption.bind fun m => m.function? key).any p = true) :
    ∃ m f, x = .ok m ∧ m.get? key = some (.function f) ∧ p f = true := by
  cases x with
  | error e => cases h
  | ok m =>
      rw [Except.toOption, Option.bind_some] at h
      cases found : m.function? key with
      | none =>
          rw [found] at h
          cases h
      | some f =>
          rw [found] at h
          exact ⟨m, f, rfl, get?_of_function? found, h⟩

theorem exists_function {x : Lowered Module}
    (h : (x.toOption.bind fun m => m.function? key).isSome) :
    ∃ m f, x = .ok m ∧ m.get? key = some (.function f) := by
  cases x with
  | error e => cases h
  | ok m =>
      obtain ⟨f, found⟩ := Option.isSome_iff_exists.1 h
      exact ⟨m, f, rfl, get?_of_function? found⟩

/-- What lowering the functions of a module makes of it. -/
theorem mapFunctions_eq_ok {lower : Function → Lowered Function}
    (h : m.mapFunctions lower = .ok m') :
    Entries.Related (fun f g => lower f = .ok g) m.entries m'.entries := by
  simp only [mapFunctions] at h
  obtain ⟨entries, mapped, h⟩ := bind_eq_ok.1 h
  have related : Entries.Related (fun f g => lower f = .ok g) m.entries entries := by
    refine (mapM_eq_ok.1 mapped).imp ?_
    rintro ⟨name, item⟩ entry lowered
    cases item with
    | function f =>
        obtain ⟨g, ofFunction, same⟩ := bind_eq_ok.1 lowered
        cases same
        exact ⟨rfl, .function ofFunction⟩
    | heapFunction fn =>
        cases lowered
        exact ⟨rfl, .heapFunction⟩
  have distinct : (entries.map Prod.fst).Nodup := by
    rw [related.keys]
    exact m.nodup
  rw [← pure_eq_ok.1 h, entries_ofEntries distinct]
  exact related

/-- Every function of the new module is the lowering of the one under its name. -/
theorem get?_of_mapFunctions {lower : Function → Lowered Function} {g : Function}
    (h : m.mapFunctions lower = .ok m') (found : m'.get? key = some (.function g)) :
    ∃ f, m.get? key = some (.function f) ∧ lower f = .ok g := by
  obtain ⟨f, mem, lowered⟩ := (mapFunctions_eq_ok h).mem_right (get?_eq_some_iff.1 found)
  exact ⟨f, get?_eq_some_iff.2 mem, lowered⟩

/-- Every function has its lowering in the new module under its name. -/
theorem get?_mapFunctions {lower : Function → Lowered Function} {f : Function}
    (h : m.mapFunctions lower = .ok m') (found : m.get? key = some (.function f)) :
    ∃ g, m'.get? key = some (.function g) ∧ lower f = .ok g := by
  obtain ⟨g, mem, lowered⟩ := (mapFunctions_eq_ok h).mem_left (get?_eq_some_iff.1 found)
  exact ⟨g, get?_eq_some_iff.2 mem, lowered⟩

/-- The first fault of a module is that of its first function with a fault. -/
theorem mapFunctions_answers {lower : Function → Lowered Function}
    {fault : Function → Option LoweringError}
    (each : ∀ f ∈ m.functions, Answers (fault f) (fun _ => True) (lower f)) :
    Answers (m.functions.findSome? fault) (fun _ => True) (m.mapFunctions lower) := by
  rw [functions, findSome?_filterMap, mapFunctions]
  refine (mapM_answers ?_).bind_ok fun _ _ => ⟨_, rfl, trivial⟩
  rintro ⟨key, item⟩ mem
  cases item with
  | function f =>
      refine (each f ?_).bind_ok fun _ _ => ⟨_, rfl, trivial⟩
      exact List.mem_filterMap.2 ⟨_, mem, rfl⟩
  | heapFunction fn => exact ⟨_, rfl, trivial⟩

theorem lowerEntries_related {base : String} {taken : List String}
    {entries lowered : List (String × Item)} {generated : List HeapFunction}
    (h : ShapeHeap.lowerEntries base taken entries = .ok (lowered, generated)) :
    Entries.Related (fun f g => ∃ taken needed,
      ShapeHeap.lowerFunction base taken f = .ok (g, needed)) entries lowered := by
  fun_induction ShapeHeap.lowerEntries base taken entries generalizing lowered generated with
  | case1 =>
      cases h
      exact .nil
  | case2 taken key fn rest ih =>
      obtain ⟨⟨lowered', generated'⟩, tail, h⟩ := bind_eq_ok.1 h
      cases h
      exact .cons ⟨rfl, .heapFunction⟩ (ih tail)
  | case3 taken key f rest ih =>
      obtain ⟨⟨g, needed⟩, head, h⟩ := bind_eq_ok.1 h
      obtain ⟨⟨lowered', generated'⟩, tail, h⟩ := bind_eq_ok.1 h
      cases h
      exact .cons ⟨rfl, .function ⟨taken, needed, head⟩⟩ (ih _ tail)

/-- Every function of a module whose shapes are on heaps comes from the one under its name: what is
generated besides are no functions on tensors. -/
theorem get?_of_heapShapes {base : String} {g : Function} (h : m.heapShapes base = .ok m')
    (found : m'.get? key = some (.function g)) :
    ∃ f taken needed, m.get? key = some (.function f) ∧
      ShapeHeap.lowerFunction base taken f = .ok (g, needed) := by
  obtain ⟨lowered, generated, entries, all⟩ := entries_heapShapes h
  rw [get?_eq_some_iff, all] at found
  rcases List.mem_append.1 found with mem | mem
  · obtain ⟨f, mem, taken, needed, lowering⟩ := (lowerEntries_related entries).mem_right mem
    exact ⟨f, taken, needed, get?_eq_some_iff.2 mem, lowering⟩
  · obtain ⟨_, _, same⟩ := List.mem_map.1 mem
    cases same

end Module

namespace Pipeline

variable {config : Config} {m m' : Module}

theorem run_of_runPass {pass : Pass} (h : runPass config m pass = .ok m') :
    pass.run m = .ok m' := by
  rw [runPass] at h
  obtain ⟨m₁, ran, h⟩ := bind_eq_ok.1 h
  rw [ran]
  split at h
  · obtain ⟨_, _, h⟩ := bind_eq_ok.1 h
    exact h
  · exact h

/-- The standard pipeline without its last pass, which puts shapes on heaps. -/
def beforeHeaps (config : Config) : Pipeline :=
  { config, passes := [.fusion, .demotion, .destinations, .storage config.target] }

theorem standard_split (h : (standard config).run m = .ok m') :
    ∃ m₄, (beforeHeaps config).run m = .ok m₄ ∧ m₄.heapShapes config.shapeFunction = .ok m' := by
  have split : (standard config).run m = (beforeHeaps config).run m >>=
      [Pass.shapeHeap config.shapeFunction].foldlM (runPass config) :=
    List.foldlM_append (l := (beforeHeaps config).passes)
  rw [split] at h
  obtain ⟨m₄, before, last⟩ := bind_eq_ok.1 h
  obtain ⟨m₅, lowered, last⟩ := foldlM_cons_eq_ok.1 last
  cases last
  exact ⟨m₄, before, run_of_runPass lowered⟩

theorem beforeHeaps_eq_ok (h : (beforeHeaps config).run m = .ok m') :
    ∃ m₁ m₂ m₃, m.mapFunctions Function.fuse = .ok m₁ ∧
      m₁.mapFunctions Function.demote = .ok m₂ ∧
      m₂.mapFunctions Function.allocateOutputs = .ok m₃ ∧
      m₃.mapFunctions (Function.placeTensors config.target) = .ok m' := by
  simp only [run, beforeHeaps] at h
  obtain ⟨m₁, fused, h⟩ := foldlM_cons_eq_ok.1 h
  obtain ⟨m₂, demoted, h⟩ := foldlM_cons_eq_ok.1 h
  obtain ⟨m₃, allocated, h⟩ := foldlM_cons_eq_ok.1 h
  obtain ⟨m₄, placed, h⟩ := foldlM_cons_eq_ok.1 h
  cases h
  exact ⟨m₁, m₂, m₃, run_of_runPass fused, run_of_runPass demoted, run_of_runPass allocated,
    run_of_runPass placed⟩

/-- The standard pipeline succeeds if its passes do, each on what the one before has made. -/
theorem standard_eq_ok (h : (standard config).run m = .ok m') :
    ∃ m₁ m₂ m₃ m₄, m.mapFunctions Function.fuse = .ok m₁ ∧
      m₁.mapFunctions Function.demote = .ok m₂ ∧
      m₂.mapFunctions Function.allocateOutputs = .ok m₃ ∧
      m₃.mapFunctions (Function.placeTensors config.target) = .ok m₄ ∧
      m₄.heapShapes config.shapeFunction = .ok m' := by
  obtain ⟨m₄, before, lowered⟩ := standard_split h
  obtain ⟨m₁, m₂, m₃, fused, demoted, allocated, placed⟩ := beforeHeaps_eq_ok before
  exact ⟨m₁, m₂, m₃, m₄, fused, demoted, allocated, placed, lowered⟩

end Pipeline

end TensorIR
