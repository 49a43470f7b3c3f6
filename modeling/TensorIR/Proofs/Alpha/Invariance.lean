import TensorIR.Proofs.Alpha.Comparing
import TensorIR.Proofs.Alpha.Heap
import TensorIR.Proofs.Alpha.Passes
import TensorIR.Proofs.Modules

/-!
# Passes respect alpha-equivalence

A pass succeeds on a module of well-formed functions exactly if it succeeds on every module that is
equal up to the names and positions of variables, and what it makes of the two is equal in the same
sense.

The proof turns the comparison into a correspondence for each pair of functions, lets the pass run
on both sides in step, and turns the correspondence back into a comparison, since what comes out of
a pass is well formed. Between modules only the names of generated heap functions have to be looked
after: they depend on the names of the definitions, which are equal, and on which of the functions
need a heap function, which goes in step.
-/

namespace TensorIR

/-- Two functions are alike under some correspondence. -/
def Function.Equivalent (f g : Function) : Prop := ∃ κ, Function.Alike κ f g

/-- The definition is a well-formed function or no function. -/
def Item.WellFormed (x : Item) : Prop := ∀ f, x = .function f → f.check = .ok ()

namespace Item

variable {x y : Item}

theorem related_of_alphaEq (left : x.WellFormed) (right : y.WellFormed)
    (equal : x.alphaEq y = .ok true) : Related Function.Equivalent x y := by
  cases x with
  | function f =>
      cases y with
      | function g => exact .function (Function.alike_of_alphaEq (left f rfl) (right g rfl) equal)
      | heapFunction _ => cases equal
  | heapFunction f =>
      cases y with
      | function _ => cases equal
      | heapFunction g =>
          obtain rfl : f = g := of_decide_eq_true (Except.ok.inj equal)
          exact .heapFunction

theorem alphaEq_of_related (left : x.WellFormed) (related : Related Function.Equivalent x y) :
    x.alphaEq y = .ok true := by
  cases related with
  | @function f g equivalent =>
      obtain ⟨κ, alike⟩ := equivalent
      exact Function.alphaEq_of_alike (left f rfl) alike
  | heapFunction => exact congrArg Except.ok (decide_eq_true rfl)

end Item

/-- Two modules have the same names in the same order, with definitions that are equivalent
functions or the same heap function. -/
def Module.Equivalent (m n : Module) : Prop :=
  Entries.Related Function.Equivalent m.entries n.entries

namespace Module

variable {m n m' n' : Module}

theorem related_of_alphaEqEntries {xs ys : List (String × Item)}
    (left : ∀ x ∈ xs, x.2.WellFormed) (right : ∀ y ∈ ys, y.2.WellFormed)
    (equal : alphaEqEntries xs ys = .ok true) : Entries.Related Function.Equivalent xs ys := by
  induction xs generalizing ys with
  | nil =>
      cases ys with
      | nil => exact .nil
      | cons _ _ => cases equal
  | cons x xs ih =>
      cases ys with
      | nil => cases equal
      | cons y ys =>
          rw [List.forall_mem_cons] at left right
          simp only [alphaEqEntries] at equal
          split at equal
          · cases equal
          · next sameKey =>
              obtain ⟨same, items, equal⟩ := bind_eq_ok.1 equal
              cases same with
              | false => cases equal
              | true =>
                  refine .cons ⟨of_not_not sameKey, ?_⟩ (ih left.2 right.2 equal)
                  exact Item.related_of_alphaEq left.1 right.1 items

theorem alphaEqEntries_of_related {xs ys : List (String × Item)}
    (left : ∀ x ∈ xs, x.2.WellFormed) (related : Entries.Related Function.Equivalent xs ys) :
    alphaEqEntries xs ys = .ok true := by
  induction related with
  | nil => rfl
  | cons head _ ih =>
      rw [List.forall_mem_cons] at left
      rw [alphaEqEntries, if_neg (not_not.2 head.1)]
      show (Item.alphaEq _ _ >>= fun same => _) = _
      rw [Item.alphaEq_of_related left.1 head.2]
      exact ih left.2

theorem wellFormed_entries (h : ∀ f ∈ m.functions, f.check = .ok ()) :
    ∀ x ∈ m.entries, x.2.WellFormed := by
  intro x mem f is
  refine h f (List.mem_filterMap.2 ⟨x, mem, ?_⟩)
  rw [is]
  rfl

theorem equivalent_of_alphaEq (left : ∀ f ∈ m.functions, f.check = .ok ())
    (right : ∀ g ∈ n.functions, g.check = .ok ()) (equal : m.alphaEq n = .ok true) :
    m.Equivalent n := by
  rw [alphaEq] at equal
  split at equal
  · cases equal
  · exact related_of_alphaEqEntries (wellFormed_entries left) (wellFormed_entries right) equal

theorem alphaEq_of_equivalent (left : ∀ f ∈ m.functions, f.check = .ok ())
    (equivalent : m.Equivalent n) : m.alphaEq n = .ok true := by
  have size : m.size = n.size := equivalent.length_eq
  rw [alphaEq, if_neg (not_not.2 size)]
  exact alphaEqEntries_of_related (wellFormed_entries left) equivalent

theorem names_of_equivalent (h : m.Equivalent n) : n.names = m.names := h.keys

/-! ### Passes -/

/-- What becomes of related definitions, if each two functions of them become related. -/
theorem related_of_related {R S T U : Function → Function → Prop}
    {xs ys xs' ys' : List (String × Item)} (h : Entries.Related R xs ys)
    (left : Entries.Related S xs xs') (right : Entries.Related T ys ys')
    (step : ∀ f g f' g', R f g → S f f' → T g g' → U f' g') : Entries.Related U xs' ys' := by
  induction h generalizing xs' ys' with
  | nil =>
      cases left
      cases right
      exact .nil
  | @cons x y _ _ head _ ih =>
      obtain ⟨key, i⟩ := x
      obtain ⟨key', j⟩ := y
      cases left with
      | @cons _ x' _ _ first left =>
          cases right with
          | @cons _ y' _ _ first' right =>
              obtain ⟨_, i'⟩ := x'
              obtain ⟨_, j'⟩ := y'
              refine .cons ⟨first.1.symm.trans (head.1.trans first'.1), ?_⟩ (ih left right)
              have items := head.2
              have lowered := first.2
              have lowered' := first'.2
              cases items with
              | function related =>
                  cases lowered with
                  | function one =>
                      cases lowered' with
                      | function other => exact .function (step _ _ _ _ related one other)
              | heapFunction =>
                  cases lowered
                  cases lowered'
                  exact .heapFunction

/-- Lowering that keeps functions in step keeps modules in step. -/
theorem agree_mapFunctions {lower : Function → Lowered Function} (h : m.Equivalent n)
    (step : ∀ κ f g, Function.Alike κ f g → Agree (Function.Alike κ) (lower f) (lower g)) :
    Agree Module.Equivalent (m.mapFunctions lower) (n.mapFunctions lower) := by
  have results : Agree (fun _ _ => True) (m.mapFunctions lower) (n.mapFunctions lower) := by
    refine Agree.bind (Agree.mapM (R := fun _ _ => True) h ?_) fun _ _ _ => .ok trivial
    rintro ⟨key, i⟩ ⟨_, j⟩ ⟨rfl, items⟩
    cases items with
    | heapFunction => exact .ok trivial
    | function equivalent =>
        obtain ⟨κ, alike⟩ := equivalent
        exact (step κ _ _ alike).bind fun _ _ _ => .ok trivial
  refine results.strengthen fun m' n' ofM ofN => ?_
  refine related_of_related h (mapFunctions_eq_ok ofM) (mapFunctions_eq_ok ofN) ?_
  rintro f g f' g' ⟨κ, alike⟩ one other
  exact ⟨κ, (step κ f g alike).of_ok one other⟩

theorem agree_lowerEntries (base : String) (taken : List String) {xs ys : List (String × Item)}
    (h : Entries.Related Function.Equivalent xs ys) :
    Agree (fun x y => Entries.Related Function.Equivalent x.1 y.1 ∧ x.2 = y.2)
      (ShapeHeap.lowerEntries base taken xs) (ShapeHeap.lowerEntries base taken ys) := by
  induction h generalizing taken with
  | nil => exact .ok ⟨.nil, rfl⟩
  | @cons x y _ _ head _ ih =>
      obtain ⟨key, i⟩ := x
      obtain ⟨key', j⟩ := y
      obtain ⟨rfl, items⟩ := head
      cases items with
      | heapFunction =>
          refine (ih taken).bind fun _ _ rest => .ok ⟨.cons ⟨rfl, .heapFunction⟩ rest.1, rest.2⟩
      | function equivalent =>
          obtain ⟨κ, alike⟩ := equivalent
          refine (ShapeHeap.agree_lowerFunction alike base taken).bind ?_
          rintro ⟨f', needed⟩ ⟨g', _⟩ ⟨lowered, rfl⟩
          exact (ih _).bind fun _ _ rest =>
            .ok ⟨.cons ⟨rfl, .function ⟨κ, lowered⟩⟩ rest.1, congrArg (needed.toList ++ ·) rest.2⟩

theorem agree_heapShapes (base : String) (h : m.Equivalent n) :
    Agree Module.Equivalent (m.heapShapes base) (n.heapShapes base) := by
  have entries := agree_lowerEntries base m.names h
  -- First that both succeed or neither does; what they give is read off the entries afterwards.
  have results : Agree (fun _ _ => True) (m.heapShapes base) (n.heapShapes base) := by
    rw [heapShapes, heapShapes, names_of_equivalent h]
    exact entries.bind fun _ _ _ => .ok trivial
  refine results.strengthen fun m' n' ofM ofN => ?_
  obtain ⟨lowered, generated, lowering, all⟩ := entries_heapShapes ofM
  obtain ⟨lowered', generated', lowering', all'⟩ := entries_heapShapes ofN
  rw [names_of_equivalent h] at lowering'
  obtain ⟨related, same⟩ := entries.of_ok lowering lowering'
  rw [Module.Equivalent, all, all', show generated = generated' from same]
  refine List.rel_append related (List.forall₂_same.2 fun x mem => ⟨rfl, ?_⟩)
  obtain ⟨fn, -, rfl⟩ := List.mem_map.1 mem
  exact .heapFunction

end Module

namespace Pass

variable {m n m' n' : Module}

theorem agree_run (h : m.Equivalent n) (pass : Pass) :
    Agree Module.Equivalent (pass.run m) (pass.run n) := by
  cases pass with
  | fusion => exact Module.agree_mapFunctions h fun _ _ _ => Function.Alike.fuse
  | demotion => exact Module.agree_mapFunctions h fun _ _ _ => Function.Alike.demote
  | destinations => exact Module.agree_mapFunctions h fun _ _ _ => Function.Alike.allocateOutputs
  | storage target =>
      exact Module.agree_mapFunctions h fun _ _ _ => Function.Alike.placeTensors target
  | shapeHeap base => exact Module.agree_heapShapes base h

/-- What a pass makes of well-formed functions is well formed. -/
theorem check_of_run {pass : Pass} (wellFormed : ∀ f ∈ m.functions, f.check = .ok ())
    (h : pass.run m = .ok m') : ∀ g ∈ m'.functions, g.check = .ok () := by
  intro g mem
  obtain ⟨key, found⟩ := Module.mem_functions.1 mem
  cases pass with
  | fusion =>
      obtain ⟨f, -, lowered⟩ := Module.get?_of_mapFunctions h found
      exact Function.check_of_fuse lowered
  | demotion =>
      obtain ⟨f, -, lowered⟩ := Module.get?_of_mapFunctions h found
      exact Function.check_of_demote lowered
  | destinations =>
      obtain ⟨f, -, lowered⟩ := Module.get?_of_mapFunctions h found
      exact Function.check_of_replaceBindings lowered
  | storage _ =>
      obtain ⟨f, -, lowered⟩ := Module.get?_of_mapFunctions h found
      exact Function.check_of_replaceBindings lowered
  | shapeHeap _ =>
      obtain ⟨f, taken, needed, there, lowered⟩ := Module.get?_of_heapShapes h found
      exact Function.check_of_lowerFunction (wellFormed f (Module.mem_functions.2 ⟨key, there⟩))
        lowered

/-- Every pass respects alpha-equivalence: on two modules of well-formed functions that are equal up
to the names and positions of variables it succeeds on both or on neither, and what it makes of them
is equal in the same sense. -/
theorem run_alphaEq (left : ∀ f ∈ m.functions, f.check = .ok ())
    (right : ∀ g ∈ n.functions, g.check = .ok ()) (equal : m.alphaEq n = .ok true) (pass : Pass) :
    ((∃ m', pass.run m = .ok m') ↔ ∃ n', pass.run n = .ok n') ∧
      ∀ m' n', pass.run m = .ok m' → pass.run n = .ok n' → m'.alphaEq n' = .ok true := by
  have agree := agree_run (Module.equivalent_of_alphaEq left right equal) pass
  refine ⟨agree.exists_iff, fun m' n' ofM ofN => ?_⟩
  exact Module.alphaEq_of_equivalent (check_of_run left ofM) (agree.of_ok ofM ofN)

/-- A function that allocates a tensor one longer than its parameter:

    fn main(x: (n,)) { y = alloc_tensor((n + 1,)) {float32}; y }
-/
def oneLonger : Function where
  name := "main"
  params := [⟨0⟩]
  blocks := [⟨.plain, [.define ⟨1⟩ (.ofOp .allocTensor [.shape [.binary .add (.var ⟨0⟩) (.int 1)]]
    (.allocTensor .float32))]⟩]
  body := .var ⟨1⟩
  retTy := none
  vars := [⟨"x", .plain, some [.var ⟨0⟩], none⟩, ⟨"y", .plain, none, none⟩]
  dimNames := ["n"]

/-- The same function with other names and positions, and with a variable and a dimension variable
that it does not use. -/
def oneLongerMoved : Function where
  name := "moved"
  params := [⟨2⟩]
  blocks := [⟨.plain, [.define ⟨0⟩ (.ofOp .allocTensor [.shape [.binary .add (.var ⟨1⟩) (.int 1)]]
    (.allocTensor .float32))]⟩]
  body := .var ⟨0⟩
  retTy := none
  vars := [⟨"b", .plain, none, none⟩, ⟨"unused", .dataflow, some [.var ⟨0⟩], none⟩,
    ⟨"a", .plain, some [.var ⟨1⟩], none⟩]
  dimNames := ["m", "k"]

/-- The module of this function alone. -/
def oneLongerModule : Module := .ofEntries [("main", .function oneLonger)]

/-- The module of the moved function alone. -/
def oneLongerMovedModule : Module := .ofEntries [("main", .function oneLongerMoved)]

theorem run_alphaEq_oneLonger :
    oneLongerModule ≠ oneLongerMovedModule ∧
      ∃ m' n', (shapeHeap "shape_func").run oneLongerModule = .ok m' ∧
        (shapeHeap "shape_func").run oneLongerMovedModule = .ok n' ∧
        m'.alphaEq n' = .ok true := by
  refine ⟨by decide +kernel, ?_⟩
  have both := run_alphaEq (m := oneLongerModule) (n := oneLongerMovedModule) (by decide +kernel)
    (by decide +kernel) (by decide +kernel) (shapeHeap "shape_func")
  obtain ⟨m', ofM⟩ : ∃ m', (shapeHeap "shape_func").run oneLongerModule = .ok m' :=
    exists_eq_ok (by decide +kernel)
  obtain ⟨n', ofN⟩ := both.1.1 ⟨m', ofM⟩
  exact ⟨m', n', ofM, ofN, both.2 m' n' ofM ofN⟩

end Pass

end TensorIR
