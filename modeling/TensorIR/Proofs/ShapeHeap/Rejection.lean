import TensorIR.Proofs.ShapeHeap.Readiness

/-!
# Modules that cannot be lowered

Lowering to the heap stops at the first function that fails, with the error of that function. For
functions that come from a builder the error is known without lowering them. If the names of matched
values fit, it tells of a dimension variable that is not bound where it is mentioned
(`Module.heapShapes_verdict`). If only their types do, it may also be that the builder refuses an
alias, of which `clashed` is an example, and it is for no other reason that a builder refuses to
build a function again (`Module.heapShapes_rebuild`).
-/

namespace TensorIR

namespace Module

variable {base : String} {m : Module}

/-- Where names fit, a module is lowered unless one of its functions mentions a dimension variable
that is not bound before, and the error is the first such mention of the first such function, or
its first mention of a variable that is bound nowhere. Functions without symbolic shapes are left
as they are. -/
theorem heapShapes_verdict (flat : ∀ f ∈ m.functions, f.Flat)
    (fit : ∀ f ∈ m.functions, f.NamesFit) :
    (∀ e, m.heapShapes base = .error e ↔ ∃ before f after, m.functions = before ++ f :: after ∧
      f.Verdict (some e) ∧ ∀ g ∈ before, g.Verdict none) ∧
    ((∃ m', m.heapShapes base = .ok m') ↔ ∀ f ∈ m.functions, f.Verdict none) ∧
    ∀ m', m.heapShapes base = .ok m' → ∀ key f, m.get? key = some (.function f) →
      f.symbolicShapes = [] → m'.get? key = some (.function f) := by
  have answers := heapShapes_answers base fun f mem => (flat f mem).lowerable
  have verdict {f : Function} (mem : f ∈ m.functions) {fault : Option LoweringError} :
      f.Verdict fault ↔ f.heapFault? = fault :=
    Function.verdict_iff (flat f mem).lowerable (fit f mem)
  refine ⟨fun e => ?_, ?_, fun m' lowered key f found literal => ?_⟩
  · rw [answers.eq_error_iff, List.findSome?_eq_some_iff]
    refine exists_congr fun before => exists_congr fun f => exists_congr fun after =>
      and_congr_right fun split => ?_
    rw [verdict (split ▸ List.mem_append_right _ List.mem_cons_self)]
    exact and_congr_right fun _ => forall₂_congr fun g mem =>
      (verdict (split ▸ List.mem_append_left _ mem)).symm
  · rw [answers.exists_eq_ok_iff, List.findSome?_eq_none_iff]
    exact forall₂_congr fun f mem => (verdict mem).symm
  · obtain ⟨entries, generated, lowering, all⟩ := entries_heapShapes lowered
    obtain ⟨g, mem, taken, needed, is⟩ :=
      (lowerEntries_related lowering).mem_left (get?_eq_some_iff.1 found)
    have same : g = f := by
      rw [ShapeHeap.lowerFunction, literal] at is
      cases is
      rfl
    rw [get?_eq_some_iff, all]
    exact List.mem_append_left _ (same ▸ mem)

/-- A function in which the shape of a matched value is named, and bound before it is mentioned:

    fn aliased(x: (n), z) { w: match_shape(z, (m)); lv0 = (n * m, 2); (m) }
-/
def aliasing : List Builder.Action :=
  [.dimVar "n", .dimVar "m", .param "x" (some [.var ⟨0⟩]) none, .param "z" none none,
    .fresh ⟨"w", .plain, none, none⟩,
    .push (.matchShape (some ⟨2⟩) (.var ⟨1⟩) [.var ⟨1⟩]),
    .emit (.shape [.binary .mul (.var ⟨0⟩) (.var ⟨1⟩), .int 2])]

/-- The function that the history builds, which gives the shape of what it has matched. -/
def aliased : Function :=
  (({ name := "aliased" } : Builder).performAll aliasing).toFunction (.shape [.var ⟨1⟩])

theorem flat_aliased : aliased.Flat where
  emitted := ⟨{ name := "aliased" }, aliasing, .shape [.var ⟨1⟩], .new _, by simp [aliasing],
    by decide +kernel, by decide +kernel⟩
  plain := by decide +kernel
  inner := by decide +kernel
  result := by decide +kernel

theorem namesFit_aliased : aliased.NamesFit := by
  intro v value pattern info mem recorded
  have bindings : aliased.bindings = [.matchShape (some ⟨2⟩) (.var ⟨1⟩) [.var ⟨1⟩],
      .define ⟨3⟩ (.shape [.binary .mul (.var ⟨0⟩) (.var ⟨1⟩), .int 2])] := by decide +kernel
  have vars : aliased.vars[2]? = some ⟨"w", .plain, none, none⟩ := by decide +kernel
  rw [bindings] at mem
  simp only [List.mem_cons, Binding.matchShape.injEq, Option.some.injEq, reduceCtorEq,
    List.not_mem_nil, or_false] at mem
  obtain ⟨rfl, rfl, rfl⟩ := mem
  rw [vars] at recorded
  cases recorded
  exact ⟨nofun, nofun⟩

/-- A function that matches a shape against the variable that this binds:

    fn late(x) { match_shape((n), (n)); x }
-/
def matchingItself : List Builder.Action :=
  [.dimVar "n", .param "x" none none, .push (.matchShape none (.shape [.var ⟨0⟩]) [.var ⟨0⟩])]

/-- The function that the history builds, which gives its parameter. -/
def late : Function :=
  (({ name := "late" } : Builder).performAll matchingItself).toFunction (.var ⟨0⟩)

theorem flat_late : late.Flat where
  emitted := ⟨{ name := "late" }, matchingItself, .var ⟨0⟩, .new _, by simp [matchingItself],
    by decide +kernel, by decide +kernel⟩
  plain := by decide +kernel
  inner := by decide +kernel
  result := by decide +kernel

theorem namesFit_late : late.NamesFit := by
  intro v value pattern info mem
  have bindings : late.bindings = [.matchShape none (.shape [.var ⟨0⟩]) [.var ⟨0⟩]] := by
    decide +kernel
  rw [bindings] at mem
  simp at mem

/-- The module of the two functions, of which only the second is rejected. -/
def aliasedAndLate : Module := .ofEntries
  [("aliased", .function aliased), ("late", .function late)]

/-- What the pattern of a binding binds is bound too late for its value. -/
theorem heapShapes_verdict_late :
    aliasedAndLate.heapShapes "shape_func" = .error (.dimVarNotReady "late" "n") := by
  have functions : aliasedAndLate.functions = [aliased, late] := by decide +kernel
  have flat : ∀ f ∈ aliasedAndLate.functions, f.Flat := by
    rw [functions]
    exact List.forall_mem_cons.2 ⟨flat_aliased, List.forall_mem_singleton.2 flat_late⟩
  have fit : ∀ f ∈ aliasedAndLate.functions, f.NamesFit := by
    rw [functions]
    exact List.forall_mem_cons.2 ⟨namesFit_aliased, List.forall_mem_singleton.2 namesFit_late⟩
  have ready : aliased.Verdict none := .ready (by decide +kernel)
  have unready : late.Verdict (some (.dimVarNotReady "late" "n")) :=
    @Function.Verdict.notReady late [] 0 ⟨0⟩ [] (by decide +kernel) (by decide +kernel)
      (List.forall_mem_nil _) (by decide +kernel)
  exact ((heapShapes_verdict flat fit).1 _).2
    ⟨[aliased], late, [], functions, unready, List.forall_mem_singleton.2 ready⟩

/-- Where the types of names are compatible, the builder refuses to build a function again only if a
matched value clashes with the shape of its name. -/
theorem heapShapes_rebuild (flat : ∀ f ∈ m.functions, f.Flat)
    (compatible : ∀ f ∈ m.functions, f.NamesCompatible) :
    (∀ name e, m.heapShapes base = .error (.build name e) ↔
      ∃ before f after, m.functions = before ++ f :: after ∧ (name = f.name ∧ f.Breaks e) ∧
        ∀ g ∈ before, g.Passes) ∧
    ((∃ m', m.heapShapes base = .ok m') ↔ ∀ f ∈ m.functions, f.Passes) ∧
    ∀ fault, m.heapShapes base = .error fault → (∃ name e, fault = .build name e) ∨
      (∃ name d, fault = .unboundDimVar name d) ∨ ∃ name d, fault = .dimVarNotReady name d := by
  have answers := heapShapes_answers base fun f mem => (flat f mem).lowerable
  refine ⟨fun name e => ?_, ?_, fun fault failed => ?_⟩
  · rw [answers.eq_error_iff, List.findSome?_eq_some_iff]
    refine exists_congr fun before => exists_congr fun f => exists_congr fun after =>
      and_congr_right fun split => ?_
    have mem : f ∈ m.functions := split ▸ List.mem_append_right _ List.mem_cons_self
    rw [Function.heapFault?_eq_build (flat f mem).lowerable (compatible f mem)]
    refine and_congr_right fun _ => forall₂_congr fun g earlier => ?_
    have mem : g ∈ m.functions := split ▸ List.mem_append_left _ earlier
    exact Function.heapFault?_eq_none (flat g mem).lowerable (compatible g mem)
  · rw [answers.exists_eq_ok_iff, List.findSome?_eq_none_iff]
    exact forall₂_congr fun f mem =>
      Function.heapFault?_eq_none (flat f mem).lowerable (compatible f mem)
  · obtain ⟨f, -, fails⟩ := List.exists_of_findSome?_eq_some (answers.eq_error_iff.1 failed)
    exact Function.heapFault?_kind fails

/-- A function that gives a matched value a name with a recorded shape of its own:

    fn main(x: (n)) { y: (m) = match_shape(x, (m)); (y, (m)) }
-/
def clashing : List Builder.Action :=
  [.dimVar "n", .dimVar "m", .param "x" (some [.var ⟨0⟩]) (some (.tensor (some 1) .float32)),
    .fresh ⟨"y", .plain, some [.var ⟨1⟩], some (.tensor (some 1) .float32)⟩,
    .push (.matchShape (some ⟨1⟩) (.var ⟨0⟩) [.var ⟨1⟩])]

/-- The function that the history builds. -/
def clashed : Function :=
  (({ name := "main" } : Builder).performAll clashing).toFunction
    (.tuple [.var ⟨1⟩, .shape [.var ⟨1⟩]])

theorem flat_clashed : clashed.Flat where
  emitted := ⟨{ name := "main" }, clashing, .tuple [.var ⟨1⟩, .shape [.var ⟨1⟩]], .new _,
    by simp [clashing], by decide +kernel, by decide +kernel⟩
  plain := by decide +kernel
  inner := by decide +kernel
  result := by decide +kernel

theorem bindings_clashed :
    clashed.bindings = [.matchShape (some ⟨1⟩) (.var ⟨0⟩) [.var ⟨1⟩]] := by decide +kernel

theorem record_clashed : clashed.vars[1]? =
    some ⟨"y", .plain, some [.var ⟨1⟩], some (.tensor (some 1) .float32)⟩ := by decide +kernel

theorem namesCompatible_clashed : clashed.NamesCompatible := by
  intro v value pattern info mem recorded
  rw [bindings_clashed, List.mem_singleton] at mem
  cases mem
  rw [record_clashed] at recorded
  cases recorded
  decide +kernel

/-- The module of this function alone. -/
def clashingModule : Module := .ofEntries [("main", .function clashed)]

/-- The types are the same, and yet the builder refuses to build the function again. -/
theorem clashed_refused : clashed.Flat ∧ clashed.NamesCompatible ∧
    clashingModule.get? "main" = some (.function clashed) ∧
    clashingModule.heapShapes "shape_func" =
      .error (.build "main" (.shapeMismatch "y" "(m,)" "(n,)")) :=
  ⟨flat_clashed, namesCompatible_clashed, by decide +kernel, by decide +kernel⟩

theorem heapShapes_rebuild_clashed :
    (Module.ofEntries [("aliased", .function aliased), ("main", .function clashed)]).heapShapes
      "shape_func" = .error (.build "main" (.shapeMismatch "y" "(m,)" "(n,)")) := by
  generalize mixed : Module.ofEntries [("aliased", .function aliased), ("main", .function clashed)]
    = m
  have functions : m.functions = [aliased, clashed] := by
    rw [← mixed]
    decide +kernel
  have flat : ∀ f ∈ m.functions, f.Flat := by
    rw [functions]
    exact List.forall_mem_cons.2 ⟨flat_aliased, List.forall_mem_singleton.2 flat_clashed⟩
  have compatible : ∀ f ∈ m.functions, f.NamesCompatible := by
    rw [functions]
    exact List.forall_mem_cons.2
      ⟨namesFit_aliased.compatible, List.forall_mem_singleton.2 namesCompatible_clashed⟩
  have passes : aliased.Passes := by
    refine ⟨by decide +kernel, fun _ n e => namesFit_aliased.not_clashes⟩
  have clash : clashed.Clashes 0 (.shapeMismatch "y" "(m,)" "(n,)") := by
    have at_ := congrArg (·[0]?) bindings_clashed
    have inferred : (Expr.var ⟨0⟩).inferShape? clashed.vars = some [.var ⟨0⟩] := by decide +kernel
    exact .intro at_ record_clashed rfl inferred (by decide)
  have breaks : clashed.Breaks (.shapeMismatch "y" "(m,)" "(n,)") :=
    ⟨by decide +kernel, by decide +kernel, 0, clash, by decide +kernel, nofun⟩
  exact ((heapShapes_rebuild flat compatible).1 _ _).2
    ⟨[aliased], clashed, [], functions, ⟨rfl, breaks⟩, List.forall_mem_singleton.2 passes⟩

end Module

end TensorIR
