import TensorIR.Lowering.ShapeHeap
import TensorIR.Proofs.Result

/-!
# Where dimension variables get their values

At run time a function learns its dimension variables from the shapes of values: of the parameters
whose shape is recorded, in order, and then of the values that its bindings match, in program order.
An `Arrival` is one such place, and `Function.arrivals` lists them. A variable that stands alone in
the pattern of several arrivals, or several times in one, has the dimension of its first occurrence:
`Function.dimValue` looks it up in the dimensions of all arrivals, one after the other.

Lowering computes with the variables that an arrival is first to bind, `ShapeHeap.newVars`. The
lemmas on it say that these are exactly the variables of the pattern that were not bound before,
each at the position that the look-up finds.
-/

namespace TensorIR

/-- Where a value with a run-time shape comes from. -/
inductive Source where
  | param (v : Var)
  /-- The value of the binding at a position in program order. -/
  | binding (position : Nat)
deriving DecidableEq, Repr

/-- A value whose run-time shape is matched against a pattern. -/
structure Arrival where
  source : Source
  value : Expr
  pattern : Shape
deriving DecidableEq, Repr

/-- The dimension variables that stand alone in the pattern. -/
def Arrival.vars (a : Arrival) : List DimVar := HeapLayout.bound a.pattern

/-- The dimensions that the values of a function have at run time, by where they come from. -/
abbrev RunTimeShapes := Source → List Int64

/-- The value and the pattern of a matched shape at a position. -/
def Binding.arrival? (position : Nat) (b : Binding) : Option Arrival :=
  b.pattern?.map fun pattern => ⟨.binding position, b.value, pattern⟩

namespace Function

/-- The recorded shape of a parameter. -/
def paramArrival? (f : Function) (v : Var) : Option Arrival :=
  (f.vars[v.index]?.bind VarInfo.shape).map fun shape => ⟨.param v, .var v, shape⟩

/-- All arrivals of a function: its parameters, then its bindings in program order. -/
def arrivals (f : Function) : List Arrival :=
  f.params.filterMap f.paramArrival? ++ f.bindings.zipIdx.filterMap fun (b, i) => b.arrival? i

/-- The dimension variables that have a slot, in the order in which they are first bound. -/
def boundDimVars (f : Function) : List DimVar := (f.arrivals.flatMap Arrival.vars).eraseDups

/-- The dimensions that are computed into a slot: all of the symbolic shapes but bare variables. -/
def computedDims (f : Function) : List Dim :=
  (f.symbolicShapes.flatten.filter fun d => d.asVar?.isNone).eraseDups

/-- The layout of the shape heap that lowering plans for the function. -/
def layout (f : Function) : HeapLayout := ⟨f.boundDimVars, f.computedDims⟩

/-- Every run-time shape has as many dimensions as the pattern that it is matched against. -/
def Fits (f : Function) (shapes : RunTimeShapes) : Prop :=
  ∀ a ∈ f.arrivals, (shapes a.source).length = a.pattern.length

instance (f : Function) (shapes : RunTimeShapes) : Decidable (f.Fits shapes) :=
  inferInstanceAs (Decidable (∀ a ∈ f.arrivals, _))

end Function

/-- The value of a dimension variable: the dimension at its first occurrence in a list of
arrivals. -/
def firstDim (shapes : RunTimeShapes) (arrivals : List Arrival) (v : DimVar) : Option Int64 :=
  (arrivals.flatMap fun a => a.pattern.zip (shapes a.source)).lookup (.var v)

/-- The values of the dimension variables at run time: each is bound by the first arrival whose
pattern has it. -/
def Function.dimValue (f : Function) (shapes : RunTimeShapes) : DimVar → Option Int64 :=
  firstDim shapes f.arrivals

theorem mem_bound {v : DimVar} {s : Shape} : v ∈ HeapLayout.bound s ↔ Dim.var v ∈ s := by
  rw [HeapLayout.bound, List.mem_filterMap]
  constructor
  · rintro ⟨d, mem, found⟩
    cases d with
    | var u => cases found; exact mem
    | int _ | binary _ _ _ => cases found
  · intro mem
    exact ⟨_, mem, rfl⟩

/-! ### The layout -/

theorem paramShapes_bound {f : Function} {vs : List Var} {shapes : List Shape}
    (h : HeapLayout.paramShapes f vs = .ok shapes) :
    shapes.flatMap HeapLayout.bound = (vs.filterMap f.paramArrival?).flatMap Arrival.vars := by
  induction vs generalizing shapes with
  | nil => cases h; rfl
  | cons v vs ih =>
      rw [HeapLayout.paramShapes] at h
      obtain ⟨info, found, h⟩ := bind_eq_ok.1 h
      obtain ⟨rest, tail, h⟩ := bind_eq_ok.1 h
      rw [looking_eq_ok, Function.info] at found
      split at found
      · next info' present =>
          cases found
          cases h
          rw [List.flatMap_cons, ih tail, List.filterMap_cons, Function.paramArrival?, present,
            Option.bind_some]
          cases info.shape with
          | none => rfl
          | some s => rfl
      · cases found

theorem patterns_bound (bs : List Binding) (i : Nat) :
    (bs.filterMap Binding.pattern?).flatMap HeapLayout.bound =
      ((bs.zipIdx i).filterMap fun (b, j) => b.arrival? j).flatMap Arrival.vars := by
  induction bs generalizing i with
  | nil => rfl
  | cons b bs ih =>
      simp only [List.zipIdx_cons, List.filterMap_cons, Binding.arrival?] at ih ⊢
      cases b.pattern? with
      | none => exact ih (i + 1)
      | some p => exact congrArg (HeapLayout.bound p ++ ·) (ih (i + 1))

/-- What is planned where the parameters are allocated. -/
theorem plan_eq {f : Function} {params : List Shape}
    (found : HeapLayout.paramShapes f f.params = .ok params) :
    HeapLayout.plan f f.symbolicShapes =
      match (f.symbolicShapes.flatMap Shape.vars).find? fun v => !f.boundDimVars.contains v with
      | some v => do throw (.unboundDimVar f.name (← HeapLayout.dimName f v))
      | none => .ok f.layout := by
  have vars : ((params ++ f.bindings.filterMap Binding.pattern?).flatMap
      HeapLayout.bound).eraseDups = f.boundDimVars := by
    rw [Function.boundDimVars, Function.arrivals, List.flatMap_append, List.flatMap_append,
      paramShapes_bound found, patterns_bound _ 0]
  simp only [HeapLayout.plan, found, ok_bind, vars]
  rfl

/-- A layout that was planned has the bound variables and then the computed dimensions, and every
variable of a symbolic shape is among those bound. -/
theorem plan_eq_ok {f : Function} {layout : HeapLayout}
    (h : HeapLayout.plan f f.symbolicShapes = .ok layout) :
    layout = f.layout ∧
      ∀ s ∈ f.symbolicShapes, ∀ v ∈ s.vars, v ∈ f.boundDimVars := by
  obtain ⟨params, found, -⟩ := bind_eq_ok.1 h
  rw [plan_eq found] at h
  split at h
  · obtain ⟨_, _, h⟩ := bind_eq_ok.1 h
    exact absurd h throw_ne_ok
  · next all =>
      refine ⟨(pure_eq_ok.1 h).symm, fun s hs v hv => ?_⟩
      have bound := List.find?_eq_none.1 all v (List.mem_flatMap.2 ⟨s, hs, hv⟩)
      simpa using bound

/-! ### New variables -/

namespace ShapeHeap

theorem mem_newVars_snd {stored : List DimVar} {offset : Nat} {s : Shape} {v : DimVar} :
    v ∈ (newVars stored offset s).map Prod.snd ↔ v ∈ HeapLayout.bound s ∧ v ∉ stored := by
  rw [mem_bound]
  fun_induction newVars stored offset s with
  | case1 => simp
  | case2 stored offset u dims seen ih =>
      rw [ih, List.mem_cons, Dim.var.injEq]
      have seen : u ∈ stored := by simpa using seen
      constructor
      · rintro ⟨mem, new⟩
        exact ⟨.inr mem, new⟩
      · rintro ⟨rfl | mem, new⟩
        · exact absurd seen new
        · exact ⟨mem, new⟩
  | case3 stored offset u dims new ih =>
      rw [List.map_cons, List.mem_cons, ih, List.mem_cons, List.mem_cons, Dim.var.injEq]
      have new : u ∉ stored := by simpa using new
      by_cases same : v = u
      · subst same; simp [new]
      · simp [same]
  | case4 stored offset n dims ih => rw [ih]; simp
  | case5 stored offset op lhs rhs dims ih => rw [ih]; simp

theorem newVars_eq_nil_iff {stored : List DimVar} {offset : Nat} {s : Shape} :
    newVars stored offset s = [] ↔ ∀ v ∈ HeapLayout.bound s, v ∈ stored := by
  rw [← List.map_eq_nil_iff (f := Prod.snd), List.eq_nil_iff_forall_not_mem]
  refine forall_congr' fun v => ?_
  rw [mem_newVars_snd, not_and, Classical.not_not]

/-- The look-up in a longer list, past a dimension that is not the variable. -/
theorem lookup_zip_cons {s : Shape} {ns : List Int64} {d : Dim} {m : Int64} {v : DimVar}
    {offset p : Nat} (differ : Dim.var v ≠ d)
    (h : ∃ i n, p = offset + 1 + i ∧ ns[i]? = some n ∧ (s.zip ns).lookup (Dim.var v) = some n) :
    ∃ i n, p = offset + i ∧ (m :: ns)[i]? = some n ∧
      ((d :: s).zip (m :: ns)).lookup (Dim.var v) = some n := by
  obtain ⟨i, n, rfl, at_, found⟩ := h
  refine ⟨i + 1, n, by omega, at_, ?_⟩
  rw [List.zip_cons_cons, List.lookup_cons, beq_false_of_ne differ]
  exact found

/-- A new variable stands at the position where the look-up by first occurrence finds it. -/
theorem lookup_newVars {stored : List DimVar} {offset p : Nat} {s : Shape} {v : DimVar}
    {ns : List Int64} (mem : (p, v) ∈ newVars stored offset s) (fits : ns.length = s.length) :
    ∃ i n, p = offset + i ∧ ns[i]? = some n ∧ (s.zip ns).lookup (Dim.var v) = some n := by
  fun_induction newVars stored offset s generalizing ns with
  | case1 => cases mem
  | case2 stored offset u dims seen ih =>
      obtain ⟨n, ns, rfl⟩ := List.exists_cons_of_length_eq_add_one fits
      -- A new variable is not one that is stored, so the dimension at hand is never taken for it.
      have fresh : v ∉ stored := (mem_newVars_snd.1 (List.mem_map.2 ⟨_, mem, rfl⟩)).2
      have differ : v ≠ u := by
        rintro rfl
        exact fresh (by simpa using seen)
      exact lookup_zip_cons (by simpa using differ) (ih mem (Nat.succ.inj fits))
  | case3 stored offset u dims new ih =>
      obtain ⟨n, ns, rfl⟩ := List.exists_cons_of_length_eq_add_one fits
      rcases List.mem_cons.1 mem with same | mem
      · cases same
        exact ⟨0, n, rfl, rfl, by simp⟩
      · have fresh : v ∉ u :: stored := (mem_newVars_snd.1 (List.mem_map.2 ⟨_, mem, rfl⟩)).2
        have differ : v ≠ u := by
          rintro rfl
          exact fresh List.mem_cons_self
        exact lookup_zip_cons (by simpa using differ) (ih mem (Nat.succ.inj fits))
  | case4 stored offset n dims ih =>
      obtain ⟨m, ns, rfl⟩ := List.exists_cons_of_length_eq_add_one fits
      exact lookup_zip_cons nofun (ih mem (Nat.succ.inj fits))
  | case5 stored offset op lhs rhs dims ih =>
      obtain ⟨m, ns, rfl⟩ := List.exists_cons_of_length_eq_add_one fits
      exact lookup_zip_cons nofun (ih mem (Nat.succ.inj fits))

end ShapeHeap

/-! ### First occurrences -/

theorem firstDim_append {shapes : RunTimeShapes} {before after : List Arrival} {v : DimVar}
    (new : ∀ a ∈ before, v ∉ a.vars) :
    firstDim shapes (before ++ after) v = firstDim shapes after v := by
  rw [firstDim, firstDim, List.flatMap_append, List.lookup_append]
  have missing : (before.flatMap fun a => a.pattern.zip (shapes a.source)).lookup (Dim.var v) =
      none := by
    rw [List.lookup_eq_none_iff]
    intro entry mem
    obtain ⟨a, ha, mem⟩ := List.mem_flatMap.1 mem
    obtain ⟨d, n⟩ := entry
    have inPattern := (List.of_mem_zip mem).1
    rw [bne_iff_ne]
    rintro rfl
    exact new a ha (mem_bound.2 inPattern)
  rw [missing, Option.none_or]

/-- An arrival gives each variable that it is first to bind the dimension at its position. -/
theorem firstDim_newVars {shapes : RunTimeShapes} {before after : List Arrival} {a : Arrival}
    {stored : List DimVar} {p : Nat} {v : DimVar}
    (complete : ∀ u, u ∈ stored ↔ ∃ a ∈ before, u ∈ a.vars)
    (fits : (shapes a.source).length = a.pattern.length)
    (mem : (p, v) ∈ ShapeHeap.newVars stored 0 a.pattern) :
    ∃ n, (shapes a.source)[p]? = some n ∧
      firstDim shapes (before ++ a :: after) v = some n := by
  have new := ShapeHeap.mem_newVars_snd.1 (List.mem_map.2 ⟨_, mem, rfl⟩)
  obtain ⟨i, n, rfl, at_, found⟩ := ShapeHeap.lookup_newVars mem fits
  rw [Nat.zero_add]
  refine ⟨n, at_, ?_⟩
  rw [firstDim_append fun b hb bound => new.2 ((complete v).2 ⟨b, hb, bound⟩)]
  rw [firstDim, List.flatMap_cons, List.lookup_append, found, Option.some_or]

end TensorIR
