import TensorIR.Expr.Vars
import TensorIR.Function
import TensorIR.Proofs.Emission

/-!
# Evaluation of functions

What a function computes, given what calls compute. An `Interpretation` says what a call gives for
each callee, attributes and argument values; annotations have no part in it. An environment holds
the values of variables and of dimension variables. Bindings run in order and each adds to the
environment: a definition binds its variable, and a matched shape binds in addition those dimension
variables of its pattern that have no value yet. Whatever has no value, an unbound variable, a
dimension that overflows, a call that fails, leaves the whole function without one.

A binding never takes a value away, so what an expression evaluates to it keeps evaluating to
(`eval_mono`), as long as no variable is bound twice. Evaluation follows a renaming of variables
(`eval_rename`), and annotations do not change it (`eval_annotate`).
-/

namespace TensorIR

universe u

/-- What each form of expression means in terms of values of some kind. Calls, components and the
dimensions of a value may have no meaning. -/
structure Interpretation (V : Type u) where
  call : Callee → Attrs → List V → Option V
  tuple : List V → V
  item : V → Nat → Option V
  const : Const → V
  external : String → V
  global : String → V
  shape : List Int64 → V
  /-- The run-time dimensions of a value. -/
  dims : V → Option (List Int64)

/-- The values of the variables and of the dimension variables that have been bound so far. -/
structure Env (V : Type u) where
  vars : Var → Option V
  dims : DimVar → Option Int64

namespace Env

variable {V : Type u}

/-- The environment in which the variable stands for the value. -/
def bind (env : Env V) (v : Var) (x : V) : Env V :=
  { env with vars := fun u => if u = v then some x else env.vars u }

/-- The values of dimension variables after a shape is matched. One that has a value keeps it. -/
def bindDims (dims : DimVar → Option Int64) : List (Dim × Int64) → DimVar → Option Int64
  | [] => dims
  | (.var v, n) :: rest => bindDims (fun u => if u = v then dims v <|> some n else dims u) rest
  | (.int _, _) :: rest | (.binary .., _) :: rest => bindDims dims rest

/-- Every value of the one environment is a value of the other. -/
structure Extends (env env' : Env V) : Prop where
  vars : ∀ v x, env.vars v = some x → env'.vars v = some x
  dims : ∀ v n, env.dims v = some n → env'.dims v = some n

theorem bind_self (env : Env V) (v : Var) (x : V) : (env.bind v x).vars v = some x :=
  if_pos rfl

theorem bind_of_ne (env : Env V) {v u : Var} (x : V) (h : u ≠ v) :
    (env.bind v x).vars u = env.vars u := if_neg h

/-- Binding a variable that has no value takes no value away. -/
theorem extends_bind {env : Env V} {v : Var} {x : V} (h : env.vars v = none) :
    env.Extends (env.bind v x) := by
  refine ⟨fun u y bound => ?_, fun _ _ bound => bound⟩
  rw [bind_of_ne]
  · exact bound
  · rintro rfl
    rw [h] at bound
    cases bound

theorem bindDims_of_some {dims : DimVar → Option Int64} {v : DimVar} {n : Int64}
    (h : dims v = some n) (pairs : List (Dim × Int64)) : bindDims dims pairs v = some n := by
  induction pairs generalizing dims with
  | nil => exact h
  | cons pair pairs ih =>
      obtain ⟨d, m⟩ := pair
      cases d with
      | int _ | binary _ _ _ => exact ih h
      | var u =>
          refine ih ?_
          by_cases same : v = u
          · subst same
            simp [h]
          · simp [same, h]

end Env

namespace Interpretation

variable {V : Type u} (I : Interpretation V)

mutual

/-- The value of an expression, if everything in it has one. -/
def eval (env : Env V) : Expr → Option V
  | .var v => env.vars v
  | .shape s => (s.mapM (Dim.eval env.dims)).map I.shape
  | .tuple fields => (evalAll env fields).map I.tuple
  | .item t i => (eval env t).bind (I.item · i)
  | .const c => some (I.const c)
  | .external s => some (I.external s)
  | .global n => some (I.global n)
  | .call head args => (evalAll env args).bind (I.call head.callee head.attrs)

/-- The values of a list of expressions, from left to right. -/
def evalAll (env : Env V) : List Expr → Option (List V)
  | [] => some []
  | e :: es => (eval env e).bind fun x => (evalAll env es).map (x :: ·)

end

/-- The environment after a binding, if its value can be computed. -/
def run (env : Env V) : Binding → Option (Env V)
  | .define v value => (I.eval env value).map (env.bind v)
  | .matchShape v? value pattern =>
    (I.eval env value).bind fun x =>
      (I.dims x).map fun ns =>
        { vars := ((v?.map fun v => env.bind v x).getD env).vars,
          dims := Env.bindDims env.dims (pattern.zip ns) }

/-- The environment after bindings in order; the first that fails ends the run. -/
def runAll (env : Env V) (bs : List Binding) : Option (Env V) := bs.foldlM I.run env

variable {I}

theorem runAll_concat (env : Env V) (bs : List Binding) (b : Binding) :
    I.runAll env (bs ++ [b]) = (I.runAll env bs).bind (I.run · b) := by
  rw [runAll, List.foldlM_append]
  refine congrArg _ (funext fun env => ?_)
  rw [List.foldlM_cons]
  exact bind_pure _

theorem eval_call_pair {env : Env V} {head : CallHead} {a b : Expr} {z : V}
    (h : I.eval env (.call head [a, b]) = some z) :
    ∃ x y, I.eval env a = some x ∧ I.eval env b = some y ∧
      I.call head.callee head.attrs [x, y] = some z := by
  rw [eval] at h
  obtain ⟨xs, args, called⟩ := Option.bind_eq_some_iff.1 h
  rw [evalAll] at args
  obtain ⟨x, left, args⟩ := Option.bind_eq_some_iff.1 args
  obtain ⟨ys, tail, rfl⟩ := Option.map_eq_some_iff.1 args
  rw [evalAll] at tail
  obtain ⟨y, right, tail⟩ := Option.bind_eq_some_iff.1 tail
  cases tail
  exact ⟨x, y, left, right, called⟩

/-! ### Evaluation under renaming and annotation -/

mutual

theorem eval_rename {env env' : Env V} {r : Var → Var} (dims : env'.dims = env.dims) : ∀ e : Expr,
    (∀ v ∈ e.reads, env'.vars (r v) = env.vars v) → I.eval env' (e.rename r) = I.eval env e
  | .var v, h => h v (List.mem_singleton_self v)
  | .shape s, _ => by rw [Expr.rename, eval, eval, dims]
  | .tuple es, h => by rw [Expr.rename, eval, eval, evalAll_rename dims es h]
  | .item t i, h => by rw [Expr.rename, eval, eval, eval_rename dims t h]
  | .call head es, h => by rw [Expr.rename, eval, eval, evalAll_rename dims es h]
  | .const _, _ | .external _, _ | .global _, _ => by rw [Expr.rename, eval, eval]

theorem evalAll_rename {env env' : Env V} {r : Var → Var} (dims : env'.dims = env.dims) :
    ∀ es : List Expr, (∀ v ∈ Expr.readsAll es, env'.vars (r v) = env.vars v) →
      I.evalAll env' (Expr.renameAll r es) = I.evalAll env es
  | [], _ => by rw [Expr.renameAll, evalAll, evalAll]
  | e :: es, h => by
      rw [Expr.readsAll] at h
      rw [Expr.renameAll, evalAll, evalAll,
        eval_rename dims e fun v hv => h v (List.mem_append_left _ hv),
        evalAll_rename dims es fun v hv => h v (List.mem_append_right _ hv)]

end

theorem eval_annotate (env : Env V) (vars : List VarInfo) (e : Expr) :
    I.eval env (e.annotate vars) = I.eval env e := by
  cases e with
  | call head args => rw [Expr.annotate, eval, eval]
  | var _ | shape _ | tuple _ | item _ _ | const _ | external _ | global _ => rfl

/-! ### Evaluation in a larger environment -/

theorem evalDim_mono {ρ ρ' : DimVar → Option Int64} (h : ∀ v n, ρ v = some n → ρ' v = some n)
    {d : Dim} {n : Int64} (value : d.eval ρ = some n) : d.eval ρ' = some n := by
  induction d generalizing n with
  | int m => exact value
  | var v => exact h v n value
  | binary op lhs rhs ihl ihr =>
      obtain ⟨a, b, left, right, applied⟩ := Dim.eval_binary_eq_some.1 value
      exact Dim.eval_binary_eq_some.2 ⟨a, b, ihl left, ihr right, applied⟩

theorem evalDims_mono {ρ ρ' : DimVar → Option Int64} (h : ∀ v n, ρ v = some n → ρ' v = some n)
    {s : Shape} {ns : List Int64} (value : s.mapM (Dim.eval ρ) = some ns) :
    s.mapM (Dim.eval ρ') = some ns := by
  induction s generalizing ns with
  | nil => exact value
  | cons d s ih =>
      obtain ⟨n, rest, rfl, head, tail⟩ := Shape.eval_cons.1 value
      exact Shape.eval_cons.2 ⟨n, rest, rfl, evalDim_mono h head, ih tail⟩

mutual

theorem eval_mono {env env' : Env V} (h : env.Extends env') : ∀ {e : Expr} {x : V},
    I.eval env e = some x → I.eval env' e = some x
  | .var v, x, value => h.vars v x value
  | .shape s, x, value => by
      rw [eval] at value ⊢
      obtain ⟨ns, dims, same⟩ := Option.map_eq_some_iff.1 value
      rw [evalDims_mono h.dims dims, ← same]
      rfl
  | .tuple es, x, value => by
      rw [eval] at value ⊢
      obtain ⟨xs, fields, same⟩ := Option.map_eq_some_iff.1 value
      rw [evalAll_mono h fields, ← same]
      rfl
  | .item t i, x, value => by
      rw [eval] at value ⊢
      obtain ⟨y, inner, same⟩ := Option.bind_eq_some_iff.1 value
      rw [eval_mono h inner]
      exact same
  | .call head es, x, value => by
      rw [eval] at value ⊢
      obtain ⟨xs, args, same⟩ := Option.bind_eq_some_iff.1 value
      rw [evalAll_mono h args]
      exact same
  | .const _, _, value | .external _, _, value | .global _, _, value => by
      rw [eval] at value ⊢
      exact value

theorem evalAll_mono {env env' : Env V} (h : env.Extends env') : ∀ {es : List Expr} {xs : List V},
    I.evalAll env es = some xs → I.evalAll env' es = some xs
  | [], xs, value => by
      rw [evalAll] at value ⊢
      exact value
  | e :: es, xs, value => by
      rw [evalAll] at value ⊢
      obtain ⟨y, head, value⟩ := Option.bind_eq_some_iff.1 value
      obtain ⟨ys, tail, same⟩ := Option.map_eq_some_iff.1 value
      rw [eval_mono h head, evalAll_mono h tail, ← same]
      rfl

end

end Interpretation

/-! ### Functions -/

namespace Function

variable {V : Type u}

/-- The environment in which a function begins: its parameters have the given values, and dimension
variables have what is given for them. -/
def entry (f : Function) (args : Var → V) (dims : DimVar → Option Int64) : Env V where
  vars v := if v ∈ f.params then some (args v) else none
  dims

/-- The environment after the bindings of a function, and the value of its body. -/
def evaluate (f : Function) (I : Interpretation V) (args : Var → V)
    (dims : DimVar → Option Int64) : Option (Env V × V) :=
  (I.runAll (f.entry args dims) f.bindings).bind fun env => (I.eval env f.body).map (env, ·)

end Function

end TensorIR
