import TensorIR.Expr

/-!
# The variables of an expression

`Expr.reads` lists the variables that an expression reads, from left to right and with every
occurrence. `Expr.rename` replaces them. Renaming is exact on reads: the reads of the renamed
expression are the renamed reads, in the same order, and nothing else of the expression changes.

A `Renaming` is a finite map of variables to variables that leaves all others alone.
-/

namespace TensorIR

namespace Expr

mutual

/-- The variables that an expression reads from left to right, one entry for each occurrence. -/
def reads : Expr → List Var
  | var v => [v]
  | tuple fields => readsAll fields
  | item t _ => t.reads
  | call _ args => readsAll args
  | shape _ | const _ | external _ | global _ => []

/-- The variables that a list of expressions reads, from left to right. -/
def readsAll : List Expr → List Var
  | [] => []
  | e :: es => e.reads ++ readsAll es

end

theorem readsAll_eq_flatMap (es : List Expr) : readsAll es = es.flatMap reads := by
  induction es with
  | nil => rfl
  | cons e es ih => rw [readsAll, ih, List.flatMap_cons]

mutual

/-- The expression with each variable that it reads replaced by its image under `f`. -/
def rename (f : Var → Var) : Expr → Expr
  | var v => var (f v)
  | tuple fields => tuple (renameAll f fields)
  | item t i => item (t.rename f) i
  | call head args => call head (renameAll f args)
  | shape s => shape s
  | const c => const c
  | external s => external s
  | global n => global n

/-- A list of expressions with its variables renamed. -/
def renameAll (f : Var → Var) : List Expr → List Expr
  | [] => []
  | e :: es => e.rename f :: renameAll f es

end

theorem renameAll_eq_map (f : Var → Var) (es : List Expr) : renameAll f es = es.map (rename f) := by
  induction es with
  | nil => rfl
  | cons e es ih => rw [renameAll, ih, List.map_cons]

theorem reads_rename (f : Var → Var) (e : Expr) : (e.rename f).reads = e.reads.map f := by
  induction e using Expr.induction with
  | var _ | shape _ | const _ | external _ | global _ => rfl
  | item t i ih => exact ih
  | tuple es ih | call _ es ih =>
    simp only [rename, reads, renameAll_eq_map, readsAll_eq_flatMap, List.flatMap_map,
      List.map_flatMap]
    simp only [List.flatMap_def]
    rw [List.map_congr_left ih]

end Expr

/-- A finite renaming of variables, as pairs of a variable and its new name. The first pair of a
variable counts. -/
abbrev Renaming := List (Var × Var)

namespace Renaming

/-- The image of a variable; one that is not renamed is its own. -/
def apply (ρ : Renaming) (v : Var) : Var := (ρ.lookup v).getD v

@[simp]
theorem apply_nil (v : Var) : apply [] v = v := rfl

theorem apply_cons (v w : Var) (ρ : Renaming) (u : Var) :
    apply ((v, w) :: ρ) u = if u = v then w else apply ρ u := by
  by_cases h : u = v
  · simp [apply, h]
  · simp [apply, List.lookup_cons, h, beq_false_of_ne h]

end Renaming

/-- The expression with its variables replaced as the renaming says; those that are not in it
stay. -/
def Expr.substitute (ρ : Renaming) (e : Expr) : Expr := e.rename ρ.apply

end TensorIR
