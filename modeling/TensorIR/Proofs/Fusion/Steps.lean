import TensorIR.Lowering.Fusion
import TensorIR.Proofs.Emission

/-!
# What fusion does with a binding

Fusion keeps a binding, keeps it and remembers it as a product of the block, or fuses it. `Emission`
has a case for each, with all that is then known: where the builder stands, what was looked for and
whether it was found, and which operation of the builder succeeded.

`Function.Fusible` says what fusion looks for, in terms of the function from before alone.
-/

namespace TensorIR

namespace Binding

/-- The binding defines the variable as a product. -/
def IsProduct (t : Var) (x : Binding) : Prop :=
  ∃ head a a', x = .define t (.call head [a, a']) ∧ head.callee = .op .multiply

/-- The binding defines some variable as a sum with `t` as the first operand. -/
def AddsTo (t : Var) (x : Binding) : Prop :=
  ∃ v head c, x = .define v (.call head [.var t, c]) ∧ head.callee = .op .add

end Binding

/-- Some dataflow block has a sum whose first operand is a product from earlier in the block that
nothing else reads. -/
def Function.Fusible (f : Function) : Prop :=
  ∃ block ∈ f.blocks, block.kind = .dataflow ∧ ∃ done x rest t, block.bindings = done ++ x :: rest ∧
    x.AddsTo t ∧ (∃ y ∈ done, y.IsProduct t) ∧ f.useCount t = 1

namespace Fusion

variable {f : Function} {x : Binding} {s s' : Fusion} {b b' : Builder}

theorem product?_eq_some {e a a' : Expr} :
    product? e = some (a, a') ↔ ∃ head, e = .call head [a, a'] ∧ head.callee = .op .multiply := by
  constructor
  · intro h
    unfold product? at h
    split at h
    · next head a₁ a₂ =>
        split at h
        · next isProduct =>
            cases h
            exact ⟨head, rfl, isProduct⟩
        · cases h
    · cases h
  · rintro ⟨head, rfl, callee⟩
    exact if_pos callee

instance (t : Var) : (x : Binding) → Decidable (x.IsProduct t)
  | .define v e => decidable_of_iff (v = t ∧ (product? e).isSome) <| by
    rw [Option.isSome_iff_exists]
    constructor
    · rintro ⟨rfl, ⟨a, a'⟩, found⟩
      obtain ⟨head, rfl, callee⟩ := product?_eq_some.1 found
      exact ⟨head, a, a', rfl, callee⟩
    · rintro ⟨head, a, a', is, callee⟩
      cases is
      exact ⟨rfl, _, product?_eq_some.2 ⟨head, rfl, callee⟩⟩
  | .matchShape .. => .isFalse <| by
    rintro ⟨_, _, _, is, _⟩
    cases is

theorem fused?_eq_some {e : Expr} {operands : List Expr} : s.fused? f e = some operands ↔
    ∃ head t a a' c, e = .call head [.var t, c] ∧ head.callee = .op .add ∧ f.useCount t = 1 ∧
      s.products.lookup t = some (a, a') ∧ operands = [a, a', c] := by
  constructor
  · intro h
    unfold fused? at h
    split at h
    · next head t c =>
        split at h
        · next isSum =>
            obtain ⟨⟨a, a'⟩, found, same⟩ := Option.map_eq_some_iff.1 h
            exact ⟨head, t, a, a', c, rfl, isSum.1, isSum.2, found, same.symm⟩
        · cases h
    · cases h
  · rintro ⟨head, t, a, a', c, rfl, callee, once, found, rfl⟩
    rw [fused?, if_pos ⟨callee, once⟩, found]
    rfl

/-- What the emitter of fusion can do with a binding, one constructor for each way to succeed. -/
inductive Emission (f : Function) (x : Binding) (s : Fusion) (b : Builder) :
    Fusion → Builder → Prop where
  | kept {b₁ : Builder} (pushed : b.push (x.substitute s.renames) = .ok b₁)
    (other : ∀ v value, x = .define v value → b.inDataflow = true →
      product? (value.substitute s.renames) = none ∧
        s.fused? f (value.substitute s.renames) = none) : Emission f x s b s b₁
  | product {v value a a' b₁} (is : x = .define v value) (inside : b.inDataflow = true)
    (isProduct : product? (value.substitute s.renames) = some (a, a'))
    (pushed : b.push (x.substitute s.renames) = .ok b₁) :
    Emission f x s b { s with products := (v, a, a') :: s.products } b₁
  /-- The variable of the sum is kept. -/
  | inPlace {v value operands b₁} (is : x = .define v value) (inside : b.inDataflow = true)
    (isSum : s.fused? f (value.substitute s.renames) = some operands)
    (bound : b.bind v (.ofOp .fma operands) = .ok b₁) : Emission f x s b s b₁
  /-- A new variable takes the place of that of the sum. -/
  | renamed {v value operands b₁} {info : VarInfo} (is : x = .define v value)
    (inside : b.inDataflow = true)
    (isSum : s.fused? f (value.substitute s.renames) = some operands)
    (bound : (b.fresh info).1.bind ⟨b.vars.length⟩ (.ofOp .fma operands) = .ok b₁) :
    Emission f x s b { s with renames := (v, ⟨b.vars.length⟩) :: s.renames } b₁

theorem emission_of_emitFused {v : Var} {value : Expr} {operands : List Expr}
    (inside : b.inDataflow = true)
    (isSum : s.fused? f (value.substitute s.renames) = some operands)
    (h : emitFused f v (.ofOp .fma operands) s b = .ok (s', b')) :
    Emission f (.define v value) s b s' b' := by
  simp only [emitFused] at h
  obtain ⟨info, -, h⟩ := bind_eq_ok.1 h
  split at h
  · obtain ⟨b₁, bound, same⟩ := bind_eq_ok.1 h
    cases same
    exact .inPlace rfl inside isSum (building_eq_ok.1 bound)
  · obtain ⟨b₁, bound, same⟩ := bind_eq_ok.1 h
    cases same
    exact .renamed rfl inside isSum (building_eq_ok.1 bound)

theorem emission_of_emitter {position : Nat} (h : emitter f position x s b = .ok (s', b')) :
    Emission f x s b s' b' := by
  have keep {s₁ : Fusion} (h : (do
      let b ← building f.name (b.push (x.substitute s.renames))
      return (s₁, b)) = Except.ok (s', b')) :
      s' = s₁ ∧ b.push (x.substitute s.renames) = .ok b' := by
    obtain ⟨b₁, pushed, same⟩ := bind_eq_ok.1 h
    cases same
    exact ⟨rfl, building_eq_ok.1 pushed⟩
  cases x with
  | matchShape v? value pattern =>
      obtain ⟨rfl, pushed⟩ := keep h
      exact .kept pushed nofun
  | define v value =>
      simp only [emitter, Binding.substitute, Binding.withValue] at h
      split at h
      · next inside =>
          split at h
          · next operands isProduct =>
              obtain ⟨rfl, pushed⟩ := keep h
              exact .product rfl inside isProduct pushed
          · next operands _ isSum => exact emission_of_emitFused inside isSum h
          · next noProduct noSum =>
              obtain ⟨rfl, pushed⟩ := keep h
              refine .kept pushed ?_
              rintro _ _ ⟨⟩ -
              exact ⟨noProduct, noSum⟩
      · next outside =>
          obtain ⟨rfl, pushed⟩ := keep h
          exact .kept pushed fun _ _ _ inside => absurd inside outside

end Fusion

/-- Nothing can be fused where every product is read more than once, or not at all. -/
theorem Function.not_fusible {f : Function}
    (shared : ∀ y ∈ f.bindings, ∀ t ∈ y.defined?, y.IsProduct t → f.useCount t ≠ 1) :
    ¬ f.Fusible := by
  rintro ⟨block, mem, -, done, x, rest, t, split, -, ⟨y, before, product⟩, once⟩
  have inFunction : y ∈ f.bindings :=
    List.mem_flatMap.2 ⟨block, mem, split ▸ List.mem_append_left _ before⟩
  have defines : t ∈ y.defined? := by
    obtain ⟨head, a, a', rfl, -⟩ := product
    rfl
  exact shared y inFunction t defines product once

end TensorIR
