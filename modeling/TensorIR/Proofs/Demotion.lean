import TensorIR.Lowering.Demotion
import TensorIR.Proofs.Emission

/-!
# What demotion emits

Demotion emits one binding for each binding. In a plain block it keeps the variable, in a dataflow
block it takes a new one, and reads are renamed in both: `Demotion.Step`. The checks for dataflow
variables that remain decide whether there is a result at all and leave no trace in it.

`Function.demote_invariant` is the induction over a function. Blocks are only ever sealed.
-/

namespace TensorIR

namespace Demotion

/-- What becomes of a binding of a block of the given kind. -/
inductive Step (kind : BlockKind) (x : Binding) (ρ : Renaming) (b : Builder) :
    Renaming → Builder → Prop where
  | kept (own : x.defined? = none ∨ kind = .plain) :
    Step kind x ρ b ρ (b.append (x.withValue ((x.value.substitute ρ).annotate b.vars)))
  | renamed {v : Var} {info : VarInfo} {vars : List VarInfo} (defines : x.defined? = some v) :
    Step kind x ρ b ((v, ⟨b.vars.length⟩) :: ρ)
      ((b.fresh info).1.append
        ((x.withDefined ⟨b.vars.length⟩).withValue ((x.value.substitute ρ).annotate vars)))

variable {f : Function} {kind : BlockKind} {x : Binding} {ρ ρ' : Renaming} {b b' : Builder}

theorem defined?_substitute (x : Binding) (ρ : Renaming) :
    (x.substitute ρ).defined? = x.defined? := by
  cases x <;> rfl

theorem value_substitute (x : Binding) (ρ : Renaming) :
    (x.substitute ρ).value = x.value.substitute ρ := by
  cases x <;> rfl

theorem kept_of_push (h : b.push (x.substitute ρ) = .ok b') :
    b' = b.append (x.withValue ((x.value.substitute ρ).annotate b.vars)) := by
  rw [Builder.push_eq_ok_append h]
  cases x <;> rfl

theorem step_of_emitBinding (h : emitBinding f kind x ρ b = .ok (ρ', b')) :
    Step kind x ρ b ρ' b' := by
  simp only [emitBinding] at h
  obtain ⟨-, h⟩ := check_bind_eq_ok.1 h
  rw [defined?_substitute] at h
  split at h
  · next undefined =>
      obtain ⟨b₁, pushed, same⟩ := bind_eq_ok.1 h
      cases same
      rw [kept_of_push (building_eq_ok.1 pushed)]
      exact .kept (.inl undefined)
  · next v defines =>
      obtain ⟨info, -, h⟩ := bind_eq_ok.1 h
      split at h
      · obtain ⟨b₁, pushed, same⟩ := bind_eq_ok.1 h
        cases same
        rw [Builder.push_eq_ok_append (building_eq_ok.1 pushed)]
        cases x <;> exact .renamed defines
      · obtain ⟨-, h⟩ := guard_eq_ok.1 h
        obtain ⟨b₁, pushed, same⟩ := bind_eq_ok.1 h
        cases same
        rw [kept_of_push (building_eq_ok.1 pushed)]
        exact .kept (.inr rfl)

variable {holds : List Binding → Renaming → Builder → Prop} {all done rest : List Binding}

/-- Each step keeps the invariant. -/
def Keeps (all : List Binding) (holds : List Binding → Renaming → Builder → Prop) : Prop :=
  ∀ {kind done x rest ρ b ρ' b'}, all = done ++ x :: rest → holds done ρ b →
    Step kind x ρ b ρ' b' → holds (done ++ [x]) ρ' b'

theorem emitBindings_invariant {xs : List Binding}
    (keeps : ∀ {done x rest ρ b ρ' b'}, all = done ++ x :: rest → holds done ρ b →
      emitBinding f kind x ρ b = .ok (ρ', b') → holds (done ++ [x]) ρ' b')
    (split : all = done ++ xs ++ rest) (h : holds done ρ b)
    (emitted : emitBindings f kind xs ρ b = .ok (ρ', b')) : holds (done ++ xs) ρ' b' := by
  induction xs generalizing done ρ b with
  | nil =>
      cases emitted
      rw [List.append_nil]
      exact h
  | cons x xs ih =>
      rw [emitBindings] at emitted
      obtain ⟨⟨mid, bmid⟩, head, tail⟩ := bind_eq_ok.1 emitted
      have next := keeps (split.trans (List.append_assoc _ _ _)) h head
      have split' : all = (done ++ [x]) ++ xs ++ rest := by
        rw [split]
        simp
      have last := ih split' next tail
      rw [List.append_assoc] at last
      exact last

theorem emitBlocks_invariant {blocks : List Block}
    (keeps : ∀ {kind done x rest ρ b ρ' b'}, all = done ++ x :: rest → holds done ρ b →
      emitBinding f kind x ρ b = .ok (ρ', b') → holds (done ++ [x]) ρ' b')
    (sealing : ∀ {done ρ b}, holds done ρ b → holds done ρ b.sealBlock)
    (split : all = done ++ blocks.flatMap Block.bindings) (h : holds done ρ b)
    (emitted : emitBlocks f blocks ρ b = .ok (ρ', b')) : holds all ρ' b' := by
  induction blocks generalizing done ρ b with
  | nil =>
      cases emitted
      rw [List.flatMap_nil, List.append_nil] at split
      rw [split]
      exact h
  | cons block blocks ih =>
      rw [emitBlocks] at emitted
      obtain ⟨⟨mid, bmid⟩, head, tail⟩ := bind_eq_ok.1 emitted
      rw [List.flatMap_cons, ← List.append_assoc] at split
      exact ih split (sealing (emitBindings_invariant keeps split h head)) tail

end Demotion

/-- A demoted function is what a builder hands out of which every invariant of demotion holds. -/
theorem Function.demote_invariant {f g : Function}
    {holds : List Binding → Renaming → Builder → Prop} (keeps : Demotion.Keeps f.bindings holds)
    (sealing : ∀ {done ρ b}, holds done ρ b → holds done ρ b.sealBlock)
    (start : holds [] [] (.reopen f)) (demoted : f.demote = .ok g) :
    ∃ ρ b, holds f.bindings ρ b ∧ b.finish (f.body.substitute ρ) = .ok g := by
  simp only [demote] at demoted
  obtain ⟨⟨ρ, b⟩, emitted, h⟩ := bind_eq_ok.1 demoted
  obtain ⟨-, finished⟩ := check_bind_eq_ok.1 h
  have last := Demotion.emitBlocks_invariant
    (fun split h one => keeps split h (Demotion.step_of_emitBinding one)) sealing
    (List.nil_append _).symm start emitted
  exact ⟨ρ, b, last, building_eq_ok.1 finished⟩

end TensorIR
