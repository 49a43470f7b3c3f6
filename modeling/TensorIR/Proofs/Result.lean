import TensorIR.Lowering.Error

/-!
# Reading a result backwards

Builders, checks and passes all answer in `Except`, and every proof about them starts from an answer
that is not an error. The lemmas here take such an answer apart: a sequence succeeded because each
of its steps did, and relabelling the error of a step changes nothing on success.
-/

namespace TensorIR

variable {ε ε' α β : Type}

@[simp]
theorem ok_bind (a : α) (f : α → Except ε β) : (Except.ok a >>= f) = f a := rfl

@[simp]
theorem error_bind (e : ε) (f : α → Except ε β) : (Except.error e >>= f) = .error e := rfl

theorem pure_eq (a : α) : (pure a : Except ε α) = .ok a := rfl

theorem bind_eq_ok {x : Except ε α} {f : α → Except ε β} {b : β} :
    (x >>= f) = .ok b ↔ ∃ a, x = .ok a ∧ f a = .ok b := by
  cases x with
  | error e =>
      constructor
      · intro h; cases h
      · rintro ⟨_, h, _⟩; cases h
  | ok a =>
      constructor
      · intro h; exact ⟨a, rfl, h⟩
      · rintro ⟨_, ⟨⟩, h⟩; exact h

/-- The same for a step that is only a check. -/
theorem check_bind_eq_ok {x : Except ε Unit} {y : Except ε β} {b : β} :
    (x >>= fun _ => y) = .ok b ↔ x = .ok () ∧ y = .ok b := by
  rw [bind_eq_ok]
  exact ⟨fun ⟨(), h⟩ => h, fun h => ⟨(), h⟩⟩

theorem mapError_eq_ok {f : ε → ε'} {x : Except ε α} {a : α} :
    x.mapError f = .ok a ↔ x = .ok a := by
  cases x with
  | error e =>
      show Except.error (f e) = .ok a ↔ _
      constructor
      · intro h; cases h
      · intro h; cases h
  | ok b =>
      show Except.ok b = .ok a ↔ _
      constructor
      · intro h; cases h; rfl
      · intro h; cases h; rfl

theorem exists_eq_ok {x : Except ε α} (h : x.toOption.isSome) : ∃ a, x = .ok a := by
  cases x with
  | error e => cases h
  | ok a => exact ⟨a, rfl⟩

theorem toOption_eq_some {x : Except ε α} {a : α} : x.toOption = some a ↔ x = .ok a := by
  cases x with
  | error e => exact ⟨nofun, nofun⟩
  | ok b =>
      exact ⟨fun h => congrArg Except.ok (Option.some.inj h),
        fun h => congrArg some (Except.ok.inj h)⟩

/-- The error of a result, if it is one. -/
def errorOf? : Except ε α → Option ε
  | .ok _ => none
  | .error e => some e

theorem errorOf?_eq_none {x : Except ε α} : errorOf? x = none ↔ ∃ a, x = .ok a := by
  cases x with
  | error e => exact ⟨nofun, nofun⟩
  | ok a => exact iff_of_true rfl ⟨a, rfl⟩

theorem pure_eq_ok {a b : α} : (pure a : Except ε α) = .ok b ↔ a = b :=
  ⟨fun h => Except.ok.inj h, fun h => congrArg Except.ok h⟩

theorem throw_ne_ok {e : ε} {a : α} : (throw e : Except ε α) ≠ .ok a := nofun

theorem building_eq_ok {function : String} {x : Except BuildError α} {a : α} :
    building function x = .ok a ↔ x = .ok a := mapError_eq_ok

theorem looking_eq_ok {x : Except Unallocated α} {a : α} :
    looking x = .ok a ↔ x = .ok a := mapError_eq_ok

/-- A fold that succeeds on a list has succeeded on its head and then on its tail. -/
theorem foldlM_cons_eq_ok {f : β → α → Except ε β} {x : α} {xs : List α} {s t : β} :
    (x :: xs).foldlM f s = .ok t ↔ ∃ mid, f s x = .ok mid ∧ xs.foldlM f mid = .ok t := by
  rw [List.foldlM_cons]
  exact bind_eq_ok

/-- What each step of a fold keeps holds at its end. -/
theorem foldlM_keeps {f : β → α → Except ε β} {P : β → Prop} {xs : List α} {s t : β}
    (keeps : ∀ {s x t}, x ∈ xs → P s → f s x = .ok t → P t) (h : P s)
    (ran : xs.foldlM f s = .ok t) : P t := by
  induction xs generalizing s with
  | nil =>
      cases ran
      exact h
  | cons x xs ih =>
      obtain ⟨mid, head, tail⟩ := foldlM_cons_eq_ok.1 ran
      have next := keeps List.mem_cons_self h head
      exact ih (fun mem => keeps (List.mem_cons_of_mem x mem)) next tail

/-- What one step of a fold brings about and no step takes away holds at its end. -/
theorem foldlM_reaches {f : β → α → Except ε β} {P Q : β → Prop} {x : α} {xs : List α} {s t : β}
    (mem : x ∈ xs) (keeps : ∀ {s y t}, P s → f s y = .ok t → P t)
    (reaches : ∀ {s t}, P s → f s x = .ok t → Q t)
    (stays : ∀ {s y t}, Q s → f s y = .ok t → Q t) (h : P s) (ran : xs.foldlM f s = .ok t) :
    Q t := by
  induction mem generalizing s with
  | head xs =>
      obtain ⟨mid, head, tail⟩ := foldlM_cons_eq_ok.1 ran
      exact foldlM_keeps (fun _ => stays) (reaches h head) tail
  | tail y _ ih =>
      obtain ⟨mid, head, tail⟩ := foldlM_cons_eq_ok.1 ran
      exact ih (keeps h head) tail

/-- A guard that passed: the condition it throws on does not hold. -/
theorem guard_eq_ok {c : Prop} [Decidable c] {e : ε} {x : Except ε α} {a : α} :
    (if c then throw e else x) = .ok a ↔ ¬ c ∧ x = .ok a := by
  split
  · next holds => exact ⟨fun h => absurd h throw_ne_ok, fun h => absurd holds h.1⟩
  · next fails => exact ⟨fun h => ⟨fails, h⟩, fun h => h.2⟩

/-! ### Results that are known in advance -/

/-- The result is the given fault, or without one an answer of which the property holds. -/
def Answers (fault : Option ε) (P : α → Prop) (x : Except ε α) : Prop :=
  match fault with
  | some e => x = .error e
  | none => ∃ a, x = .ok a ∧ P a

namespace Answers

variable {fault fault' : Option ε} {P : α → Prop} {Q : β → Prop} {x : Except ε α}

/-- The first fault in a sequence is that of its first step, or else of the rest. -/
theorem bind {f : α → Except ε β} (h : Answers fault P x)
    (next : ∀ a, P a → Answers fault' Q (f a)) : Answers (fault.or fault') Q (x >>= f) := by
  cases fault with
  | some e =>
      cases h
      rfl
  | none =>
      obtain ⟨a, rfl, holds⟩ := h
      exact next a holds

/-- The same for a step that the rest cannot fail after. -/
theorem bind_ok {f : α → Except ε β} (h : Answers fault P x)
    (next : ∀ a, P a → ∃ b, f a = .ok b ∧ Q b) : Answers fault Q (x >>= f) := by
  cases fault with
  | some e =>
      cases h
      rfl
  | none =>
      obtain ⟨a, rfl, holds⟩ := h
      exact next a holds

theorem map {g : α → β} (h : Answers fault P x) (next : ∀ a, P a → Q (g a)) :
    Answers fault Q (g <$> x) := by
  rw [map_eq_pure_bind]
  exact h.bind_ok fun a holds => ⟨g a, rfl, next a holds⟩

theorem imp {P' : α → Prop} (h : Answers fault P x) (weaker : ∀ a, P a → P' a) :
    Answers fault P' x := by
  cases fault with
  | some e => exact h
  | none =>
      obtain ⟨a, same, holds⟩ := h
      exact ⟨a, same, weaker a holds⟩

theorem of_eq_ok {a : α} (h : Answers fault P x) (ok : x = .ok a) : P a := by
  cases fault with
  | some e => cases h.symm.trans ok
  | none =>
      obtain ⟨a', same, holds⟩ := h
      cases same.symm.trans ok
      exact holds

theorem eq_error_iff {e : ε} (h : Answers fault P x) : x = .error e ↔ fault = some e := by
  cases fault with
  | some e' =>
      cases h
      exact ⟨fun same => congrArg some (Except.error.inj same),
        fun same => congrArg Except.error (Option.some.inj same)⟩
  | none =>
      obtain ⟨a, rfl, -⟩ := h
      exact ⟨nofun, nofun⟩

theorem exists_eq_ok_iff (h : Answers fault P x) : (∃ a, x = .ok a) ↔ fault = none := by
  cases fault with
  | some e =>
      cases h
      exact ⟨nofun, nofun⟩
  | none =>
      obtain ⟨a, rfl, -⟩ := h
      exact ⟨fun _ => rfl, fun _ => ⟨a, rfl⟩⟩

end Answers

end TensorIR
