import TensorIR.Proofs.Reading.Formulas

/-!
# Words of formulas

Numbers are written in decimal, and `integer?` reads them back. An identifier has no delimiters and
neither has a number, so both are words, and no text is both: an identifier begins with a letter or
an underscore, and a number with a digit or a minus.
-/

namespace TensorIR.Text

/-- A letter: one of the alphabet, or any character beyond ASCII. -/
def isLetter (c : Char) : Bool := c.isAlpha || 127 < c.toNat

/-- A letter or an underscore. -/
def startsName (c : Char) : Bool := isLetter c || c == '_'

/-- A letter, an underscore or a digit. -/
def isWordChar (c : Char) : Bool := startsName c || c.isDigit

/-- A letter or an underscore, and then letters, digits and underscores. -/
def isIdentifier : List Char → Bool
  | [] => false
  | c :: cs => startsName c && cs.all isWordChar

/-- The natural number that digits stand for. -/
def natural? (digits : List Char) : Option Nat :=
  if digits ≠ [] ∧ digits.all Char.isDigit then some (Nat.ofDigitChars 10 digits 0) else none

/-- The integer that digits stand for, after a minus if it is negative. -/
def integer? : List Char → Option Int
  | '-' :: digits => (natural? digits).map fun n => -n
  | digits => (natural? digits).map fun n => n

/-- The integer literal that a text stands for, if it fits. -/
def literal? (text : List Char) : Option Int64 := integer? text >>= int64?

/-! ### Numbers -/

theorem isDigit_of_mem_toDigits {n : Nat} {c : Char} (mem : c ∈ Nat.toDigits 10 n) :
    c.isDigit = true := Nat.isDigit_of_mem_toDigits (by decide) (by decide) mem

theorem natural?_toDigits (n : Nat) : natural? (Nat.toDigits 10 n) = some n := by
  have digits : (Nat.toDigits 10 n).all Char.isDigit = true :=
    List.all_eq_true.2 fun c => isDigit_of_mem_toDigits
  rw [natural?, if_pos ⟨Nat.toDigits_ne_nil, digits⟩, Nat.ofDigitChars_ten_toDigits]

theorem exists_digit (n : Nat) : ∃ c cs, Nat.toDigits 10 n = c :: cs ∧ c.isDigit = true := by
  obtain ⟨c, cs, split⟩ := List.exists_cons_of_ne_nil (Nat.toDigits_ne_nil (n := n) (b := 10))
  exact ⟨c, cs, split, isDigit_of_mem_toDigits (split ▸ List.mem_cons_self)⟩

/-- An integer is written as the digits of its absolute value, after a minus if it is negative. -/
theorem toList_toString_int (n : Int) :
    (n = n.natAbs ∧ (toString n).toList = Nat.toDigits 10 n.natAbs) ∨
      (n = -n.natAbs ∧ (toString n).toList = '-' :: Nat.toDigits 10 n.natAbs) := by
  cases n with
  | ofNat n => exact .inl ⟨rfl, Nat.toList_repr⟩
  | negSucc n =>
      refine .inr ⟨rfl, ?_⟩
      show ("-" ++ Nat.repr (n + 1)).toList = _
      rw [String.toList_append, Nat.toList_repr]
      rfl

theorem integer?_toString (n : Int) : integer? (toString n).toList = some n := by
  obtain ⟨same, text⟩ | ⟨same, text⟩ := toList_toString_int n
  · obtain ⟨c, cs, split, digit⟩ := exists_digit n.natAbs
    have read := natural?_toDigits n.natAbs
    rw [text, split, integer?, ← split, read]
    · exact congrArg some same.symm
    · intro digits minus
      rw [(List.cons.inj minus).1] at digit
      cases digit
  · rw [text, integer?, natural?_toDigits]
    exact congrArg some same.symm

theorem literal?_toString (n : Int64) : literal? (toString n.toInt).toList = some n := by
  rw [literal?, integer?_toString]
  exact int64?_toInt n

/-! ### Characters -/

theorem isWordChar_of_isDigit {c : Char} (digit : c.isDigit = true) : isWordChar c = true := by
  rw [isWordChar, digit, Bool.or_true]

theorem startsName_of_isDigit {c : Char} (digit : c.isDigit = true) : startsName c = false := by
  have bounds : 48 ≤ c.toNat ∧ c.toNat ≤ 57 := Char.isDigit_iff_toNat.1 digit
  -- In ASCII the letters come after the digits.
  have before {d : Char} (letter : 57 < d.toNat) : ¬d.val ≤ c.val := fun le =>
    absurd (UInt32.le_iff_toNat_le.1 le) (Nat.not_le.2 (Nat.lt_of_le_of_lt bounds.2 letter))
  have notUpper : c.isUpper = false := decide_eq_false fun h => before (by decide) h.1
  have notLower : c.isLower = false := by
    have first : decide ('a'.val ≤ c.val) = false := decide_eq_false (before (by decide))
    exact congrArg (· && decide (c.val ≤ 'z'.val)) first
  have notAlpha : c.isAlpha = false := Bool.or_eq_false_iff.2 ⟨notUpper, notLower⟩
  have notUnderscore : c ≠ '_' := by
    rintro rfl
    cases digit
  have inAscii : decide (127 < c.toNat) = false := decide_eq_false (by omega)
  rw [startsName, isLetter, notAlpha, inAscii, beq_false_of_ne notUnderscore]
  rfl

/-- The text of an integer begins like no name, and with no question mark. -/
theorem exists_toString_cons (n : Int) :
    ∃ c cs, (toString n).toList = c :: cs ∧ startsName c = false ∧ c ≠ '?' := by
  obtain ⟨-, text⟩ | ⟨-, text⟩ := toList_toString_int n
  · obtain ⟨c, cs, split, digit⟩ := exists_digit n.natAbs
    refine ⟨c, cs, text.trans split, startsName_of_isDigit digit, ?_⟩
    rintro rfl
    cases digit
  · exact ⟨_, _, text, rfl, by decide⟩

theorem ofDelimiter?_of_isWordChar {c : Char} (char : isWordChar c = true) :
    Formula.Token.ofDelimiter? c = none := by
  rw [Formula.Token.ofDelimiter?]
  all_goals
    rintro rfl
    revert char
    decide

theorem not_mem_symbol {c : Char} (char : isWordChar c = true) (op : ArithOp) :
    c ∉ op.symbol.toList := by
  have none : op.symbol.toList.all (fun d => !isWordChar d) = true := by cases op <;> rfl
  intro mem
  have other := List.all_eq_true.1 none c mem
  rw [char] at other
  cases other

/-! ### Words -/

/-- What has no delimiter, and not only the characters of operators, is a word. -/
theorem isWord_of_mem {text : List Char} {c : Char} (char : isWordChar c = true) (mem : c ∈ text)
    (plain : ∀ d ∈ text, Formula.Token.ofDelimiter? d = none) : Formula.IsWord text where
  nonempty := List.ne_nil_of_mem mem
  plain := plain
  operand op same := not_mem_symbol char op (same ▸ mem)

theorem plain_toDigits (n : Nat) :
    ∀ d ∈ Nat.toDigits 10 n, Formula.Token.ofDelimiter? d = none :=
  fun _ mem => ofDelimiter?_of_isWordChar (isWordChar_of_isDigit (isDigit_of_mem_toDigits mem))

/-- The digits of a number with anything around them that is no delimiter. -/
theorem isWord_toDigits (n : Nat) (before after : List Char)
    (plain : ∀ d ∈ before ++ after, Formula.Token.ofDelimiter? d = none) :
    Formula.IsWord (before ++ Nat.toDigits 10 n ++ after) := by
  obtain ⟨c, cs, split, digit⟩ := exists_digit n
  have mem : c ∈ Nat.toDigits 10 n := split ▸ List.mem_cons_self
  obtain ⟨left, right⟩ := List.forall_mem_append.1 plain
  exact isWord_of_mem (isWordChar_of_isDigit digit)
    (List.mem_append_left _ (List.mem_append_right _ mem))
    (List.forall_mem_append.2 ⟨List.forall_mem_append.2 ⟨left, plain_toDigits n⟩, right⟩)

theorem isWord_integer (n : Int) : Formula.IsWord (toString n).toList := by
  obtain ⟨-, text⟩ | ⟨-, text⟩ := toList_toString_int n
  · have word := isWord_toDigits n.natAbs [] [] (List.forall_mem_nil _)
    rwa [List.nil_append, List.append_nil, ← text] at word
  · have word := isWord_toDigits n.natAbs ['-'] [] (List.forall_mem_singleton.2 rfl)
    rwa [List.append_nil, List.singleton_append, ← text] at word

theorem isWord_identifier {name : List Char} (identifier : isIdentifier name = true) :
    Formula.IsWord name := by
  cases name with
  | nil => cases identifier
  | cons c cs =>
      rw [isIdentifier, Bool.and_eq_true, List.all_eq_true] at identifier
      have first : isWordChar c = true := by rw [isWordChar, identifier.1, Bool.true_or]
      have chars : ∀ d ∈ c :: cs, isWordChar d = true :=
        List.forall_mem_cons.2 ⟨first, identifier.2⟩
      exact isWord_of_mem first List.mem_cons_self fun d mem =>
        ofDelimiter?_of_isWordChar (chars d mem)

theorem isIdentifier_cons {c : Char} (cs : List Char) (first : startsName c = false) :
    isIdentifier (c :: cs) = false := by
  rw [isIdentifier, first, Bool.false_and]

end TensorIR.Text
