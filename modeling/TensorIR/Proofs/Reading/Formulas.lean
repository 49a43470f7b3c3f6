import TensorIR.Arith

/-!
# Formulas and their text

The arithmetic of dimensions and of heap functions prints as a formula: words joined by operators,
where a word is a number or what a value is called. The grammar of formulas is `Derives`. It has two
strengths of binding, and every operator associates to the left: its left operand may be of its own
strength, its right one has to bind tighter. What does not goes in parentheses.

`readTokens?` reads a formula. It takes the tokens one by one and never goes back; of every group in
parentheses that is still open it remembers the sum and the product that lack their right operands.
It reads exactly what the grammar derives (`readTokens?_eq_some_iff`). So no text has two readings,
and a printed formula, which the grammar derives, is read as itself (`readTokens?_lex_render`).
-/

namespace TensorIR

/-- Arithmetic over words. -/
inductive Formula where
  | word (text : List Char)
  | binary (op : ArithOp) (lhs rhs : Formula)
deriving DecidableEq, Repr

namespace Formula

/-- The text of a formula in a place that needs at least the binding strength `level`. -/
def render (level : Nat) : Formula → List Char
  | word text => text
  | binary op lhs rhs =>
    let text := lhs.render op.precedence ++ ' ' :: op.symbol.toList ++ ' ' ::
      rhs.render (op.precedence + 1)
    if op.precedence < level then '(' :: text ++ [')'] else text

/-! ### Tokens -/

/-- What a text falls into: brackets, commas, signs of operators, and words. -/
inductive Token where
  | opening
  | closing
  | comma
  | op (op : ArithOp)
  | word (text : List Char)
deriving DecidableEq, Repr

namespace Token

/-- The tokens of a delimiter: a space has none. `none` for a character that is no delimiter. -/
def ofDelimiter? : Char → Option (List Token)
  | ' ' => some []
  | '(' => some [opening]
  | ')' => some [closing]
  | ',' => some [comma]
  | _ => none

/-- The tokens of what stands between two delimiters: none if nothing does. -/
def ofRun : List Char → List Token
  | [] => []
  | c :: cs =>
    match ArithOp.all.find? fun operator => operator.symbol.toList = c :: cs with
    | some operator => [op operator]
    | none => [word (c :: cs)]

end Token

/-- The tokens of a text, where `run` stands between it and the last delimiter before it. -/
def lexFrom (run : List Char) : List Char → List Token
  | [] => Token.ofRun run
  | c :: cs =>
    match Token.ofDelimiter? c with
    | some tokens => Token.ofRun run ++ tokens ++ lexFrom [] cs
    | none => lexFrom (run ++ [c]) cs

/-- The tokens of a text. -/
def lex (text : List Char) : List Token := lexFrom [] text

/-- The tokens of a formula in a place that needs at least the binding strength `level`. -/
def tokens (level : Nat) : Formula → List Token
  | word text => [.word text]
  | binary op lhs rhs =>
    let ts := lhs.tokens op.precedence ++ .op op :: rhs.tokens (op.precedence + 1)
    if op.precedence < level then .opening :: ts ++ [.closing] else ts

/-- A word that is a token of its own, and not an operator. -/
structure IsWord (text : List Char) : Prop where
  nonempty : text ≠ []
  plain : ∀ c ∈ text, Token.ofDelimiter? c = none
  operand : ∀ op : ArithOp, op.symbol.toList ≠ text

/-- Every word of the formula is one. -/
def Readable : Formula → Prop
  | word text => IsWord text
  | binary _ lhs rhs => lhs.Readable ∧ rhs.Readable

/-- The text ends or goes on with a delimiter. -/
def EndsRun : List Char → Prop
  | [] => True
  | c :: _ => Token.ofDelimiter? c ≠ none

theorem lexFrom_run {run text : List Char} (plain : ∀ c ∈ text, Token.ofDelimiter? c = none)
    (rest : List Char) : lexFrom run (text ++ rest) = lexFrom (run ++ text) rest := by
  induction text generalizing run with
  | nil => rw [List.nil_append, List.append_nil]
  | cons c cs ih =>
      obtain ⟨here, later⟩ := List.forall_mem_cons.1 plain
      rw [List.cons_append, lexFrom, here]
      show lexFrom (run ++ [c]) (cs ++ rest) = _
      rw [ih later, List.append_assoc, List.singleton_append]

theorem lexFrom_ends {run rest : List Char} (ends : EndsRun rest) :
    lexFrom run rest = Token.ofRun run ++ lexFrom [] rest := by
  cases rest with
  | nil => exact (List.append_nil _).symm
  | cons c cs =>
      obtain ⟨tokens, delimiter⟩ := Option.ne_none_iff_exists'.1 ends
      rw [lexFrom, lexFrom, delimiter]
      simp only [Token.ofRun, List.nil_append, List.append_assoc]

theorem lexFrom_word {text rest : List Char} (word : IsWord text) (ends : EndsRun rest) :
    lexFrom [] (text ++ rest) = .word text :: lexFrom [] rest := by
  have own : Token.ofRun text = [.word text] := by
    obtain ⟨c, cs, rfl⟩ := List.exists_cons_of_ne_nil word.nonempty
    have absent : ArithOp.all.find? (fun op => op.symbol.toList = c :: cs) = none :=
      List.find?_eq_none.2 fun op _ same => word.operand op (of_decide_eq_true same)
    rw [Token.ofRun, absent]
  rw [lexFrom_run word.plain, List.nil_append, lexFrom_ends ends, own, List.singleton_append]

theorem lexFrom_operator (op : ArithOp) (rest : List Char) :
    lexFrom [] (' ' :: op.symbol.toList ++ ' ' :: rest) = .op op :: lexFrom [] rest := by
  cases op <;> rfl

theorem lexFrom_render {e : Formula} (readable : e.Readable) (level : Nat) {rest : List Char}
    (ends : EndsRun rest) :
    lexFrom [] (e.render level ++ rest) = e.tokens level ++ lexFrom [] rest := by
  induction e generalizing level rest with
  | word text => exact lexFrom_word readable ends
  | binary op lhs rhs ihl ihr =>
      have inner {rest : List Char} (ends : EndsRun rest) :
          lexFrom [] (lhs.render op.precedence ++ (' ' :: op.symbol.toList ++ ' ' ::
              (rhs.render (op.precedence + 1) ++ rest))) =
            lhs.tokens op.precedence ++ .op op ::
              (rhs.tokens (op.precedence + 1) ++ lexFrom [] rest) := by
        rw [ihl readable.1 _ (by nofun), lexFrom_operator,
          ihr readable.2 _ ends]
      rw [render, tokens]
      split
      · simp only [List.append_assoc, List.cons_append, List.nil_append] at inner ⊢
        rw [lexFrom, show Token.ofDelimiter? '(' = some [.opening] from rfl]
        simp only [Token.ofRun, List.cons_append, List.nil_append]
        rw [inner (by nofun)]
        rfl
      · simp only [List.append_assoc, List.cons_append] at inner ⊢
        exact inner ends

theorem lex_render {e : Formula} (readable : e.Readable) (level : Nat) :
    lex (e.render level) = e.tokens level := by
  have ends : EndsRun [] := trivial
  have whole := lexFrom_render readable level ends
  rwa [List.append_nil, show lexFrom [] [] = [] from rfl, List.append_nil] at whole

/-! ### The grammar -/

/-- `Derives level ts e` if the tokens `ts` are the formula `e` in a place that needs at least the
binding strength `level`. -/
inductive Derives : Nat → List Token → Formula → Prop where
  | word (text : List Char) : Derives 3 [.word text] (.word text)
  | group {ts : List Token} {e : Formula} (inner : Derives 0 ts e) :
      Derives 3 (.opening :: ts ++ [.closing]) e
  | binary (op : ArithOp) {ts us : List Token} {lhs rhs : Formula}
      (left : Derives op.precedence ts lhs) (right : Derives (op.precedence + 1) us rhs) :
      Derives op.precedence (ts ++ .op op :: us) (.binary op lhs rhs)
  | weaken {level : Nat} {ts : List Token} {e : Formula} (h : Derives (level + 1) ts e) :
      Derives level ts e

theorem Derives.ne_nil {level : Nat} {ts : List Token} {e : Formula} (h : Derives level ts e) :
    ts ≠ [] := by
  induction h with
  | word _ | group _ | binary _ _ _ => simp
  | weaken _ ih => exact ih

theorem Derives.comma_not_mem {level : Nat} {ts : List Token} {e : Formula}
    (h : Derives level ts e) : .comma ∉ ts := by
  induction h with
  | word _ => simp
  | group _ ih => simpa using ih
  | binary op _ _ ihl ihr => simpa using ⟨ihl, ihr⟩
  | weaken _ ih => exact ih

theorem Derives.mono {level level' : Nat} {ts : List Token} {e : Formula}
    (h : Derives level' ts e) (le : level ≤ level') : Derives level ts e := by
  induction le with
  | refl => exact h
  | step _ ih => exact ih h.weaken

theorem precedence_le (op : ArithOp) : op.precedence ≤ 2 := by
  cases op <;> decide

theorem precedence_eq_two {op : ArithOp} (tight : op.precedence ≠ 1) : op.precedence = 2 := by
  cases op with
  | add | sub => exact absurd rfl tight
  | mul | floorDiv | floorMod => rfl

theorem derives_tokens {level : Nat} (le : level ≤ 3) (e : Formula) :
    Derives level (e.tokens level) e := by
  induction e generalizing level with
  | word text => exact (Derives.word text).mono le
  | binary op lhs rhs ihl ihr =>
      have bound := precedence_le op
      have left : Derives op.precedence (lhs.tokens op.precedence) lhs := ihl (by omega)
      have right : Derives (op.precedence + 1) (rhs.tokens (op.precedence + 1)) rhs :=
        ihr (by omega)
      have inner := Derives.binary op left right
      rw [tokens]
      split
      · exact (Derives.group (inner.mono (Nat.zero_le _))).mono le
      · exact inner.mono (by omega)

/-! ### The reader -/

/-- A left operand and its operator, which wait for the right operand, if there are any. -/
abbrev Waiting := Option (Formula × ArithOp)

/-- What a right operand completes. -/
def Waiting.complete (waiting : Waiting) (rhs : Formula) : Formula :=
  match waiting with
  | none => rhs
  | some (lhs, op) => .binary op lhs rhs

/-- What has been read of a group where an operand is due: of the product and of the sum that lack
it. -/
structure Group where
  sum : Waiting := none
  product : Waiting := none
deriving DecidableEq, Repr

mutual

/-- Reads on where an operand is due. The groups around the current one are innermost first. -/
def readOperand (outer : List Group) (group : Group) : List Token → Option Formula
  | .word text :: ts => readOperator outer group.sum (group.product.complete (.word text)) ts
  | .opening :: ts => readOperand (group :: outer) {} ts
  | _ => none

/-- Reads on where an operator is due, after the product `value` and the sum that waits for it. -/
def readOperator (outer : List Group) (sum : Waiting) (value : Formula) :
    List Token → Option Formula
  | [] => if outer.isEmpty then some (sum.complete value) else none
  | .closing :: ts =>
    match outer with
    | [] => none
    | group :: outer =>
      readOperator outer group.sum (group.product.complete (sum.complete value)) ts
  | .op op :: ts =>
    if op.precedence = 1 then readOperand outer ⟨some (sum.complete value, op), none⟩ ts
    else readOperand outer ⟨sum, some (value, op)⟩ ts
  | _ => none

end

/-- The formula that a list of tokens spells, if it spells one. -/
def readTokens? (ts : List Token) : Option Formula := readOperand [] {} ts

/-- The tokens end the sum before them. -/
def EndsSum : List Token → Prop
  | [] => True
  | .closing :: _ => True
  | .op op :: _ => op.precedence = 1
  | _ => False

theorem readOperator_ends {outer : List Group} {lhs value : Formula} {op : ArithOp}
    {rest : List Token} (ends : EndsSum rest) :
    readOperator outer (some (lhs, op)) value rest =
      readOperator outer none (.binary op lhs value) rest := by
  cases rest with
  | nil => rfl
  | cons t ts =>
      cases t with
      | closing => cases outer <;> rfl
      | op op' =>
          have additive : op'.precedence = 1 := ends
          rw [readOperator, readOperator, if_pos additive, if_pos additive]
          rfl
      | opening | comma | word _ => exact ends.elim

/-- What the reader does with the tokens of an operand, depending on how tightly it binds. A loose
one has to begin its group, and must not be taken apart by what follows. -/
structure ReadAs (level : Nat) (ts : List Token) (e : Formula) : Prop where
  factor : 2 < level → ∀ outer group rest, readOperand outer group (ts ++ rest) =
    readOperator outer group.sum (group.product.complete e) rest
  product : 1 < level → ∀ outer sum rest, readOperand outer ⟨sum, none⟩ (ts ++ rest) =
    readOperator outer sum e rest
  sum : ∀ outer rest, EndsSum rest → readOperand outer {} (ts ++ rest) =
    readOperator outer none e rest

theorem ReadAs.of_factor {ts : List Token} {e : Formula}
    (factor : ∀ outer group rest, readOperand outer group (ts ++ rest) =
      readOperator outer group.sum (group.product.complete e) rest) : ReadAs 3 ts e where
  factor _ := factor
  product _ outer sum rest := factor outer ⟨sum, none⟩ rest
  sum outer rest _ := factor outer {} rest

theorem readAs_of_derives {level : Nat} {ts : List Token} {e : Formula} (h : Derives level ts e) :
    ReadAs level ts e := by
  induction h with
  | word text => exact .of_factor fun _ _ _ => rfl
  | @group ts e _ ih =>
      refine .of_factor fun outer group rest => ?_
      rw [List.append_assoc, List.cons_append, readOperand]
      exact ih.sum (group :: outer) (.closing :: rest) trivial
  | @binary op ts us lhs rhs _ _ ihl ihr =>
      by_cases additive : op.precedence = 1
      · rw [additive] at ihl ihr ⊢
        refine ⟨by omega, by omega, fun outer rest ends => ?_⟩
        have next : EndsSum (.op op :: (us ++ rest)) := additive
        rw [List.append_assoc, List.cons_append, ihl.sum outer _ next, readOperator,
          if_pos additive, ihr.product (by omega), readOperator_ends ends]
        rfl
      · rw [precedence_eq_two additive] at ihl ihr ⊢
        have product : ∀ outer sum rest,
            readOperand outer ⟨sum, none⟩ (ts ++ .op op :: us ++ rest) =
              readOperator outer sum (.binary op lhs rhs) rest := fun outer sum rest => by
          rw [List.append_assoc, List.cons_append, ihl.product (by omega), readOperator,
            if_neg additive, ihr.factor (by omega)]
          rfl
        exact ⟨by omega, fun _ => product, fun outer rest _ => product outer none rest⟩
  | weaken _ ih =>
      exact ⟨fun le => ih.factor (by omega), fun le => ih.product (by omega), ih.sum⟩

/-! ### What has been read

Conversely, the reader accepts no tokens that the grammar does not derive. What it remembers stands
for the tokens so far, and every token that it takes keeps it so. -/

/-- The tokens are those of a left operand that is tight enough for its operator, and of the
operator. Nothing waits at no tokens. -/
def Waiting.Spans (level : Nat) (waiting : Waiting) (ts : List Token) : Prop :=
  match waiting with
  | none => ts = []
  | some (lhs, op) => op.precedence = level ∧ ∃ us, Derives level us lhs ∧ ts = us ++ [.op op]

theorem Waiting.Spans.complete {level : Nat} {waiting : Waiting} {ts us : List Token}
    {rhs : Formula} (h : waiting.Spans level ts) (right : Derives (level + 1) us rhs) :
    Derives level (ts ++ us) (waiting.complete rhs) := by
  match waiting, h with
  | none, h =>
      rw [show ts = [] from h, List.nil_append]
      exact right.weaken
  | some (lhs, op), ⟨same, vs, left, split⟩ =>
      subst same
      rw [split, List.append_assoc, List.singleton_append]
      exact .binary op left right

/-- The tokens spell what waits in an open group: first for a summand, then for a factor. -/
def Group.Spans (group : Group) (ts : List Token) : Prop :=
  ∃ us vs, ts = us ++ vs ∧ group.sum.Spans 1 us ∧ group.product.Spans 2 vs

/-- The tokens lead into the groups, which are innermost first. -/
def Opened : List Group → List Token → Prop
  | [], ts => ts = []
  | group :: outer, ts =>
    ∃ us vs, ts = us ++ vs ++ [.opening] ∧ Opened outer us ∧ group.Spans vs

/-- The tokens lead to where an operand is due. -/
def OperandDue (outer : List Group) (group : Group) (ts : List Token) : Prop :=
  ∃ us vs, ts = us ++ vs ∧ Opened outer us ∧ group.Spans vs

/-- The tokens lead to where an operator is due. -/
def OperatorDue (outer : List Group) (sum : Waiting) (value : Formula) (ts : List Token) : Prop :=
  ∃ us vs ws, ts = us ++ vs ++ ws ∧ Opened outer us ∧ sum.Spans 1 vs ∧ Derives 2 ws value

section Due

variable {outer : List Group} {group : Group} {sum : Waiting} {value : Formula} {ts : List Token}

theorem operandDue_start : OperandDue [] {} [] := ⟨[], [], rfl, rfl, [], [], rfl, rfl, rfl⟩

/-- A word or a group in parentheses is an operand. -/
theorem OperandDue.operand (due : OperandDue outer group ts) {us : List Token} {e : Formula}
    (h : Derives 3 us e) :
    OperatorDue outer group.sum (group.product.complete e) (ts ++ us) := by
  obtain ⟨vs, _, rfl, opened, ws, xs, rfl, sum, product⟩ := due
  refine ⟨vs, ws, xs ++ us, ?_, opened, sum, product.complete h⟩
  simp only [List.append_assoc]

theorem OperandDue.opening (due : OperandDue outer group ts) :
    OperandDue (group :: outer) {} (ts ++ [.opening]) := by
  obtain ⟨us, vs, rfl, opened, spans⟩ := due
  exact ⟨_, [], (List.append_nil _).symm, ⟨us, vs, rfl, opened, spans⟩, [], [], rfl, rfl, rfl⟩

theorem OperatorDue.closing (due : OperatorDue (group :: outer) sum value ts) :
    OperatorDue outer group.sum (group.product.complete (sum.complete value))
      (ts ++ [.closing]) := by
  obtain ⟨_, vs, ws, rfl, ⟨us, xs, rfl, opened, spans⟩, waits, last⟩ := due
  have around : OperandDue outer group (us ++ xs) := ⟨us, xs, rfl, opened, spans⟩
  have closed := around.operand (Derives.group (waits.complete last).weaken)
  simpa only [List.append_assoc, List.cons_append, List.nil_append] using closed

theorem OperatorDue.additive (due : OperatorDue outer sum value ts) {op : ArithOp}
    (loose : op.precedence = 1) :
    OperandDue outer ⟨some (sum.complete value, op), none⟩ (ts ++ [.op op]) := by
  obtain ⟨us, vs, ws, rfl, opened, waits, last⟩ := due
  refine ⟨us, vs ++ ws ++ [.op op], ?_, opened, vs ++ ws ++ [.op op], [],
    (List.append_nil _).symm, ⟨loose, vs ++ ws, waits.complete last, rfl⟩, rfl⟩
  simp only [List.append_assoc]

theorem OperatorDue.multiplicative (due : OperatorDue outer sum value ts) {op : ArithOp}
    (tight : op.precedence ≠ 1) :
    OperandDue outer ⟨sum, some (value, op)⟩ (ts ++ [.op op]) := by
  obtain ⟨us, vs, ws, rfl, opened, waits, last⟩ := due
  refine ⟨us, vs ++ (ws ++ [.op op]), ?_, opened, vs, ws ++ [.op op], rfl, waits,
    precedence_eq_two tight, ws, last, rfl⟩
  simp only [List.append_assoc]

theorem OperatorDue.finish (due : OperatorDue [] sum value ts) :
    Derives 0 ts (sum.complete value) := by
  obtain ⟨_, vs, ws, rfl, rfl, waits, last⟩ := due
  exact (waits.complete last).weaken

end Due

theorem derives_of_read (rest : List Token) {e : Formula} :
    (∀ {outer group ts}, OperandDue outer group ts → readOperand outer group rest = some e →
      Derives 0 (ts ++ rest) e) ∧
    ∀ {outer sum value ts}, OperatorDue outer sum value ts →
      readOperator outer sum value rest = some e → Derives 0 (ts ++ rest) e := by
  induction rest with
  | nil =>
      refine ⟨fun _ read => (nomatch read), fun {outer sum value ts} due read => ?_⟩
      rw [readOperator] at read
      split at read
      · next empty =>
          rw [List.isEmpty_iff.1 empty] at due
          rw [List.append_nil, ← Option.some.inj read]
          exact due.finish
      · cases read
  | cons t rest ih =>
      refine ⟨fun {outer group ts} due read => ?_, fun {outer sum value ts} due read => ?_⟩
      · rw [List.append_cons]
        cases t with
        | word text => exact ih.2 (due.operand (.word text)) read
        | opening => exact ih.1 due.opening read
        | closing | comma | op _ => cases read
      · rw [List.append_cons]
        cases t with
        | closing =>
            cases outer with
            | nil => cases read
            | cons group outer => exact ih.2 due.closing read
        | op op =>
            rw [readOperator] at read
            split at read
            · next loose => exact ih.1 (due.additive loose) read
            · next tight => exact ih.1 (due.multiplicative tight) read
        | opening | comma | word _ => cases read

/-- The reader reads what the grammar derives, and as the grammar derives it. -/
theorem readTokens?_eq_some_iff {ts : List Token} {e : Formula} :
    readTokens? ts = some e ↔ Derives 0 ts e := by
  constructor
  · exact (derives_of_read ts).1 operandDue_start
  · intro h
    have whole := (readAs_of_derives h).sum [] [] trivial
    rwa [List.append_nil] at whole

/-- The formula that a printed formula spells is the formula. -/
theorem readTokens?_lex_render {e : Formula} (readable : e.Readable) :
    readTokens? (lex (e.render 0)) = some e := by
  rw [lex_render readable]
  exact readTokens?_eq_some_iff.2 (derives_tokens (Nat.zero_le 3) e)

/-- A value made of a formula, given what the words stand for. -/
def build? {α : Type} (word : List Char → Option α) (binary : ArithOp → α → α → α) :
    Formula → Option α
  | .word text => word text
  | .binary op lhs rhs => do
    return binary op (← lhs.build? word binary) (← rhs.build? word binary)

/-! ### Lists of formulas -/

/-- The text of a list of formulas: in parentheses, and with a comma after the only one of a
list. -/
def renderAll (es : List Formula) : List Char :=
  let text := [',', ' '].intercalate (es.map (render 0))
  if es.length = 1 then '(' :: text ++ [',', ')'] else '(' :: text ++ [')']

/-- The tokens of each formula of a list. -/
def listed? : List Token → Option (List (List Token))
  | .opening :: ts =>
    if ts.getLast? = some .closing then
      match ts.dropLast.splitOn .comma with
      | [[]] => some []
      | [_] => none
      | [ts, []] => some [ts]
      | tss => some tss
    else none
  | _ => none

theorem lexFrom_intercalate {es : List Formula} (readable : ∀ e ∈ es, e.Readable)
    {rest : List Char} (ends : EndsRun rest) :
    lexFrom [] ([',', ' '].intercalate (es.map (render 0)) ++ rest) =
      [Token.comma].intercalate (es.map (tokens 0)) ++ lexFrom [] rest := by
  induction es with
  | nil => rfl
  | cons e es ih =>
      obtain ⟨first, others⟩ := List.forall_mem_cons.1 readable
      cases es with
      | nil =>
          simp only [List.map_cons, List.map_nil, List.intercalate_singleton]
          exact lexFrom_render first 0 ends
      | cons e' es =>
          have separated (text : List Char) : lexFrom [] ([',', ' '] ++ text) =
              .comma :: lexFrom [] text := rfl
          simp only [List.map_cons, List.intercalate_cons_cons, List.append_assoc] at ih ⊢
          rw [lexFrom_render first 0 (by nofun), separated, ih others]
          rfl

theorem tokens_ne_nil (e : Formula) : e.tokens 0 ≠ [] :=
  (derives_tokens (Nat.zero_le 3) e).ne_nil

theorem comma_not_mem_tokens (e : Formula) : .comma ∉ e.tokens 0 :=
  (derives_tokens (Nat.zero_le 3) e).comma_not_mem

/-- The tokens between the parentheses of a list are split at the commas. -/
theorem listed?_tokens (es : List Formula) :
    listed? (.opening :: ([Token.comma].intercalate (es.map (tokens 0)) ++
      (if es.length = 1 then [.comma] else []) ++ [.closing])) = some (es.map (tokens 0)) := by
  rw [listed?, if_pos List.getLast?_concat, List.dropLast_concat]
  have noComma : ∀ ts ∈ es.map (tokens 0), .comma ∉ ts := by
    intro ts mem
    obtain ⟨e, -, rfl⟩ := List.mem_map.1 mem
    exact comma_not_mem_tokens e
  match es with
  | [] => rfl
  | [e] =>
      have split : ([Token.comma].intercalate [e.tokens 0, []]).splitOn .comma = [e.tokens 0, []] :=
        List.splitOn_intercalate _ (by simpa using comma_not_mem_tokens e) (List.cons_ne_nil _ _)
      rw [List.intercalate_cons_cons, List.intercalate_singleton, List.append_nil] at split
      simp only [List.map_cons, List.map_nil, List.intercalate_singleton, List.length_singleton,
        if_pos, split]
  | e :: e' :: es =>
      have split := List.splitOn_intercalate Token.comma noComma (List.cons_ne_nil _ _)
      obtain ⟨t, ts, first⟩ := List.exists_cons_of_ne_nil (tokens_ne_nil e)
      obtain ⟨u, us, second⟩ := List.exists_cons_of_ne_nil (tokens_ne_nil e')
      rw [if_neg (by simp), List.append_nil, split]
      simp only [List.map_cons, first, second]

theorem listed?_lex_renderAll {es : List Formula} (readable : ∀ e ∈ es, e.Readable) :
    listed? (lex (renderAll es)) = some (es.map (tokens 0)) := by
  have opened (text : List Char) : lex ('(' :: text) = .opening :: lexFrom [] text := rfl
  have inner {rest : List Char} (ends : EndsRun rest) := lexFrom_intercalate readable ends
  rw [← listed?_tokens, renderAll]
  split
  · next single =>
      rw [List.cons_append, opened, inner (by nofun), List.append_assoc]
      rfl
  · next several =>
      rw [List.cons_append, opened, inner (by nofun), List.append_nil]
      rfl

end Formula

end TensorIR
