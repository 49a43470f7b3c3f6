import TensorIR.HeapFunction
import TensorIR.Shape
import TensorIR.Proofs.Reading.Words

/-!
# Shapes and heap expressions from their text

Dimensions and the expressions of heap functions are formulas over words of their own: numbers and
names, or numbers and cells. Each is printed as its formula (`Dim.toFormula`, `HeapExpr.toFormula`),
and a formula is read back from its text, so all that is left to show is that a word stands for one
thing only. A number begins with a digit or a minus and a variable without a name begins with a
question mark. No identifier does, and identifiers that are distinct tell the other variables apart.

So equal texts are texts of equal trees (`text_determines`). The grammar by which they are read is
that of `Formula.Derives`, where an operator takes a left operand of its own strength of binding and
a right one that binds tighter.
-/

namespace TensorIR

open Formula (Token)

/-! ### Dimensions -/

namespace Dim

/-- The formula that a dimension is printed as. -/
def toFormula (names : List String) : Dim → Formula
  | int n => .word (toString n.toInt).toList
  | var v => .word (varName names v).toList
  | binary op lhs rhs => .binary op (lhs.toFormula names) (rhs.toFormula names)

/-- The dimension that a word stands for if it is no name: a variable by its position after a
question mark, or a literal. -/
def ofUnnamed? : List Char → Option Dim
  | '?' :: digits => (Text.natural? digits).map fun n => var ⟨n⟩
  | text => (Text.literal? text).map int

/-- The dimension that a word stands for. -/
def ofWord? (names : List String) (text : List Char) : Option Dim :=
  match names.idxOf? (String.ofList text) with
  | some i => some (var ⟨i⟩)
  | none => ofUnnamed? text

/-- The dimension that tokens spell. -/
def read? (names : List String) (ts : List Token) : Option Dim :=
  Formula.readTokens? ts >>= Formula.build? (ofWord? names) binary

variable {names : List String}

theorem toList_render (names : List String) (level : Nat) (d : Dim) :
    (d.render names level).toList = (d.toFormula names).render level := by
  induction d generalizing level with
  | int n => rfl
  | var v => rfl
  | binary op lhs rhs ihl ihr =>
      rw [render, toFormula, Formula.render]
      split <;> simp [String.toList_append, ihl, ihr]

theorem varName_known {i : Nat} {name : String} (known : names[i]? = some name) :
    varName names ⟨i⟩ = name := by
  rw [varName, known]
  rfl

theorem varName_unknown {i : Nat} (unknown : names[i]? = none) :
    (varName names ⟨i⟩).toList = '?' :: Nat.toDigits 10 i := by
  rw [varName, unknown]
  exact (String.toList_append).trans (congrArg _ Nat.toList_repr)

variable (identifiers : ∀ name ∈ names, Text.isIdentifier name.toList = true)
include identifiers

/-- What does not begin like a name is no name. -/
theorem idxOf?_eq_none {c : Char} (cs : List Char) (first : Text.startsName c = false) :
    names.idxOf? (String.ofList (c :: cs)) = none := by
  rw [List.idxOf?_eq_none_iff]
  intro mem
  have identifier := identifiers _ mem
  rw [String.toList_ofList, Text.isIdentifier_cons cs first] at identifier
  cases identifier

theorem ofWord?_int (n : Int64) : ofWord? names (toString n.toInt).toList = some (int n) := by
  have value := Text.literal?_toString n
  obtain ⟨c, cs, text, noName, noMark⟩ := Text.exists_toString_cons n.toInt
  rw [text] at value ⊢
  rw [ofWord?, idxOf?_eq_none identifiers cs noName]
  show ofUnnamed? (c :: cs) = _
  rw [ofUnnamed?, value]
  · rfl
  · exact fun _ same => noMark (List.cons.inj same).1

theorem ofWord?_var (distinct : names.Nodup) (v : DimVar) :
    ofWord? names (varName names v).toList = some (var v) := by
  obtain ⟨i⟩ := v
  cases found : names[i]? with
  | some name =>
      obtain ⟨inList, same⟩ := List.getElem?_eq_some_iff.1 found
      have position : names.idxOf? name = some i :=
        List.idxOf?_eq_some_iff.2 ⟨inList, same, fun j before again =>
          List.pairwise_iff_getElem.1 distinct j i _ inList before (again.trans same.symm)⟩
      rw [varName_known found, ofWord?, String.ofList_toList, position]
  | none =>
      rw [varName_unknown found, ofWord?, idxOf?_eq_none identifiers _ rfl]
      exact congrArg (Option.map fun n => var ⟨n⟩) (Text.natural?_toDigits i)

theorem readable_toFormula (d : Dim) : (d.toFormula names).Readable := by
  induction d with
  | int n => exact Text.isWord_integer n.toInt
  | var v =>
      obtain ⟨i⟩ := v
      show Formula.IsWord (varName names ⟨i⟩).toList
      cases found : names[i]? with
      | some name =>
          rw [varName_known found]
          exact Text.isWord_identifier (identifiers name (List.mem_of_getElem? found))
      | none =>
          rw [varName_unknown found]
          have word := Text.isWord_toDigits i ['?'] [] (List.forall_mem_singleton.2 rfl)
          rwa [List.append_nil, List.singleton_append] at word
  | binary op lhs rhs ihl ihr => exact ⟨ihl, ihr⟩

theorem build?_toFormula (distinct : names.Nodup) (d : Dim) :
    (d.toFormula names).build? (ofWord? names) binary = some d := by
  induction d with
  | int n => exact ofWord?_int identifiers n
  | var v => exact ofWord?_var identifiers distinct v
  | binary op lhs rhs ihl ihr =>
      rw [toFormula, Formula.build?, ihl, ihr]
      rfl

theorem read?_tokens (distinct : names.Nodup) (d : Dim) :
    read? names ((d.toFormula names).tokens 0) = some d := by
  have formula := Formula.readTokens?_lex_render (readable_toFormula identifiers d)
  rw [Formula.lex_render (readable_toFormula identifiers d)] at formula
  rw [read?, formula]
  exact build?_toFormula identifiers distinct d

end Dim

/-! ### Shapes -/

namespace Shape

/-- The shape that a text spells. -/
def read? (names : List String) (text : String) : Option Shape :=
  Formula.listed? (Formula.lex text.toList) >>= List.mapM (Dim.read? names)

theorem toList_render (names : List String) (s : Shape) :
    (s.render names).toList = Formula.renderAll (s.map (Dim.toFormula names)) := by
  have dims : (", ".intercalate (s.map (Dim.render names 0))).toList =
      [',', ' '].intercalate ((s.map (Dim.toFormula names)).map (Formula.render 0)) := by
    rw [String.toList_intercalate, List.map_map, List.map_map]
    exact congrArg _ (List.map_congr_left fun d _ => Dim.toList_render names 0 d)
  rw [render, Formula.renderAll, List.length_map]
  split <;> simp [String.toList_append, dims]

variable {names : List String} (distinct : names.Nodup)
  (identifiers : ∀ name ∈ names, Text.isIdentifier name.toList = true)
include distinct identifiers

theorem mapM_read?_tokens (s : Shape) :
    ((s.map (Dim.toFormula names)).map (Formula.tokens 0)).mapM (Dim.read? names) = some s := by
  induction s with
  | nil => rfl
  | cons d s ih =>
      rw [List.map_cons, List.map_cons, List.mapM_cons, Dim.read?_tokens identifiers distinct, ih]
      rfl

theorem read?_render (s : Shape) : read? names (s.render names) = some s := by
  have readable : ∀ e ∈ s.map (Dim.toFormula names), e.Readable := by
    intro e mem
    obtain ⟨d, -, rfl⟩ := List.mem_map.1 mem
    exact Dim.readable_toFormula identifiers d
  rw [read?, toList_render, Formula.listed?_lex_renderAll readable]
  exact mapM_read?_tokens distinct identifiers s

end Shape

/-! ### Expressions of heap functions -/

namespace HeapExpr

/-- The formula that an expression is printed as. -/
def toFormula : HeapExpr → Formula
  | int n => .word (toString n.toInt).toList
  | load slot => .word ("heap[" ++ toString slot ++ "]").toList
  | binary op lhs rhs => .binary op lhs.toFormula rhs.toFormula

/-- The expression that a word stands for: a cell by its position, or a literal. -/
def ofWord? (text : List Char) : Option HeapExpr :=
  match text with
  | 'h' :: 'e' :: 'a' :: 'p' :: '[' :: rest =>
    if rest.getLast? = some ']' then (Text.natural? rest.dropLast).map load else none
  | _ => (Text.literal? text).map int

/-- The expression that a text spells. -/
def read? (text : String) : Option HeapExpr :=
  Formula.readTokens? (Formula.lex text.toList) >>= Formula.build? ofWord? binary

theorem toList_render (level : Nat) (e : HeapExpr) :
    (e.render level).toList = e.toFormula.render level := by
  induction e generalizing level with
  | int n => rfl
  | load slot => rfl
  | binary op lhs rhs ihl ihr =>
      rw [render, toFormula, Formula.render]
      split <;> simp [String.toList_append, ihl, ihr]

theorem toList_load (slot : Nat) : ("heap[" ++ toString slot ++ "]").toList =
    ['h', 'e', 'a', 'p', '['] ++ Nat.toDigits 10 slot ++ [']'] := by
  rw [String.toList_append, String.toList_append, Nat.toString_eq_repr, Nat.toList_repr]
  rfl

theorem ofWord?_load (slot : Nat) :
    ofWord? ("heap[" ++ toString slot ++ "]").toList = some (load slot) := by
  rw [toList_load]
  show (if (Nat.toDigits 10 slot ++ [']']).getLast? = some ']' then
    (Text.natural? (Nat.toDigits 10 slot ++ [']']).dropLast).map load else none) = _
  rw [if_pos List.getLast?_concat, List.dropLast_concat, Text.natural?_toDigits]
  rfl

theorem ofWord?_int (n : Int64) : ofWord? (toString n.toInt).toList = some (int n) := by
  have value := Text.literal?_toString n
  obtain ⟨c, cs, text, noName, -⟩ := Text.exists_toString_cons n.toInt
  rw [text] at value ⊢
  rw [ofWord?]
  · rw [value]
    rfl
  · intro rest same
    rw [(List.cons.inj same).1] at noName
    cases noName

theorem readable_toFormula (e : HeapExpr) : e.toFormula.Readable := by
  induction e with
  | int n => exact Text.isWord_integer n.toInt
  | load slot =>
      show Formula.IsWord ("heap[" ++ toString slot ++ "]").toList
      rw [toList_load]
      exact Text.isWord_toDigits slot _ _ (by simp [Formula.Token.ofDelimiter?])
  | binary op lhs rhs ihl ihr => exact ⟨ihl, ihr⟩

theorem build?_toFormula (e : HeapExpr) : e.toFormula.build? ofWord? binary = some e := by
  induction e with
  | int n => exact ofWord?_int n
  | load slot => exact ofWord?_load slot
  | binary op lhs rhs ihl ihr =>
      rw [toFormula, Formula.build?, ihl, ihr]
      rfl

theorem read?_render (e : HeapExpr) : read? (e.render 0) = some e := by
  rw [read?, toList_render, Formula.readTokens?_lex_render (readable_toFormula e)]
  exact build?_toFormula e

end HeapExpr

/-- Shapes and the expressions of heap functions can be read off their text, by the grammar in which
operators have two strengths of binding and associate to the left. So the text tells them apart.
Dimension variables need names that are distinct identifiers for that; those without a name are told
apart by their positions. -/
theorem text_determines :
    (∀ (names : List String), names.Nodup →
      (∀ name ∈ names, Text.isIdentifier name.toList = true) →
      (∀ s : Shape, Shape.read? names (s.render names) = some s) ∧
        ∀ s t : Shape, s.render names = t.render names → s = t) ∧
    (∀ e : HeapExpr, HeapExpr.read? (e.render 0) = some e) ∧
    (∀ e e' : HeapExpr, e.render 0 = e'.render 0 → e = e') ∧
    ∀ (ts : List Token) (e : Formula),
      Formula.readTokens? ts = some e ↔ Formula.Derives 0 ts e := by
  refine ⟨fun names distinct identifiers => ?_, HeapExpr.read?_render, fun e e' same => ?_,
    fun ts e => Formula.readTokens?_eq_some_iff⟩
  · have recovers := Shape.read?_render distinct identifiers
    refine ⟨recovers, fun s t same => ?_⟩
    have read := recovers s
    rw [same, recovers t] at read
    exact (Option.some.inj read).symm
  · have read := HeapExpr.read?_render e
    rw [same, HeapExpr.read?_render e'] at read
    exact (Option.some.inj read).symm

/-- Two shapes that differ only in how their operators are grouped. -/
theorem text_determines_grouped :
    let names := ["n", "batch_2"]
    let grouped (d : Dim) : Shape := [d, .binary .floorMod (.binary .mul (.var ⟨7⟩) (.int (-2))) d]
    let s := grouped (.binary .sub (.var ⟨0⟩) (.binary .sub (.var ⟨1⟩) (.int (-1))))
    let t := grouped (.binary .sub (.binary .sub (.var ⟨0⟩) (.var ⟨1⟩)) (.int (-1)))
    let e : HeapExpr := .binary .floorDiv (.load 2) (.binary .mul (.load 0) (.int (-3)))
    names.Nodup ∧ (∀ name ∈ names, Text.isIdentifier name.toList = true) ∧
      s.render names = "(n - (batch_2 - -1), ?7 * -2 % (n - (batch_2 - -1)))" ∧
      t.render names = "(n - batch_2 - -1, ?7 * -2 % (n - batch_2 - -1))" ∧
      Shape.read? names "(n - (batch_2 - -1), ?7 * -2 % (n - (batch_2 - -1)))" = some s ∧
      s.render names ≠ t.render names ∧
      e.render 0 = "heap[2] // (heap[0] * -3)" ∧
      HeapExpr.read? "heap[2] // (heap[0] * -3)" = some e := by
  intro names grouped s t e
  have distinct : names.Nodup := by decide
  have identifiers : ∀ name ∈ names, Text.isIdentifier name.toList = true := by decide
  have textOfShape : s.render names =
      "(n - (batch_2 - -1), ?7 * -2 % (n - (batch_2 - -1)))" := by decide
  have textOfExpr : e.render 0 = "heap[2] // (heap[0] * -3)" := by decide
  obtain ⟨shapes, exprs, -, -⟩ := text_determines
  obtain ⟨recovers, apart⟩ := shapes names distinct identifiers
  refine ⟨distinct, identifiers, textOfShape, by decide, textOfShape ▸ recovers s, ?_, textOfExpr,
    textOfExpr ▸ exprs e⟩
  intro same
  exact absurd (apart s t same) (by decide)

end TensorIR
