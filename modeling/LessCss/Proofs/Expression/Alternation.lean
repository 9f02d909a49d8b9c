import LessCss.Expression.Reader
import LessCss.Proofs.Token.Branches

/-! Operands with operators between them, and the ways to group them. Main statement:
there is exactly one grouping in which products bind more tightly than sums, sums more
tightly than comparisons, and operators of one sort associate to the left. -/

set_option autoImplicit false

namespace LessCss

open List

def Operator.spellings : Operator → List (List String)
  | .add => [["+"]]
  | .subtract => [["-"]]
  | .multiply => [["*"]]
  | .divide => [["/"]]
  | .equals => [["="]]
  | .lessThan => [["<"]]
  | .greaterThan => [[">"]]
  | .lessOrEqual => [["<", "="], ["=", "<"]]
  | .greaterOrEqual => [[">", "="]]

def Operator.spelling : Operator → String × List String
  | .add => ("+", [])
  | .subtract => ("-", [])
  | .multiply => ("*", [])
  | .divide => ("/", [])
  | .equals => ("=", [])
  | .lessThan => ("<", [])
  | .greaterThan => (">", [])
  | .lessOrEqual => ("<", ["="])
  | .greaterOrEqual => (">", ["="])

/-- The first operator binds less tightly: it compares and the second one computes, or
it adds or subtracts and the second one multiplies or divides. -/
def Operator.Looser : Operator → Operator → Prop
  | .equals | .lessThan | .greaterThan | .lessOrEqual | .greaterOrEqual => (· ∈ [.add, .subtract, .multiply, .divide])
  | .add | .subtract => (· ∈ [.multiply, .divide])
  | .multiply | .divide => fun _ => False

theorem Operator.looser_iff (op other : Operator) : op.Looser other ↔ op.precedence < other.precedence := by
  cases op <;> cases other <;> simp [Looser, precedence]

theorem Operator.spelling_mem (op : Operator) : op.spelling.1 :: op.spelling.2 ∈ op.spellings := by
  cases op <;> decide

/-- An operator between two operands. Its marks stand side by side, with blanks around them. -/
structure Joint where
  before : Tokens
  op : Operator
  mark : Token
  more : Tokens
  after : Tokens
  blankBefore : before.Blank
  blankAfter : after.Blank
  marks : ∀ token ∈ mark :: more, token.kind = .other
  spelled : (mark :: more).map Token.text ∈ op.spellings

namespace Joint

def tokens (joint : Joint) : Tokens := joint.before ++ joint.mark :: (joint.more ++ joint.after)

theorem blank_space : Tokens.Blank [.space] := forall_mem_singleton.mpr rfl

theorem kind_of_mem_synthetic (texts : List String) :
    ∀ token ∈ texts.map (Token.synthetic .other), token.kind = .other := by
  intro token member
  obtain ⟨text, _, rfl⟩ := mem_map.mp member
  rfl

theorem map_text_synthetic (texts : List String) : (texts.map (Token.synthetic .other)).map Token.text = texts := by
  rw [map_map]
  exact map_id texts

def spaced (op : Operator) : Joint where
  before := [.space]
  op := op
  mark := .synthetic .other op.spelling.1
  more := op.spelling.2.map (.synthetic .other)
  after := [.space]
  blankBefore := blank_space
  blankAfter := blank_space
  marks := kind_of_mem_synthetic (op.spelling.1 :: op.spelling.2)
  spelled := (map_text_synthetic (op.spelling.1 :: op.spelling.2)).symm ▸ op.spelling_mem

def tokensBehind (items : List (Joint × Token)) : Tokens :=
  items.flatMap fun item => item.1.tokens ++ [item.2]

theorem tokensBehind_cons (joint : Joint) (token : Token) (items : List (Joint × Token)) :
    tokensBehind ((joint, token) :: items) = joint.tokens ++ token :: tokensBehind items := by
  simp [tokensBehind]

theorem tokensBehind_append (items others : List (Joint × Token)) :
    tokensBehind (items ++ others) = tokensBehind items ++ tokensBehind others := by
  simp [tokensBehind]

end Joint

structure Alternation where
  first : Token
  rest : List (Joint × Token)

namespace Alternation

def tokens (alternation : Alternation) : Tokens :=
  alternation.first :: Joint.tokensBehind alternation.rest

def operands (alternation : Alternation) : Tokens :=
  alternation.first :: alternation.rest.map Prod.snd

theorem length_lt_tokens_append (alternation : Alternation) (rest : Tokens) :
    rest.length < (alternation.tokens ++ rest).length := by
  simp only [tokens, cons_append, length_cons, length_append]
  omega

end Alternation

inductive Formula where
  | operand (token : Token)
  | node (left : Formula) (joint : Joint) (right : Formula)

namespace Formula

def first : Formula → Token
  | .operand token => token
  | .node left _ _ => left.first

def rest : Formula → List (Joint × Token)
  | .operand _ => []
  | .node left joint right => left.rest ++ (joint, right.first) :: right.rest

def alternation (formula : Formula) : Alternation := ⟨formula.first, formula.rest⟩

def root? : Formula → Option Joint
  | .operand _ => none
  | .node _ joint _ => some joint

/-- No operator has a looser one on its left, and on its right each one binds more tightly. -/
def WellGrouped : Formula → Prop
  | .operand _ => True
  | .node left joint right => left.WellGrouped ∧ right.WellGrouped ∧
    (∀ inner ∈ left.root?, ¬inner.op.Looser joint.op) ∧ ∀ inner ∈ right.root?, joint.op.Looser inner.op

theorem wellGrouped_node {left right : Formula} {joint : Joint} : (node left joint right).WellGrouped ↔
    left.WellGrouped ∧ right.WellGrouped ∧ (∀ inner ∈ left.root?, joint.op.precedence ≤ inner.op.precedence) ∧
      ∀ inner ∈ right.root?, joint.op.precedence < inner.op.precedence := by
  simp only [WellGrouped, Operator.looser_iff, Nat.not_lt]

/-- Adds an operator with its operand on the right. It takes over all that binds no less tightly. -/
def push (joint : Joint) (token : Token) : Formula → Formula
  | .operand first => .node (.operand first) joint (.operand token)
  | .node left top right =>
    if joint.op.precedence ≤ top.op.precedence then .node (.node left top right) joint (.operand token)
    else .node left top (right.push joint token)

def pushAll (formula : Formula) (items : List (Joint × Token)) : Formula :=
  items.foldl (fun formula item => formula.push item.1 item.2) formula

end Formula

def Alternation.formula (alternation : Alternation) : Formula :=
  (Formula.operand alternation.first).pushAll alternation.rest

namespace Formula

variable {formula : Formula}

theorem first_push (joint : Joint) (token : Token) (formula : Formula) :
    (formula.push joint token).first = formula.first := by
  cases formula with
  | operand first => rfl
  | node left top right =>
    rw [push]
    split <;> rfl

theorem rest_push (joint : Joint) (token : Token) (formula : Formula) :
    (formula.push joint token).rest = formula.rest ++ [(joint, token)] := by
  induction formula with
  | operand first => rfl
  | node left top right _ ih =>
    rw [push]
    split
    · rfl
    · simp only [rest, first_push, ih, List.append_assoc, cons_append]

theorem alternation_pushAll (formula : Formula) (items : List (Joint × Token)) :
    (formula.pushAll items).alternation = ⟨formula.first, formula.rest ++ items⟩ := by
  induction items generalizing formula with
  | nil => rw [append_nil]; rfl
  | cons item items ih =>
    rw [pushAll, foldl_cons]
    refine (ih _).trans ?_
    rw [first_push, rest_push, List.append_assoc]
    rfl

theorem root?_push {joint top : Joint} {token : Token} (found : (formula.push joint token).root? = some top) :
    top = joint ∨ formula.root? = some top := by
  cases formula with
  | operand first =>
    cases found
    exact .inl rfl
  | node left top' right =>
    rw [push] at found
    split at found
    · cases found
      exact .inl rfl
    · exact .inr found

theorem WellGrouped.node_operand (grouped : formula.WellGrouped) {joint : Joint} (token : Token)
    (tighter : ∀ inner ∈ formula.root?, joint.op.precedence ≤ inner.op.precedence) :
    (node formula joint (.operand token)).WellGrouped :=
  wellGrouped_node.mpr ⟨grouped, trivial, tighter, fun inner found => absurd found (Option.not_mem_none inner)⟩

theorem WellGrouped.push (grouped : formula.WellGrouped) (joint : Joint) (token : Token) :
    (formula.push joint token).WellGrouped := by
  induction formula with
  | operand first => exact grouped.node_operand token fun inner found => absurd found (Option.not_mem_none inner)
  | node left top right _ ih =>
    rw [Formula.push]
    split
    · rename_i looser
      refine grouped.node_operand token ?_
      rintro inner ⟨⟩
      exact looser
    · rename_i tighter
      obtain ⟨leftGrouped, rightGrouped, atLeft, atRight⟩ := wellGrouped_node.mp grouped
      refine wellGrouped_node.mpr ⟨leftGrouped, ih rightGrouped, atLeft, fun inner found => ?_⟩
      rcases root?_push found with rfl | inside
      · exact Nat.lt_of_not_le tighter
      · exact atRight inner inside

theorem WellGrouped.pushAll (grouped : formula.WellGrouped) (items : List (Joint × Token)) :
    (formula.pushAll items).WellGrouped := by
  induction items generalizing formula with
  | nil => exact grouped
  | cons item items ih => exact ih (grouped.push item.1 item.2)

theorem rest_of_root?_none (none_ : formula.root? = none) : formula.rest = [] := by
  cases formula with
  | operand first => rfl
  | node left joint right => cases none_

/-- All operators of a formula bind at least as tightly as the one at its root. -/
theorem WellGrouped.precedence_le (grouped : formula.WellGrouped) {joint : Joint} (root : formula.root? = some joint) :
    ∀ item ∈ formula.rest, joint.op.precedence ≤ item.1.op.precedence := by
  induction formula generalizing joint with
  | operand first => cases root
  | node left top right ihLeft ihRight =>
    cases root
    obtain ⟨leftGrouped, rightGrouped, atLeft, atRight⟩ := wellGrouped_node.mp grouped
    intro item member
    rcases mem_append.mp member with inside | inside
    · cases found : left.root? with
      | none => simp [rest_of_root?_none found] at inside
      | some inner => exact Nat.le_trans (atLeft inner found) (ihLeft leftGrouped found item inside)
    rcases mem_cons.mp inside with rfl | inside
    · exact Nat.le_refl _
    cases found : right.root? with
    | none => simp [rest_of_root?_none found] at inside
    | some inner =>
      exact Nat.le_trans (Nat.le_of_lt (atRight inner found)) (ihRight rightGrouped found item inside)

theorem WellGrouped.precedence_lt {left right : Formula} {joint : Joint} (grouped : (node left joint right).WellGrouped) :
    ∀ item ∈ right.rest, joint.op.precedence < item.1.op.precedence := by
  intro item member
  cases found : right.root? with
  | none => simp [rest_of_root?_none found] at member
  | some inner =>
    obtain ⟨_, rightGrouped, _, atRight⟩ := wellGrouped_node.mp grouped
    exact Nat.lt_of_lt_of_le (atRight inner found) (rightGrouped.precedence_le found item member)

/-- Operators that bind more tightly than the root all go to its right. -/
theorem pushAll_node (left right : Formula) (joint : Joint) {items : List (Joint × Token)}
    (tighter : ∀ item ∈ items, joint.op.precedence < item.1.op.precedence) :
    (node left joint right).pushAll items = .node left joint (right.pushAll items) := by
  induction items generalizing right with
  | nil => rfl
  | cons item items ih =>
    obtain ⟨one, others⟩ := forall_mem_cons.mp tighter
    have step : (node left joint right).push item.1 item.2 = .node left joint (right.push item.1 item.2) := by
      rw [push, if_neg (Nat.not_le_of_lt one)]
    rw [pushAll, foldl_cons, step]
    exact ih _ others

theorem push_of_root {joint : Joint} (token : Token)
    (tighter : ∀ inner ∈ formula.root?, joint.op.precedence ≤ inner.op.precedence) :
    formula.push joint token = .node formula joint (.operand token) := by
  cases formula with
  | operand first => rfl
  | node left top right => rw [push, if_pos (tighter top rfl)]

/-- A formula that is grouped by precedence is the grouping of its operands and operators. -/
theorem WellGrouped.formula_alternation (grouped : formula.WellGrouped) : formula.alternation.formula = formula := by
  induction formula with
  | operand first => rfl
  | node left joint right ihLeft ihRight =>
    have tighter := grouped.precedence_lt
    obtain ⟨leftGrouped, rightGrouped, atLeft, _⟩ := wellGrouped_node.mp grouped
    -- The left formula is built first. The operator takes over all of it, and the others go to its right.
    calc (node left joint right).alternation.formula
        = ((operand left.first).pushAll (left.rest ++ (joint, right.first) :: right.rest)) := rfl
      _ = ((left.alternation.formula).push joint right.first).pushAll right.rest := by
        rw [Formula.pushAll, foldl_append, foldl_cons]
        rfl
      _ = (node left joint (.operand right.first)).pushAll right.rest := by
        rw [ihLeft leftGrouped, push_of_root _ atLeft]
      _ = node left joint right.alternation.formula := pushAll_node _ _ _ tighter
      _ = node left joint right := by rw [ihRight rightGrouped]

end Formula

namespace Alternation

theorem wellGrouped_formula (alternation : Alternation) : alternation.formula.WellGrouped :=
  have leaf : (Formula.operand alternation.first).WellGrouped := trivial
  leaf.pushAll alternation.rest

theorem alternation_formula (alternation : Alternation) : alternation.formula.alternation = alternation :=
  Formula.alternation_pushAll (.operand alternation.first) alternation.rest

theorem first_formula (alternation : Alternation) : alternation.formula.first = alternation.first :=
  congrArg first alternation.alternation_formula

theorem rest_formula (alternation : Alternation) : alternation.formula.rest = alternation.rest :=
  congrArg rest alternation.alternation_formula

/-- There is one grouping by precedence, and no other. -/
theorem wellGrouped_iff (alternation : Alternation) (formula : Formula) :
    formula.WellGrouped ∧ formula.alternation = alternation ↔ formula = alternation.formula := by
  constructor
  · rintro ⟨grouped, rfl⟩
    exact grouped.formula_alternation.symm
  · rintro rfl
    exact ⟨alternation.wellGrouped_formula, alternation.alternation_formula⟩

end Alternation

end LessCss
