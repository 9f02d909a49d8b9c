import LessCss.Proofs.Expression.Alternation
import LessCss.Proofs.Expression.Steps
import LessCss.Proofs.Processor.Values

/-! Operators bind by their precedence. Main statement: inside parentheses, constants
with operators between them are read as a whole, and what is computed is the value
of the one formula that groups them by precedence and to the left. -/

set_option autoImplicit false

namespace LessCss

open List Tokens Joint

namespace Operator

/-- What the marks of an operator are read as. -/
theorem ofText?_of_spelled {op : Operator} {mark : Token} {more : Tokens}
    (marks : ∀ token ∈ mark :: more, token.kind = .other) (spelled : (mark :: more).map Token.text ∈ op.spellings) :
    (more = [] ∧ ofText? mark.text = some op) ∨
      ∃ next, more = [next] ∧ formsOperator mark next = true ∧ ofText? (mark.text ++ next.text) = some op := by
  have kinds (token : Token) (member : token ∈ more) : token.kind = .other := marks token (mem_cons_of_mem _ member)
  cases more with
  | nil =>
    refine .inl ⟨rfl, ?_⟩
    cases op <;> simp_all [spellings] <;> rfl
  | cons next others =>
    refine .inr ⟨next, ?_⟩
    have kind : next.kind = .other := kinds next mem_cons_self
    -- Only the two comparisons that include equality have spellings of two marks.
    cases op with
    | lessOrEqual =>
      simp only [spellings, map_cons, mem_cons, List.cons.injEq, map_eq_nil_iff, not_mem_nil,
        or_false] at spelled
      rcases spelled with ⟨first, second, rfl⟩ | ⟨first, second, rfl⟩ <;>
        exact ⟨rfl, by simp [formsOperator, kind, first, second], by rw [first, second]; rfl⟩
    | greaterOrEqual =>
      simp only [spellings, map_cons, mem_cons, List.cons.injEq, map_eq_nil_iff, not_mem_nil,
        or_false] at spelled
      obtain ⟨first, second, rfl⟩ := spelled
      exact ⟨rfl, by simp [formsOperator, kind, first, second], by rw [first, second]; rfl⟩
    | _ => simp [spellings] at spelled

end Operator

namespace Joint

theorem trimLeft_tokens (joint : Joint) (rest : Tokens) :
    trimLeft (joint.tokens ++ rest) = joint.mark :: (joint.more ++ (joint.after ++ rest)) := by
  have kind : joint.mark.kind = .other := joint.marks _ mem_cons_self
  have solid : joint.mark.isBlank = false := by rw [Token.isBlank, kind]; rfl
  rw [tokens, List.append_assoc, trimLeft_append_of_blank joint.blankBefore, cons_append,
    List.append_assoc, trimLeft_cons_of_solid solid]

/-- In front of an operand, the marks are read as the operator. -/
theorem operator?_tokens (joint : Joint) {operand : Token} (rest : Tokens) (solid : operand.isBlank = false)
    (other : operand.kind ≠ .other) :
    ∃ shorter, operator? (joint.tokens ++ operand :: rest) =
      some ⟨joint.op, joint.mark, operand :: rest, shorter⟩ := by
  have kind : joint.mark.kind = .other := joint.marks _ mem_cons_self
  have start := joint.trimLeft_tokens (operand :: rest)
  have behind : trimLeft (joint.after ++ operand :: rest) = operand :: rest := by
    rw [trimLeft_append_of_blank joint.blankAfter, trimLeft_cons_of_solid solid]
  rcases Operator.ofText?_of_spelled joint.marks joint.spelled with ⟨single, named⟩ | ⟨next, double, forms, named⟩
  · rw [single, nil_append] at start
    -- Behind the mark stands a blank or the operand, so no second mark joins it.
    obtain ⟨next, others, same, apart⟩ : ∃ next others, joint.after ++ operand :: rest = next :: others ∧
        next.kind ≠ .other := by
      cases found : joint.after with
      | nil => exact ⟨operand, rest, rfl, other⟩
      | cons blank others =>
        refine ⟨blank, others ++ operand :: rest, rfl, fun mark => ?_⟩
        have white := joint.blankAfter blank (by simp [found])
        rw [Token.isBlank, mark] at white
        cases white
    rw [same] at start behind
    exact operator?_single start behind kind apart named
  · rw [double] at start
    exact operator?_double start behind kind forms named

theorem headIs_tokens (joint : Joint) (rest : Tokens) : headIs (joint.tokens ++ rest) .parenOpen = false := by
  have kind : joint.mark.kind = .other := joint.marks _ mem_cons_self
  cases found : joint.before with
  | nil => simp [tokens, found, headIs, headKind?, kind]
  | cons blank others =>
    have white := joint.blankBefore blank (by simp [found])
    have other : blank.kind ≠ .parenOpen := fun opens => by simp [Token.isBlank, opens, Kind.isBlank] at white
    simp [tokens, found, headIs, headKind?, other]

theorem headIs_tokensBehind (items : List (Joint × Token)) {more : Tokens} (uncalled : more.headIs .parenOpen = false) :
    headIs (tokensBehind items ++ more) .parenOpen = false := by
  cases items with
  | nil => exact uncalled
  | cons item items =>
    rw [tokensBehind_cons, List.append_assoc]
    exact item.1.headIs_tokens _

end Joint

namespace Formula

def evaluate (value : Token → Value) : Formula → Except Error Value
  | .operand token => .ok (value token)
  | .node left joint right => do
    let lhs ← left.evaluate value
    let rhs ← right.evaluate value
    Environment.operate joint.mark joint.op lhs rhs

def operands (formula : Formula) : Tokens := formula.alternation.operands

theorem forall_mem_operands_node {left right : Formula} {joint : Joint} {post : Token → Prop} :
    (∀ token ∈ (node left joint right).operands, post token) ↔
      (∀ token ∈ left.operands, post token) ∧ ∀ token ∈ right.operands, post token := by
  simp only [operands, alternation, Alternation.operands, first, rest, map_append, map_cons,
    ← cons_append, forall_mem_append]

def isLiteral : Formula → Bool
  | .operand token => token.kind.isNumeric
  | .node .. => false

/-- Somewhere a number that is written out is divided by another one. -/
def HasLiteralSlash : Formula → Prop
  | .operand _ => False
  | .node left joint right => left.HasLiteralSlash ∨ right.HasLiteralSlash ∨
    (joint.op = .divide ∧ left.isLiteral = true ∧ right.first.kind.isNumeric = true)

end Formula

namespace Environment

variable {env : Environment} {grouped : Bool} {value : Token → Value}

theorem climb_widen_self {last : Option Operator} {lhs : Value} {literal : Bool} (tokens : Tokens) :
    (env.climb grouped last lhs literal tokens).map (Upto.widen tokens.length.le_refl) =
      env.climb grouped last lhs literal tokens := by
  cases env.climb grouped last lhs literal tokens <;> rfl

theorem any_precedence_of_le {last : Option Operator} {op inner : Operator}
    (tighter : last.any (op.precedence ≤ ·.precedence) = false) (le : op.precedence ≤ inner.precedence) :
    last.any (inner.precedence ≤ ·.precedence) = false := by
  cases last with
  | none => rfl
  | some last =>
    simp only [Option.any_some, decide_eq_false_iff_not] at tighter ⊢
    omega

/-- An operator is applied to what is read on its right, up to `more`. -/
theorem climb_joint (joint : Joint) {first : Token} {rhs : Except Error Value} {last : Option Operator} {literal : Bool}
    {inside more : Tokens} (bound : more.length ≤ inside.length)
    (bound' : more.length ≤ (joint.tokens ++ first :: inside).length)
    (read : env.literal? grouped first = .ok (some (value first))) (uncalled : inside.headIs .parenOpen = false)
    (right : env.climb grouped (some joint.op) (value first) first.kind.isNumeric inside =
      rhs.map fun result => ⟨result, more, bound⟩)
    (tighter : last.any (joint.op.precedence ≤ ·.precedence) = false)
    (divides : (joint.op = .divide && !grouped && literal && first.kind.isNumeric) = false) (lhs : Value) :
    env.climb grouped last lhs literal (joint.tokens ++ first :: inside) =
      rhs >>= fun rhs => operate joint.mark joint.op lhs rhs >>= fun result =>
        (env.climb grouped last result false more).map (Upto.widen bound') := by
  obtain ⟨solid, other, _⟩ := solid_of_literal? read
  obtain ⟨shorter, found⟩ := joint.operator?_tokens inside solid other
  have constant := constant_of_literal? inside read fun _ => uncalled
  rw [climb_of_operator found tighter divides constant, startsNumeric_cons, right]
  cases rhs <;> rfl

/-- Behind the first operand of a formula, its operators are applied as the formula has them. They bind
more tightly than `last`, and what follows the formula binds no more tightly than its root. -/
theorem climb_formula {formula : Formula} (wellGrouped : formula.WellGrouped)
    (reads : ∀ token ∈ formula.operands, env.literal? grouped token = .ok (some (value token)))
    (divides : grouped = true ∨ ¬formula.HasLiteralSlash) {last : Option Operator}
    (tighter : ∀ joint ∈ formula.root?, last.any (joint.op.precedence ≤ ·.precedence) = false)
    {more tokens : Tokens} (uncalled : more.headIs .parenOpen = false)
    (looser : ∀ joint ∈ formula.root?, ∀ next ∈ more.operator?, next.op.precedence ≤ joint.op.precedence)
    (spelled : tokens = tokensBehind formula.rest ++ more) (bound : more.length ≤ tokens.length) :
    env.climb grouped last (value formula.first) formula.first.kind.isNumeric tokens =
      formula.evaluate value >>= fun result =>
        (env.climb grouped last result formula.isLiteral more).map (Upto.widen bound) := by
  induction formula generalizing last more tokens with
  | operand token =>
    cases spelled
    exact (climb_widen_self more).symm
  | node left joint right ihLeft ihRight =>
    obtain ⟨leftGrouped, rightGrouped, atLeft, atRight⟩ := Formula.wellGrouped_node.mp wellGrouped
    obtain ⟨readsLeft, readsRight⟩ := Formula.forall_mem_operands_node.mp reads
    have follows : ∀ next ∈ more.operator?, next.op.precedence ≤ joint.op.precedence := looser joint rfl
    have readFirst := readsRight right.first mem_cons_self
    -- The right formula is read up to what follows, as nothing there binds more tightly than the operator.
    have within : more.length ≤ (tokensBehind right.rest ++ more).length := by simp
    have onRight : env.climb grouped (some joint.op) (value right.first) right.first.kind.isNumeric
        (tokensBehind right.rest ++ more) = (right.evaluate value).map fun result => ⟨result, more, within⟩ := by
      have stop (result : Value) : env.climb grouped (some joint.op) result right.isLiteral more =
          .ok (.all result more) := climb_of_looser fun next at_ => by simpa using follows next at_
      rw [ihRight rightGrouped readsRight (divides.imp_right fun free has => free (.inr (.inl has)))
        (fun inner at_ => by simpa using atRight inner at_) uncalled
        (fun inner at_ next at' => Nat.le_trans (follows next at') (Nat.le_of_lt (atRight inner at_))) rfl within]
      simp only [stop]
      cases right.evaluate value <;> rfl
    have literalSlash : (joint.op = .divide && !grouped && left.isLiteral && right.first.kind.isNumeric) = false := by
      rcases divides with inside | free
      · simp [inside]
      · refine Bool.eq_false_iff.mpr fun slash => free (.inr (.inr ?_))
        simp only [Bool.and_eq_true, decide_eq_true_eq] at slash
        exact ⟨slash.1.1.1, slash.1.2, slash.2⟩
    -- What stands behind the left formula begins with the operator.
    obtain ⟨solid, other, _⟩ := solid_of_literal? readFirst
    obtain ⟨_, found⟩ := joint.operator?_tokens (tokensBehind right.rest ++ more) solid other
    have whole : tokens = tokensBehind left.rest ++
        (joint.tokens ++ right.first :: (tokensBehind right.rest ++ more)) := by
      rw [spelled, Formula.rest, tokensBehind_append, tokensBehind_cons]
      simp only [List.append_assoc, cons_append]
    have outer : (joint.tokens ++ right.first :: (tokensBehind right.rest ++ more)).length ≤ tokens.length := by
      simp [whole]
    have inner : more.length ≤ (joint.tokens ++ right.first :: (tokensBehind right.rest ++ more)).length := by
      simp only [length_append, length_cons]
      omega
    have onLeft : env.climb grouped last (value left.first) left.first.kind.isNumeric tokens =
        left.evaluate value >>= fun lhs => (env.climb grouped last lhs left.isLiteral
          (joint.tokens ++ right.first :: (tokensBehind right.rest ++ more))).map (Upto.widen outer) := by
      refine ihLeft leftGrouped readsLeft (divides.imp_right fun free has => free (.inl has))
        (fun top at_ => any_precedence_of_le (tighter joint rfl) (atLeft top at_)) (joint.headIs_tokens _)
        (fun top at_ next at' => ?_) whole outer
      rw [found] at at'
      cases at'
      exact atLeft top at_
    have applied := climb_joint joint within inner readFirst (headIs_tokensBehind right.rest uncalled) onRight
      (tighter joint rfl) literalSlash
    rw [Formula.first, onLeft, Formula.evaluate]
    simp only [applied]
    cases left.evaluate value with
    | error error => rfl
    | ok lhs =>
      cases right.evaluate value with
      | error error => rfl
      | ok rhs =>
        change (operate joint.mark joint.op lhs rhs >>= _).map _ = operate joint.mark joint.op lhs rhs >>= _
        cases operate joint.mark joint.op lhs rhs with
        | error error => rfl
        | ok result =>
          change ((env.climb grouped last result false more).map _).map _ = (env.climb grouped last result false more).map _
          cases env.climb grouped last result false more <;> rfl

/-- Operands and operators are read as a whole, if no operator and no call follows. -/
theorem statement_alternation {alternation : Alternation}
    (reads : ∀ token ∈ alternation.operands, env.literal? grouped token = .ok (some (value token)))
    (divides : grouped = true ∨ ¬alternation.formula.HasLiteralSlash) {more : Tokens}
    (uncalled : more.headIs .parenOpen = false) (stop : more.operator? = none) :
    env.statement grouped (alternation.tokens ++ more) = (alternation.formula.evaluate value).map fun result =>
      .found result more (alternation.length_lt_tokens_append more) := by
  have reads' : ∀ token ∈ alternation.formula.operands, env.literal? grouped token = .ok (some (value token)) := by
    rwa [Formula.operands, alternation.alternation_formula]
  have bound : more.length ≤ (tokensBehind alternation.rest ++ more).length := by simp
  have climbed : env.climb grouped none (value alternation.first) alternation.first.kind.isNumeric
      (tokensBehind alternation.rest ++ more) = alternation.formula.evaluate value >>= fun result =>
        (env.climb grouped none result alternation.formula.isLiteral more).map (Upto.widen bound) := by
    rw [← alternation.first_formula]
    -- The formula is the tree that groups the operands by precedence; climbing follows it from its first operand.
    refine climb_formula alternation.wellGrouped_formula reads' divides (fun _ _ => rfl) uncalled
      (fun _ _ next found => ?_) (by rw [alternation.rest_formula]) bound
    simp [stop] at found
  have readFirst := reads alternation.first mem_cons_self
  obtain ⟨solid, _, _⟩ := solid_of_literal? readFirst
  have start : trimLeft (alternation.tokens ++ more) =
      alternation.first :: (tokensBehind alternation.rest ++ more) := trimLeft_cons_of_solid solid _
  obtain ⟨_, read⟩ := statement_of_literal? start readFirst fun _ => headIs_tokensBehind alternation.rest uncalled
  rw [read, climbed]
  simp only [climb_of_none stop]
  cases alternation.formula.evaluate value <;> rfl

end Environment

/-- A constant of one token that means the same in all scopes: a number, a hash, or a name without holes. -/
def Token.IsConstant (token : Token) : Prop :=
  token.kind.isNumeric = true ∨ token.kind = .hash ∨ token.kind = .identifier ∧ ¬Text.Marked token.text

theorem Token.IsConstant.literal? {token : Token} (constant : token.IsConstant) (env : Environment) (grouped : Bool) :
    env.literal? grouped token = .ok (some token.value) := by
  rcases constant with numeric | hash | ⟨name, unmarked⟩
  · refine Environment.literal?_of_unmarked (by simp [Kind.isLiteral, numeric]) fun filled => ?_
    rw [Kind.isFilled_of_isNumeric numeric] at filled
    cases filled
  · refine Environment.literal?_of_unmarked (by rw [hash]; rfl) fun filled => ?_
    rw [hash] at filled
    cases filled
  · exact Environment.literal?_of_unmarked (by rw [name]; rfl) fun _ => unmarked

/-- Nothing but blanks is left, or a parenthesis closes behind blanks. -/
def Tokens.Ends (tokens : Tokens) : Prop := tokens.trimLeft = [] ∨ tokens.trimLeft.headIs .parenClose = true

theorem Tokens.Ends.operator? {tokens : Tokens} (ends : tokens.Ends) : tokens.operator? = none := by
  rcases ends with nothing | closes
  · exact operator?_of_nil nothing
  · cases start : tokens.trimLeft with
    | nil => exact operator?_of_nil start
    | cons token rest =>
      rw [start] at closes
      have kind : token.kind = .parenClose := by simpa [headIs, headKind?] using closes
      exact operator?_of_kind start (by rw [kind]; decide)

theorem Tokens.Ends.uncalled {tokens : Tokens} (ends : tokens.Ends) : tokens.headIs .parenOpen = false := by
  cases tokens with
  | nil => rfl
  | cons token rest =>
    refine Bool.eq_false_iff.mpr fun opens => ?_
    have kind : token.kind = .parenOpen := by simpa [headIs, headKind?] using opens
    have start := trimLeft_cons_of_solid (show token.isBlank = false by rw [Token.isBlank, kind]; rfl) rest
    rw [Tokens.Ends, start] at ends
    simp [headIs, headKind?, kind] at ends

namespace Scope

/-- Inside parentheses, constants with operators between them are read up to the end. What is computed,
or the error, is that of the only formula which groups them by precedence and to the left. -/
theorem operators_bind_by_precedence (library : Library) (scope : Scope) {alternation : Alternation}
    (constants : ∀ token ∈ alternation.operands, token.IsConstant) {rest : Tokens} (ends : rest.Ends)
    {processor : Processor} (inside : processor.parens ≠ 0) :
    ∃ formula : Formula, (∀ other : Formula, other.WellGrouped ∧ other.alternation = alternation ↔ other = formula) ∧
      Processing.Keeps ((scope.setting library).statement (alternation.tokens ++ rest)) processor
        ((formula.evaluate Token.value).map fun value =>
          .found value rest (alternation.length_lt_tokens_append rest)) := by
  refine ⟨alternation.formula, alternation.wellGrouped_iff, ?_⟩
  have kept := (handles_setting library scope processor.evaluating).statement processor.parens (alternation.tokens ++ rest)
  have grouped : (processor.parens != 0) = true := bne_iff_ne.mpr inside
  rw [grouped, Environment.statement_alternation (fun token member => (constants token member).literal? _ true) (.inl rfl)
    ends.uncalled ends.operator?] at kept
  exact kept

def comparedSum : Alternation where
  first := .synthetic .number "2"
  rest := [(.spaced .add, .synthetic .number "3"),
    (.spaced .multiply, .synthetic .dimension "4px"),
    (.spaced .subtract, .synthetic .number "5"),
    (.spaced .subtract, .synthetic .number "1"),
    (.spaced .equals, .synthetic .number "8")]

def comparedSumTree : Formula :=
  let product : Formula := .node (.operand (.synthetic .number "3")) (.spaced .multiply) (.operand (.synthetic .dimension "4px"))
  let sum : Formula := .node (.operand (.synthetic .number "2")) (.spaced .add) product
  let less : Formula := .node sum (.spaced .subtract) (.operand (.synthetic .number "5"))
  let least : Formula := .node less (.spaced .subtract) (.operand (.synthetic .number "1"))
  .node least (.spaced .equals) (.operand (.synthetic .number "8"))

/-- The sum on the left is `8px` in no other grouping. -/
theorem comparedSum_bound : (∀ token ∈ comparedSum.operands, token.IsConstant) ∧
    (∀ other : Formula, other.WellGrouped ∧ other.alternation = comparedSum ↔ other = comparedSumTree) ∧
    Processing.Keeps ((Scope.setting .empty []).statement (comparedSum.tokens ++ [.synthetic .parenClose ")"])) ⟨1, []⟩
      ((comparedSumTree.evaluate Token.value).map fun value =>
        .found value [.synthetic .parenClose ")"] (comparedSum.length_lt_tokens_append _)) ∧
    (comparedSumTree.evaluate Token.value).toOption.any (fun value => value.css == "true") = true ∧
    ∃ sum joint last, comparedSumTree = .node sum joint last ∧
      (sum.evaluate Token.value).toOption.any (fun value => value.css == "8px") = true := by
  have constants : ∀ token ∈ comparedSum.operands, token.IsConstant := by
    intro token member
    refine .inl ?_
    revert token
    decide
  have ends : Tokens.Ends [.synthetic .parenClose ")"] := .inr rfl
  obtain ⟨formula, only, kept⟩ :=
    operators_bind_by_precedence .empty [] constants ends (show (⟨1, []⟩ : Processor).parens ≠ 0 by decide)
  have same : comparedSumTree = formula := by
    rw [show comparedSumTree = comparedSum.formula from rfl]
    exact (only _).mp ⟨comparedSum.wellGrouped_formula, comparedSum.alternation_formula⟩
  refine ⟨constants, same ▸ only, same ▸ kept, by decide +kernel, _, _, _, rfl, by decide +kernel⟩

end Scope

end LessCss
