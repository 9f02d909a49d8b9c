import Mathlib.Data.List.Chain
import LessCss.Function.Builtin
import LessCss.Proofs.Expression.Precedence

/-! Parentheses around an expression. Main statement: if numbers, and variables that hold
numbers, are computed to a single token, they are computed to the same in parentheses, as
long as no written number is divided by the next one right behind an operator that binds
less tightly. Outside parentheses such a slash waits for what stands on its left. -/

set_option autoImplicit false

namespace LessCss

open List Tokens

namespace Tokens

theorem balanced_of_flat {tokens : Tokens}
    (flat : ∀ token ∈ tokens, token.kind.opens = false ∧ token.kind.closes = false) : Balanced tokens := by
  induction tokens with
  | nil => exact .nil
  | cons token rest ih =>
    obtain ⟨⟨opens, closes⟩, others⟩ := forall_mem_cons.mp flat
    exact .token opens closes (ih others)

theorem headIs_append {tokens : Tokens} {kind : Kind} (headed : tokens.headIs kind = true) (more : Tokens) :
    headIs (tokens ++ more) kind = true := by
  cases tokens with
  | nil => cases headed
  | cons token rest => exact headed

theorem computes_append {library : Library} {tokens : Tokens} (some_ : tokens.computes library = true) (more : Tokens) :
    computes library (tokens ++ more) = true := by
  induction tokens with
  | nil => cases some_
  | cons token rest ih =>
    rw [computes, Bool.or_eq_true] at some_
    rw [cons_append, computes, Bool.or_eq_true]
    refine some_.imp (fun here => ?_) ih
    split at here
    · rfl
    · rw [Bool.and_eq_true] at here ⊢
      exact ⟨headIs_append here.1 more, here.2⟩
    · exact here
    · cases here

end Tokens

namespace Alternation

variable {alternation : Alternation}

theorem mem_tokens {token : Token} (member : token ∈ alternation.tokens) :
    token ∈ alternation.operands ∨ token.isBlank = true ∨ token.kind = .other := by
  rcases mem_cons.mp member with rfl | behind
  · exact .inl mem_cons_self
  obtain ⟨⟨joint, operand⟩, item, inside⟩ := mem_flatMap.mp behind
  rcases mem_append.mp inside with inJoint | same
  · rcases mem_append.mp inJoint with before | after
    · exact .inr (.inl (joint.blankBefore token before))
    rw [← cons_append] at after
    rcases mem_append.mp after with mark | after
    · exact .inr (.inr (joint.marks token mark))
    · exact .inr (.inl (joint.blankAfter token after))
  · cases mem_singleton.mp same
    exact .inl (mem_cons_of_mem _ (mem_map.mpr ⟨_, item, rfl⟩))

end Alternation

/-- The operand of the first one is not a written number that the second one divides by another
written number, or the first one binds no less tightly. -/
def Joint.Undivided (first second : Joint × Token) : Prop :=
  ¬(first.1.op.precedence < second.1.op.precedence ∧ second.1.op = .divide ∧
    first.2.kind.isNumeric = true ∧ second.2.kind.isNumeric = true)

/-- If a written number is divided by another one, then only at the very front. -/
theorem Formula.WellGrouped.slash_in_front {formula : Formula} (grouped : formula.WellGrouped)
    (undivided : formula.rest.IsChain Joint.Undivided) (slash : formula.HasLiteralSlash) :
    ∃ joint next items, formula.rest = (joint, next) :: items ∧ joint.op = .divide ∧
      formula.first.kind.isNumeric = true ∧ next.kind.isNumeric = true := by
  induction formula with
  | operand token => cases slash
  | node left joint right ihLeft ihRight =>
    have tighter := grouped.precedence_lt
    obtain ⟨leftGrouped, rightGrouped, _, _⟩ := grouped
    rw [Formula.rest] at undivided
    rcases slash with inLeft | inRight | ⟨divide, literal, numeric⟩
    · obtain ⟨front, next, items, same, isSlash⟩ := ihLeft leftGrouped undivided.left_of_append inLeft
      exact ⟨front, next, _, by rw [Formula.rest, same, cons_append], isSlash⟩
    · have behind := undivided.right_of_append
      obtain ⟨front, next, items, same, divide, numeric, numeric'⟩ := ihRight rightGrouped behind.tail inRight
      -- The front of the right formula stands right behind `joint`, which binds less tightly.
      rw [same] at behind tighter
      exact absurd ⟨tighter _ mem_cons_self, divide, numeric, numeric'⟩ (isChain_cons_cons.mp behind).1
    · cases left with
      | operand token => exact ⟨joint, right.first, right.rest, rfl, divide, literal, numeric⟩
      | node => cases literal

namespace Environment

variable {env : Environment} {grouped : Bool} {value : Token → Value} {alternation : Alternation} {last : Option Kind}

theorem statement_of_alternation {tokens more : Tokens} (spelled : tokens = alternation.tokens ++ more)
    (reads : ∀ token ∈ alternation.operands, env.literal? grouped token = .ok (some (value token)))
    (divides : grouped = true ∨ ¬alternation.formula.HasLiteralSlash) (ends : more.Ends) :
    ∃ shorter, env.statement grouped tokens =
      (alternation.formula.evaluate value).map fun result => .found result more shorter := by
  subst spelled
  exact ⟨_, statement_alternation reads divides ends.uncalled ends.operator?⟩

theorem trimLeft_alternation
    (reads : ∀ token ∈ alternation.operands, env.literal? grouped token = .ok (some (value token))) :
    alternation.tokens.trimLeft = alternation.tokens :=
  trimLeft_cons_of_solid (solid_of_literal? (reads alternation.first mem_cons_self)).1 _

/-- An expression that is the whole value is written as one token. -/
theorem evaluateItems_alternation
    (reads : ∀ token ∈ alternation.operands, env.literal? grouped token = .ok (some (value token)))
    (divides : grouped = true ∨ ¬alternation.formula.HasLiteralSlash) :
    env.evaluateItems grouped last alternation.tokens =
      (alternation.formula.evaluate value).map fun result => [result.toToken alternation.first] := by
  have solid := (solid_of_literal? (reads alternation.first mem_cons_self)).1
  obtain ⟨_, read⟩ := statement_of_alternation (append_nil _).symm reads divides (.inl rfl)
  cases outcome : alternation.formula.evaluate value with
  | error error =>
    rw [outcome] at read
    exact evaluateItems_of_error (trimLeft_alternation reads) read
  | ok result =>
    rw [outcome] at read
    rw [evaluateItems_of_found (trimLeft_alternation reads) read, evaluateItems_of_nil rfl, Alternation.tokens,
      gap_of_solid solid]
    rfl

/-- The same in parentheses, where every slash divides. -/
theorem evaluateItems_parenthesized
    (reads : ∀ token ∈ alternation.operands, env.literal? true token = .ok (some (value token)))
    {opening closing : Token} (opens : opening.kind = .parenOpen) (closes : closing.kind = .parenClose) {result : Value}
    (computed : alternation.formula.evaluate value = .ok result) :
    env.evaluateItems grouped last (opening :: (alternation.tokens ++ [closing])) = .ok [result.toToken opening] := by
  have solid : opening.isBlank = false := by rw [Token.isBlank, opens]; rfl
  have solid' : closing.isBlank = false := by rw [Token.isBlank, closes]; rfl
  -- No operand is a parenthesis, so the group ends behind the expression.
  have flat : ∀ token ∈ alternation.tokens, token.kind.opens = false ∧ token.kind.closes = false := by
    intro token member
    rcases Alternation.mem_tokens member with operand | blank | mark
    · rcases kind_of_literal? (reads token operand) with literal | reference
      · revert literal
        cases token.kind <;> simp [Kind.isLiteral, Kind.isNumeric, Kind.isFilled, Kind.opens, Kind.closes]
      · rw [reference]
        exact ⟨rfl, rfl⟩
    · revert blank
      rw [Token.isBlank]
      cases token.kind <;> simp [Kind.isBlank, Kind.opens, Kind.closes]
    · rw [mark]
      exact ⟨rfl, rfl⟩
  have closed : (takeGroup? 0 (alternation.tokens ++ [closing])).isSome = true := by
    rw [(balanced_of_flat flat).takeGroup?_close closes]
    rfl
  have trimmed : trimLeft [closing] = [closing] := trimLeft_cons_of_solid solid' []
  have ends : Tokens.Ends [closing] := .inr (by simp [trimmed, headIs, headKind?, closes])
  obtain ⟨_, inside⟩ := statement_of_alternation rfl reads (.inl rfl) ends
  rw [computed] at inside
  obtain ⟨_, read⟩ := constant_of_group opens closed inside trimmed closes
  have start := trimLeft_cons_of_solid solid (alternation.tokens ++ [closing])
  obtain ⟨_, statement⟩ := statement_of_constant start read
  rw [climb_of_none (operator?_of_nil rfl)] at statement
  rw [evaluateItems_of_found start statement, gap_of_solid solid]
  change (env.evaluateItems grouped _ []).map _ = _
  rw [evaluateItems_of_nil rfl]
  rfl

/-- A written number that is divided by another one at the very front is written with the slash behind it. -/
theorem two_le_of_slash_in_front
    (reads : ∀ token ∈ alternation.operands, env.literal? false token = .ok (some (value token)))
    {joint : Joint} {next : Token} {items : List (Joint × Token)} (items_ : alternation.rest = (joint, next) :: items)
    (divide : joint.op = .divide) (numeric : alternation.first.kind.isNumeric = true)
    (numeric' : next.kind.isNumeric = true) :
    Returns (env.evaluateItems false last alternation.tokens) fun written => 2 ≤ written.length := by
  have readNext := reads next (mem_cons_of_mem _ (by simp [items_]))
  obtain ⟨solid, other, _⟩ := solid_of_literal? readNext
  obtain ⟨_, found⟩ := joint.operator?_tokens (Joint.tokensBehind items) solid other
  have start : alternation.tokens.trimLeft =
      alternation.first :: (joint.tokens ++ next :: Joint.tokensBehind items) := by
    rw [trimLeft_alternation reads, Alternation.tokens, items_, Joint.tokensBehind_cons]
  obtain ⟨_, read⟩ := statement_of_slash (trimLeft_cons_of_solid
    (solid_of_literal? (reads alternation.first mem_cons_self)).1 _) (reads alternation.first mem_cons_self)
    numeric found divide numeric'
  have slash : joint.mark.text = "/" := by
    have spelled := joint.spelled
    rw [divide] at spelled
    exact (List.cons.inj (mem_singleton.mp spelled)).1
  -- The statement ends before the slash, so the slash is written by itself behind the first number.
  have behind : Returns (env.evaluateItems false (some (value alternation.first).tokenKind)
      (joint.tokens ++ next :: Joint.tokensBehind items)) fun written => 1 ≤ written.length := by
    have kind : joint.mark.kind = .other := joint.marks _ mem_cons_self
    rw [evaluateItems_of_plain (joint.trimLeft_tokens _) (by rw [kind]; rfl) fun _ => by rw [slash]; decide]
    exact (returns_any _).map fun written _ => by simp only [length_append, length_cons]; omega
  rw [evaluateItems_of_found start read]
  exact behind.map fun written some_ => by simp only [length_append, length_cons]; omega

/-- Parentheses change nothing where a single token is computed. -/
theorem evaluate_parenthesized (operates : alternation.rest ≠ [])
    (reads : ∀ grouped, ∀ token ∈ alternation.operands, env.literal? grouped token = .ok (some (value token)))
    (undivided : alternation.rest.IsChain Joint.Undivided) {token : Token}
    (computed : env.evaluate false alternation.tokens = .ok [token]) {opening closing : Token}
    (opens : opening.kind = .parenOpen) (closes : closing.kind = .parenClose) :
    env.evaluate false (opening :: (alternation.tokens ++ [closing])) = .ok [{ token with position := opening.position }] := by
  rw [evaluate] at computed
  split at computed
  · rename_i some_
    -- A slash between written numbers would be the first operator, and then more than one token is written.
    have free : ¬alternation.formula.HasLiteralSlash := by
      intro slash
      have undivided' : alternation.formula.rest.IsChain Joint.Undivided := by rwa [alternation.rest_formula]
      obtain ⟨joint, next, items, items_, divide, numeric, numeric'⟩ :=
        alternation.wellGrouped_formula.slash_in_front undivided' slash
      rw [alternation.rest_formula] at items_
      rw [alternation.first_formula] at numeric
      have long := two_le_of_slash_in_front (reads false) items_ divide numeric numeric' _ computed
      simp at long
    rw [evaluateItems_alternation (reads false) (.inr free)] at computed
    cases outcome : alternation.formula.evaluate value with
    | error error =>
      rw [outcome] at computed
      cases computed
    | ok result =>
      rw [outcome] at computed
      cases computed
      have more : computes env.library (opening :: (alternation.tokens ++ [closing])) = true := by
        rw [computes, computes_append some_, Bool.or_true]
      rw [evaluate, if_pos more, evaluateItems_parenthesized (reads true) opens closes outcome]
      rfl
  · -- Without anything to compute all tokens stay, and there is more than one.
    have length := returns_mapM_length alternation.tokens _ computed
    cases items : alternation.rest with
    | nil => exact absurd items operates
    | cons item others =>
      rw [Alternation.tokens, items, Joint.tokensBehind_cons] at length
      simp at length

end Environment

namespace Scope

/-- A written number, or a variable that holds one and is not under evaluation. -/
def IsNumber (scope : Scope) (active : List String) (token : Token) : Prop :=
  token.kind.isNumeric = true ∨ token.kind = .atKeyword ∧ token.text ∉ active ∧
    ∃ before number after, scope.find? token.text = some (before ++ number :: after) ∧
      Tokens.Blank before ∧ number.kind.isNumeric = true ∧ Tokens.Blank after

/-- A number has the same value in parentheses and outside. -/
theorem IsNumber.literal? {scope : Scope} {active : List String} {token : Token} (number : scope.IsNumber active token)
    (library : Library) : ∃ value, ∀ grouped,
      Environment.literal? ⟨library, scope.definition? library active⟩ grouped token = .ok (some value) := by
  rcases number with numeric | ⟨reference, idle, before, number, after, found, blank, numeric, blank'⟩
  · exact ⟨_, fun grouped => Token.IsConstant.literal? (.inl numeric) _ grouped⟩
  · have constant : number.IsConstant := .inl numeric
    have solid : number.isBlank = false := (Kind.solid_of_isLiteral (by simp [Kind.isLiteral, numeric])).1
    have start : trimLeft (before ++ number :: after) = number :: after := by
      rw [trimLeft_append_of_blank blank, trimLeft_cons_of_solid solid]
    have nothing : trimLeft after = [] := trimLeft_of_blank blank'
    have ends : Tokens.Ends after := .inl nothing
    -- The definition holds the number and blanks, and is itself evaluated with the reference as active.
    have lookup : Environment.lookup? ⟨library, scope.definition? library active⟩ token.text = some
        (.ofTokens ⟨library, scope.definition? library (token.text :: active)⟩ (before ++ number :: after)) := by
      refine (definition?_found found).trans ?_
      rw [if_neg idle]
    refine ⟨number.value, fun grouped => ?_⟩
    rw [Environment.literal?, reference]
    dsimp only
    rw [Environment.valueOf?, lookup]
    obtain ⟨_, read⟩ := Environment.statement_of_literal? start
      (constant.literal? ⟨library, scope.definition? library (token.text :: active)⟩ grouped) fun _ => ends.uncalled
    rw [Environment.climb_of_none ends.operator?] at read
    change Environment.evaluateSingle _ grouped (before ++ number :: after) = _
    rw [Environment.evaluateSingle, read]
    change Except.ok (if (trimLeft after).isEmpty then some number.value else none) = _
    rw [nothing]
    rfl

def numberAt (library : Library) (scope : Scope) (active : List String) (token : Token) : Value :=
  ((Environment.literal? ⟨library, scope.definition? library active⟩ true token).toOption.join).getD (.keyword token.text)

theorem IsNumber.literal?_numberAt {scope : Scope} {active : List String} {token : Token}
    (number : scope.IsNumber active token) (library : Library) (grouped : Bool) :
    Environment.literal? ⟨library, scope.definition? library active⟩ grouped token =
      .ok (some (scope.numberAt library active token)) := by
  obtain ⟨value, read⟩ := number.literal? library
  rw [numberAt, read, read]
  rfl

/-- Outside parentheses, an expression of numbers that is computed to a single token is computed to the
same token with parentheses around it, unless a written number is divided by the next one right behind
an operator that binds less tightly. -/
theorem parentheses_keep_value (library : Library) (scope : Scope) {alternation : Alternation}
    (operates : alternation.rest ≠ []) {processor : Processor} (outside : processor.parens = 0)
    (numbers : ∀ token ∈ alternation.operands, scope.IsNumber processor.evaluating token)
    (undivided : alternation.rest.IsChain Joint.Undivided) {token : Token}
    (computed : Processing.Keeps ((scope.setting library).value alternation.tokens) processor (.ok [token]))
    {opening closing : Token} (opens : opening.kind = .parenOpen) (closes : closing.kind = .parenClose) :
    Processing.Keeps ((scope.setting library).value (opening :: (alternation.tokens ++ [closing]))) processor
      (.ok [{ token with position := opening.position }]) := by
  have handles := handles_setting library scope processor.evaluating
  have grouped : (processor.parens != 0) = false := by simp [outside]
  have bare := handles.value processor.parens alternation.tokens
  have around := handles.value processor.parens (opening :: (alternation.tokens ++ [closing]))
  rw [grouped] at bare around
  have computed' : Environment.evaluate _ false alternation.tokens = .ok [token] := bare.unique computed
  rw [Environment.evaluate_parenthesized operates (fun grouped token member =>
    (numbers token member).literal?_numberAt library grouped) undivided computed' opens closes] at around
  exact around

def padded : Scope := [⟨[("@w", [.space, .synthetic .number "2", .space])]⟩]

def scaledSum : Alternation where
  first := .synthetic .atKeyword "@w"
  rest := [(.spaced .add, .synthetic .number "4"),
    (.spaced .multiply, .synthetic .dimension "3px"),
    (.spaced .divide, .synthetic .number "2"),
    (.spaced .subtract, .synthetic .number "1")]

theorem scaledSum_parenthesized : (∀ token ∈ scaledSum.operands, padded.IsNumber [] token) ∧
    scaledSum.rest.IsChain Joint.Undivided ∧ ∃ token,
      Processing.Keeps ((padded.setting .builtin).value scaledSum.tokens) .fresh (.ok [token]) ∧ token.text = "7px" ∧
      Processing.Keeps ((padded.setting .builtin).value
        (.synthetic .parenOpen "(" :: (scaledSum.tokens ++ [.synthetic .parenClose ")"]))) .fresh (.ok [token]) := by
  have variable_ : padded.IsNumber [] (.synthetic .atKeyword "@w") :=
    .inr ⟨rfl, not_mem_nil, [.space], .synthetic .number "2", [.space], rfl, Joint.blank_space, rfl, Joint.blank_space⟩
  have numbers : ∀ token ∈ scaledSum.operands, padded.IsNumber [] token :=
    forall_mem_cons.mpr ⟨variable_, forall_mem_cons.mpr ⟨.inl rfl, forall_mem_cons.mpr ⟨.inl rfl,
      forall_mem_cons.mpr ⟨.inl rfl, forall_mem_singleton.mpr (.inl rfl)⟩⟩⟩⟩
  have undivided : scaledSum.rest.IsChain Joint.Undivided := by
    simp [scaledSum, Joint.Undivided, Joint.spaced, Operator.precedence]
  have keeps : Processing.Keeps ((padded.setting .builtin).value scaledSum.tokens) .fresh
      (.ok [.synthetic .dimension "7px"]) :=
    keeps_value_of_run .builtin padded (by decide +kernel)
  exact ⟨numbers, undivided, _, keeps, rfl,
    parentheses_keep_value .builtin padded (cons_ne_nil _ _) rfl numbers undivided keeps rfl rfl⟩

def dividedSum : Alternation where
  first := .synthetic .number "1"
  rest := [(.spaced .add, .synthetic .number "4"),
    (.spaced .divide, .synthetic .number "2")]

/-- Outside parentheses the whole sum is divided, inside only the written number. -/
theorem dividedSum_told_apart :
    Processing.Keeps ((Scope.setting .builtin []).value dividedSum.tokens) .fresh (.ok [.synthetic .number "2.5"]) ∧
    Processing.Keeps ((Scope.setting .builtin []).value
      (.synthetic .parenOpen "(" :: (dividedSum.tokens ++ [.synthetic .parenClose ")"]))) .fresh
        (.ok [.synthetic .number "3"]) :=
  ⟨keeps_value_of_run .builtin [] (by decide +kernel), keeps_value_of_run .builtin [] (by decide +kernel)⟩

end Scope

end LessCss
