import LessCss.Expression.Scope
import LessCss.Proofs.Expression.Holes
import LessCss.Proofs.Spacing.Tokens

/-! Expressions in tokens that differ in their places and in how blanks are cut. Main
statement: the readers find the same value on both sides and leave such tokens again,
or they fail on both sides. -/

set_option autoImplicit false

namespace LessCss

open List Reading

/-! ### Outcomes -/

inductive Agree {α β : Type} (R : α → β → Prop) : Except Error α → Except Error β → Prop where
  | ok {first : α} {second : β} (same : R first second) : Agree R (.ok first) (.ok second)
  | error (first second : Error) : Agree R (.error first) (.error second)

namespace Agree

variable {α β γ δ : Type} {R : α → β → Prop} {S : γ → δ → Prop}

theorem bind {first : Except Error α} {second : Except Error β} {next : α → Except Error γ}
    {next' : β → Except Error δ} (agree : Agree R first second)
    (step : ∀ a b, R a b → Agree S (next a) (next' b)) : Agree S (first >>= next) (second >>= next') := by
  cases agree with
  | ok same => exact step _ _ same
  | error => exact .error _ _

theorem map {first : Except Error α} {second : Except Error β} {change : α → γ} {change' : β → δ}
    (agree : Agree R first second) (step : ∀ a b, R a b → S (change a) (change' b)) :
    Agree S (first.map change) (second.map change') := by
  cases agree with
  | ok same => exact .ok (step _ _ same)
  | error => exact .error _ _

theorem ite {c : Prop} [Decidable c] {first first' : Except Error α} {second second' : Except Error β}
    (holds : c → Agree R first second) (fails : ¬ c → Agree R first' second') :
    Agree R (if c then first else first') (if c then second else second') := by
  split
  · exact holds (by assumption)
  · exact fails (by assumption)

theorem mapM {f : α → Except Error γ} {g : β → Except Error δ} {list : List α} {list' : List β}
    (same : List.Forall₂ R list list') (step : ∀ a b, R a b → Agree S (f a) (g b)) :
    Agree (List.Forall₂ S) (list.mapM f) (list'.mapM g) := by
  induction same with
  | nil => exact .ok .nil
  | cons first _ ih =>
    rw [mapM_cons, mapM_cons]
    refine (step _ _ first).bind fun a b same => ih.bind fun rest rest' others => ?_
    exact .ok (.cons same others)

end Agree

/-! ### Texts without holes -/

namespace Environment

variable (env : Environment) (grouped : Bool)

theorem interpolateToken_of_plain {token : Token} (plain : '@' ∉ token.text.toList) :
    env.interpolateToken grouped token = .ok token :=
  env.interpolateToken_of_unmarked grouped fun marked => plain marked.at_mem

theorem interpolateToken_of_gap {token : Token} (gap : token.Gap) :
    env.interpolateToken grouped token = .ok token := by
  refine env.interpolateToken_of_plain grouped fun member => ?_
  have blank := gap.blank _ member
  rw [show Text.isBlank '@' = false from by decide +kernel] at blank
  cases blank

end Environment

/-! ### Environments -/

structure Definition.Respaced (strict : Bool) (first second : Definition) : Prop where
  value (grouped : Bool) (at_ at_' : Token) : Agree Eq (first.value? grouped at_) (second.value? grouped at_')
  tokens (grouped : Bool) (at_ at_' : Token) :
    Agree (Tokens.Respaced strict) (first.tokens grouped at_) (second.tokens grouped at_')

structure Environment.Respaced (strict : Bool) (env env' : Environment) : Prop where
  library : env'.library = env.library
  lookup (name : String) : Option.Rel (Definition.Respaced strict) (env.lookup? name) (env'.lookup? name)

/-- A single string fills a hole without its quotes on both sides. -/
theorem Tokens.Respaced.holeText {strict : Bool} {tokens others : Tokens} (respaced : Respaced strict tokens others) :
    Environment.holeText others = Environment.holeText tokens := by
  have gap_text {first : Token} (gap : first.Gap) (rest : Tokens) :
      Environment.holeText (first :: rest) = Tokens.text (first :: rest) := by
    cases rest with
    | nil =>
      have kind : first.kind ≠ .string := by simp [gap.kind]
      rw [Environment.holeText, if_neg kind]
      simp [Tokens.text]
    | cons _ _ => rfl
  have same := respaced.text
  rcases respaced.cases_head with ⟨rfl, rfl⟩ | ⟨_, _, rest, rest', rfl, rfl, twin, more⟩ |
    ⟨_, _, _, _, rfl, rfl, gap, gap'⟩
  · rfl
  · have empty := more.nil_iff
    cases rest with
    | nil =>
      rw [empty.mp rfl, Environment.holeText, Environment.holeText, twin.kind, twin.text]
    | cons _ _ =>
      cases rest' with
      | nil => cases empty.mpr rfl
      | cons _ _ => exact same
  · rw [gap_text gap, gap_text gap', same]

namespace Environment.Respaced

variable {strict : Bool} {env env' : Environment} {token token' : Token}

section

variable (related : Respaced strict env env')

include related

theorem lookup_cases (name : String) :
    (env.lookup? name = none ∧ env'.lookup? name = none) ∨
      ∃ definition definition', env.lookup? name = some definition ∧ env'.lookup? name = some definition' ∧
        definition.Respaced strict definition' := by
  have found := related.lookup name
  generalize env.lookup? name = definition? at found ⊢
  generalize env'.lookup? name = definition?' at found ⊢
  cases found with
  | none => exact .inl ⟨rfl, rfl⟩
  | some same => exact .inr ⟨_, _, rfl, rfl, same⟩

section

variable (grouped : Bool)

include grouped

theorem valueOf (name : String) (at_ at_' : Token) :
    Agree Eq (env.valueOf? grouped name at_) (env'.valueOf? grouped name at_') := by
  rw [Environment.valueOf?, Environment.valueOf?]
  rcases related.lookup_cases name with ⟨absent, absent'⟩ | ⟨definition, definition', found, found', same⟩
  · rw [absent, absent']
    exact .error _ _
  · rw [found, found']
    exact same.value grouped at_ at_'

theorem resolve (twin : token.Twin token') :
    Agree (Tokens.Respaced strict) (env.resolve grouped token) (env'.resolve grouped token') := by
  rw [Environment.resolve, Environment.resolve, twin.text]
  rcases related.lookup_cases token.text with ⟨absent, absent'⟩ | ⟨definition, definition', found, found', same⟩
  · rw [absent, absent']
    exact .error _ _
  · rw [found, found']
    exact same.tokens grouped token token'

theorem piece (at_ at_' : Token) (piece : Text.Piece) :
    Agree Eq (env.pieceText grouped at_ piece) (env'.pieceText grouped at_' piece) := by
  cases piece with
  | char c => exact .ok rfl
  | hole name =>
    rw [Environment.pieceText, Environment.pieceText]
    rcases related.lookup_cases ("@" ++ name) with ⟨absent, absent'⟩ | ⟨definition, definition', found, found', same⟩
    · rw [absent, absent']
      exact .error _ _
    · rw [found, found']
      exact (same.tokens grouped at_ at_').map fun _ _ respaced => respaced.holeText.symm

theorem interpolate (at_ at_' : Token) (text : String) :
    Agree Eq (env.interpolate grouped at_ text) (env'.interpolate grouped at_' text) := by
  have pieces : List.Forall₂ Eq (Text.pieces text.toList) (Text.pieces text.toList) := forall₂_same.mpr fun _ _ => rfl
  rw [Environment.interpolate, Environment.interpolate]
  have texts : Agree (List.Forall₂ Eq) ((Text.pieces text.toList).mapM (env.pieceText grouped at_))
      ((Text.pieces text.toList).mapM (env'.pieceText grouped at_')) := by
    refine Agree.mapM pieces ?_
    rintro piece _ rfl
    exact related.piece grouped at_ at_' piece
  refine texts.bind fun texts texts' same => ?_
  rw [forall₂_eq_eq_eq] at same
  rw [same]
  exact .ok rfl

theorem interpolateToken (twin : token.Twin token') :
    Agree Token.Twin (env.interpolateToken grouped token) (env'.interpolateToken grouped token') := by
  rw [Environment.interpolateToken, Environment.interpolateToken, twin.text]
  refine (related.interpolate grouped token token' token.text).bind fun text text' same => ?_
  exact .ok ⟨twin.kind, same.symm, twin.solid⟩

theorem literal (twin : token.Twin token') :
    Agree Eq (env.literal? grouped token) (env'.literal? grouped token') := by
  have filled := related.interpolate grouped token token' token.text
  rw [Environment.literal?, Environment.literal?, twin.kind, twin.text]
  cases token.kind with
  | string => exact filled.map fun _ _ same => congrArg _ same
  | url => exact filled.map fun _ _ same => congrArg _ same
  | identifier => exact filled.map fun _ _ same => congrArg _ same
  | atKeyword => exact related.valueOf grouped token.text token token'
  | _ => exact .ok rfl

theorem indirect (twin : token.Twin token') :
    Agree Eq (env.indirect? grouped token) (env'.indirect? grouped token') := by
  rw [Environment.indirect?, Environment.indirect?]
  refine (related.resolve grouped twin).bind fun name name' same => ?_
  rw [same.text]
  exact related.valueOf grouped _ token token'

theorem escaped (twin : token.Twin token') :
    Agree Eq (env.escaped grouped token) (env'.escaped grouped token') := by
  rw [Environment.escaped, Environment.escaped, twin.text]
  exact (related.interpolate grouped token token' token.text).map fun _ _ same => by rw [same]

end

end

end Environment.Respaced

/-! ### Readings -/

/-- The same value and respaced tokens after it, or no value and respaced tokens that still
begin with the token that they began with. -/
inductive Reading.Respaced (strict : Bool) (first? : Option Token) {n m : Nat} : Reading n → Reading m → Prop where
  | found (value : Value) {rest rest' : Tokens} {shorter : rest.length < n} {shorter' : rest'.length < m}
      (same : Tokens.Respaced strict rest rest') :
      Respaced strict first? (.found value rest shorter) (.found value rest' shorter')
  | absent {rest rest' : Tokens} {bounded : rest.length ≤ n} {bounded' : rest'.length ≤ m}
      (same : Tokens.Respaced strict rest rest') (start : rest.head? = first?) :
      Respaced strict first? (.absent rest bounded) (.absent rest' bounded')

structure Upto.Respaced (strict : Bool) {α β : Type} (R : α → β → Prop) {n m : Nat} (first : Upto n α)
    (second : Upto m β) : Prop where
  result : R first.result second.result
  rest : Tokens.Respaced strict first.rest second.rest

structure OperatorAt.Respaced (strict : Bool) {n m : Nat} (first : OperatorAt n) (second : OperatorAt m) : Prop where
  op : second.op = first.op
  mark : first.mark.Twin second.mark
  rest : Tokens.Respaced strict first.rest second.rest

namespace Tokens

variable {strict : Bool} {tokens others : Tokens}

theorem Respaced.startsNumeric (respaced : Respaced strict tokens others) :
    others.startsNumeric = tokens.startsNumeric := by
  unfold Tokens.startsNumeric
  rcases respaced.cases_head with ⟨rfl, rfl⟩ | ⟨_, _, _, _, rfl, rfl, twin, _⟩ | ⟨_, _, _, _, rfl, rfl, gap, gap'⟩
  · rfl
  · rw [List.head?_cons, List.head?_cons, Option.any_some, Option.any_some, twin.kind]
  · rw [List.head?_cons, List.head?_cons, Option.any_some, Option.any_some, gap.kind, gap'.kind]

def operatorParts? : Tokens → Option (Operator × Token × Tokens)
  | [] => none
  | [mark] => if mark.kind = .other then (Operator.ofText? mark.text).map fun op => (op, mark, []) else none
  | mark :: next :: after =>
    if mark.kind = .other then
      if formsOperator mark next then
        (Operator.ofText? (mark.text ++ next.text)).map fun op => (op, mark, trimLeft after)
      else (Operator.ofText? mark.text).map fun op => (op, mark, trimLeft (next :: after))
    else none

theorem map_operator? (tokens : Tokens) :
    tokens.operator?.map (fun found => (found.op, found.mark, found.rest)) = operatorParts? (trimLeft tokens) := by
  unfold operator?
  split
  · rename_i start
    rw [start]
    rfl
  · rename_i mark rest start
    refine Eq.trans ?_ (congrArg operatorParts? start).symm
    dsimp only
    cases rest with
    | nil =>
      rw [operatorParts?]
      split
      · exact Option.map_map ..
      · rfl
    | cons next after =>
      rw [operatorParts?]
      split
      · dsimp only
        split
        · exact Option.map_map ..
        · exact Option.map_map ..
      · rfl

theorem formsOperator_twin {mark mark' next next' : Token} (first : mark.Twin mark') (second : next.Twin next') :
    formsOperator mark' next' = formsOperator mark next := by
  rw [formsOperator, formsOperator, first.text, second.text, second.kind]

theorem formsOperator_gap (mark : Token) {gap : Token} (blank : gap.Gap) : formsOperator mark gap = false := by
  rw [formsOperator, blank.kind]
  rfl

theorem Respaced.operator? (respaced : Respaced strict tokens others) :
    Option.Rel (OperatorAt.Respaced strict) tokens.operator? others.operator? := by
  have parts : Option.Rel (fun first second : Operator × Token × Tokens => second.1 = first.1 ∧
      first.2.1.Twin second.2.1 ∧ Respaced strict first.2.2 second.2.2)
      (operatorParts? (Tokens.trimLeft tokens)) (operatorParts? (Tokens.trimLeft others)) := by
    rcases respaced.trimLeft_cases with ⟨start, start'⟩ | ⟨mark, mark', rest, rest', start, start', twin, same⟩
    · rw [start, start']
      exact .none
    · have each (text : String) {after after' : Tokens} (following : Respaced strict after after') :
          Option.Rel (fun first second : Operator × Token × Tokens => second.1 = first.1 ∧
            first.2.1.Twin second.2.1 ∧ Respaced strict first.2.2 second.2.2)
            ((Operator.ofText? text).map fun op => (op, mark, Tokens.trimLeft after))
            ((Operator.ofText? text).map fun op => (op, mark', Tokens.trimLeft after')) := by
        cases Operator.ofText? text with
        | none => exact .none
        | some op => exact .some ⟨rfl, twin, following.trimLeft⟩
      rw [start, start']
      -- Two marks form an operator only if no blank stands between them, on both sides.
      rcases same.cases_head with ⟨rfl, rfl⟩ | ⟨next, next', after, after', rfl, rfl, twin', same'⟩ |
        ⟨next, next', after, after', rfl, rfl, gap, gap'⟩
      · rw [operatorParts?, operatorParts?, twin.kind, twin.text]
        split
        · exact each mark.text .nil
        · exact .none
      · rw [operatorParts?, operatorParts?, twin.kind, twin.text, twin'.text, formsOperator_twin twin twin']
        split
        · split
          · exact each _ same'
          · exact each _ same
        · exact .none
      · rw [operatorParts?, operatorParts?, twin.kind, twin.text, formsOperator_gap _ gap, formsOperator_gap _ gap']
        split
        · exact each _ same
        · exact .none
  rw [← map_operator?, ← map_operator?] at parts
  generalize tokens.operator? = first at parts ⊢
  generalize others.operator? = second at parts ⊢
  cases first <;> cases second <;> cases parts
  · exact .none
  · rename_i same
    exact .some ⟨same.1, same.2.1, same.2.2⟩

end Tokens

namespace Environment

variable {strict : Bool} {env env' : Environment}

/-! ### What a reader leaves if there is no value -/

theorem constant_of_gap (env : Environment) (grouped : Bool) {token : Token} (gap : token.Gap) (rest : Tokens) :
    env.constant grouped (token :: rest) = .ok (.unread (token :: rest)) := by
  have nothing : env.literal? grouped token = .ok none := by rw [literal?, gap.kind]
  rw [constant.eq_def]
  cases rest with
  | nil => simp [gap.isMark, gap.kind, nothing, Except.map, ofOption]
  | cons next after => simp [gap.isMark, gap.kind, nothing, Except.map, ofOption]

/-! ### The end of an argument -/

theorem argumentsAfter_of_nil (env : Environment) (at_ : Token) (read : List Value) {tokens : Tokens}
    (start : tokens.trimLeft = []) : env.argumentsAfter at_ read tokens = .error (unclosedCall at_) := by
  rw [argumentsAfter]
  split
  · rfl
  · rename_i found
    cases start.symm.trans found

theorem argumentsAfter_of_cons (env : Environment) (at_ : Token) (read : List Value) {tokens rest : Tokens}
    {token : Token} (start : tokens.trimLeft = token :: rest) :
    ∃ bound : rest.length ≤ tokens.length, env.argumentsAfter at_ read tokens =
      if token.text == "," || token.text == ";" then
        (env.arguments at_ rest).map fun after => ⟨read ++ after.result, after.rest, Nat.le_trans after.bounded bound⟩
      else if token.kind = .parenClose then .ok ⟨read, rest, bound⟩
      else .error (.unexpected token .closingParen) := by
  refine ⟨Nat.le_of_lt (tokens.length_lt_of_trimLeft start), ?_⟩
  rw [argumentsAfter]
  split
  · rename_i found
    cases start.symm.trans found
  · rename_i found
    cases start.symm.trans found
    cases env.arguments at_ rest <;> rfl

/-! ### Results that do not depend on places -/

theorem operate_agree (mark mark' : Token) (op : Operator) (lhs rhs : Value) :
    Agree Eq (operate mark op lhs rhs) (operate mark' op lhs rhs) := by
  rw [operate, operate]
  cases lhs.operate op rhs with
  | ok value => exact .ok rfl
  | error => exact .error _ _

theorem call_agree (library : Library) (name : String) (at_ at_' : Token) (arguments : List Value) :
    Agree Eq (library.call name at_ arguments) (library.call name at_' arguments) := by
  rw [Library.call, Library.call]
  cases library.find? name with
  | none => exact .error _ _
  | some function => exact Agree.ite (fun _ => .ok rfl) fun _ => .error _ _

end Environment

theorem Value.twin_toToken (value : Value) (at_ at_' : Token) : (value.toToken at_).Twin (value.toToken at_') := by
  refine ⟨rfl, rfl, ?_⟩
  show value.tokenKind.isBlank = false
  unfold tokenKind
  split
  · unfold Quantity.tokenKind
    split
    · rfl
    · split <;> rfl
  · rfl
  · rfl
  · unfold colorTokenKind
    split <;> split <;> rfl
  · rfl
  · rfl
  · rfl

/-- Some of the first tokens have a value on both sides, or they stay. -/
theorem Reading.respaced_ofOption {strict : Bool} (value? : Option Value) {first first' : Token}
    {more more' rest rest' : Tokens}
    (all : Tokens.Respaced strict (first :: (more ++ rest)) (first' :: (more' ++ rest')))
    (same : Tokens.Respaced strict rest rest') :
    Reading.Respaced strict (some first) (.ofOption value? first more rest) (.ofOption value? first' more' rest') := by
  cases value? with
  | none => exact .absent all rfl
  | some value => exact .found value same

namespace Environment.Respaced

variable {strict : Bool} {env env' : Environment}

-- The recursion is the one of the readers, over what is left to read on the first side.
mutual

theorem statement (related : Respaced strict env env') (grouped : Bool)
    {tokens others : Tokens} (respaced : Tokens.Respaced strict tokens others) :
    Agree (Reading.Respaced strict (Tokens.trimLeft tokens).head?) (env.statement grouped tokens)
      (env'.statement grouped others) := by
  have bound := Tokens.length_trimLeft_le tokens
  rw [Environment.statement, Environment.statement]
  refine (related.constant grouped respaced.trimLeft).bind fun reading reading' same => ?_
  cases same with
  | absent same start => exact .ok (.absent same start)
  | found value same =>
    rw [respaced.trimLeft.startsNumeric]
    refine (related.climb grouped none value _ same).bind fun last last' same => ?_
    obtain ⟨value, rest, _⟩ := last
    obtain ⟨value', rest', _⟩ := last'
    obtain ⟨rfl, same⟩ := same
    exact .ok (.found _ same)
termination_by 3 * tokens.length + 1
decreasing_by
  · omega
  · omega

theorem climb (related : Respaced strict env env') (grouped : Bool) (last : Option Operator) (lhs : Value)
    (literal : Bool) {tokens others : Tokens} (respaced : Tokens.Respaced strict tokens others) :
    Agree (Upto.Respaced strict Eq) (env.climb grouped last lhs literal tokens)
      (env'.climb grouped last lhs literal others) := by
  have ends : Upto.Respaced strict Eq (Upto.all lhs tokens) (Upto.all lhs others) := ⟨rfl, respaced⟩
  rw [Environment.climb, Environment.climb]
  have read := respaced.operator?
  generalize tokens.operator? = first at read ⊢
  generalize others.operator? = second at read ⊢
  cases read with
  | none => exact .ok ends
  | @some first second same =>
    obtain ⟨op, mark, after, shorter⟩ := first
    obtain ⟨op', mark', after', shorter'⟩ := second
    obtain ⟨equal, twin, same⟩ := same
    dsimp only at equal twin same
    subst equal
    dsimp only
    rw [same.startsNumeric]
    refine Agree.ite (fun _ => .ok ends) fun _ => ?_
    refine Agree.ite (fun _ => .ok ends) fun _ => ?_
    refine (related.constant grouped same).bind fun reading reading' read => ?_
    cases read with
    | absent => exact .error _ _
    | found rhs same =>
      refine (related.climb grouped (some _) rhs _ same).bind fun right right' same => ?_
      obtain ⟨rhs, rest, bounded⟩ := right
      obtain ⟨rhs', rest', bounded'⟩ := right'
      obtain ⟨rfl, same⟩ := same
      refine (operate_agree mark mark' _ lhs _).bind fun value value' equal => ?_
      subst equal
      refine (related.climb grouped last value false same).bind fun final final' same => ?_
      exact .ok ⟨same.result, same.rest⟩
termination_by 3 * tokens.length
decreasing_by
  · omega
  · omega
  · omega

theorem constant (related : Respaced strict env env') (grouped : Bool)
    {tokens others : Tokens} (respaced : Tokens.Respaced strict tokens others) :
    Agree (Reading.Respaced strict tokens.head?) (env.constant grouped tokens) (env'.constant grouped others) := by
  rcases respaced.cases_head with ⟨rfl, rfl⟩ | ⟨token, token', rest, rest', start, start', twin, same⟩ |
    ⟨token, token', rest, rest', rfl, rfl, gap, gap'⟩
  · rw [Environment.constant.eq_def, Environment.constant.eq_def]
    exact .ok (.absent .nil rfl)
  · have shorter : rest.length + 1 = tokens.length := by rw [start]; rfl
    rw [start, start'] at respaced ⊢
    rw [Environment.constant.eq_def, Environment.constant.eq_def]
    dsimp only
    rw [twin.kind, twin.isMark, related.library]
    refine Agree.ite (fun _ => related.group twin same) fun _ => ?_
    refine Agree.ite (fun _ => related.negation grouped twin same) fun _ => ?_
    have literal := related.literal grouped twin
    -- A gap behind the first token keeps it from being a call or a sign.
    rcases same.cases_head with ⟨rfl, rfl⟩ | ⟨next, next', after, after', rfl, rfl, twin', same'⟩ |
      ⟨next, next', after, after', rfl, rfl, gap, gap'⟩
    · exact literal.map fun value? _ equal => equal ▸ respaced_ofOption value? respaced .nil
    · have shorter' : after.length + 2 = tokens.length := shorter
      dsimp only
      rw [twin.isMark, twin.isMark, twin.isMark, twin'.kind, twin.text]
      refine Agree.ite (fun _ => ?_) fun _ => ?_
      · exact Agree.ite (fun _ => .ok (.absent respaced rfl)) fun _ => related.application twin same'
      refine Agree.ite (fun _ => ?_) fun _ => ?_
      · exact (related.indirect grouped twin').map fun value? _ equal =>
          equal ▸ respaced_ofOption value? respaced same'
      refine Agree.ite (fun _ => ?_) fun _ => ?_
      · exact (related.escaped grouped twin').map fun value _ equal =>
          equal ▸ respaced_ofOption (some value) respaced same'
      · exact literal.map fun value? _ equal => equal ▸ respaced_ofOption value? respaced same
    · simp only [gap.kind, gap'.kind]
      exact literal.map fun value? _ equal => equal ▸ respaced_ofOption value? respaced same
  · rw [constant_of_gap env grouped gap, constant_of_gap env' grouped gap']
    exact .ok (.absent respaced rfl)
termination_by 3 * tokens.length
decreasing_by all_goals omega

theorem group (related : Respaced strict env env') {opening opening' : Token} (twin : opening.Twin opening')
    {tokens others : Tokens} (respaced : Tokens.Respaced strict tokens others) :
    Agree (Reading.Respaced strict (some opening)) (env.group opening tokens) (env'.group opening' others) := by
  have closed : (others.takeGroup? 0).isNone = (tokens.takeGroup? 0).isNone := by
    rw [← Option.not_isSome, ← Option.not_isSome, isSome_of_rel (respaced.takeGroup? 0)]
  rw [Environment.group, Environment.group, closed]
  refine Agree.ite (fun _ => .error _ _) fun _ => ?_
  refine (related.statement true respaced).bind fun reading reading' same => ?_
  cases same with
  | absent same _ => exact .ok (.absent (.solid twin same) rfl)
  | found value same =>
    have trimmed := same.trimLeft
    dsimp only
    rw [trimmed.headIs]
    refine Agree.ite (fun _ => .ok (.found value same.tail_trimLeft)) fun _ => ?_
    exact .ok (.absent (.solid twin (.solid (value.twin_toToken opening opening') same)) rfl)
termination_by 3 * tokens.length + 2

theorem negation (related : Respaced strict env env') (grouped : Bool) {mark mark' : Token} (twin : mark.Twin mark')
    {tokens others : Tokens} (respaced : Tokens.Respaced strict tokens others) :
    Agree (Reading.Respaced strict (some mark)) (env.negation grouped mark tokens)
      (env'.negation grouped mark' others) := by
  rw [Environment.negation, Environment.negation]
  refine (related.constant grouped respaced).bind fun reading reading' same => ?_
  cases same with
  | absent same _ => exact .ok (.absent (.solid twin same) rfl)
  | found value same =>
    refine (operate_agree mark mark' .subtract (.number 0 "") value).bind fun result result' equal => ?_
    subst equal
    exact .ok (.found result same)
termination_by 3 * tokens.length + 1

theorem application (related : Respaced strict env env') {name name' opening opening' : Token}
    (twin : name.Twin name') {tokens others : Tokens}
    (respaced : Tokens.Respaced strict tokens others) :
    Agree (Reading.Respaced strict (some name)) (env.application name opening tokens)
      (env'.application name' opening' others) := by
  rw [Environment.application, Environment.application, related.library, twin.text]
  refine (related.arguments name name' respaced).bind fun read read' same => ?_
  obtain ⟨arguments, rest, _⟩ := read
  obtain ⟨arguments', rest', _⟩ := read'
  obtain ⟨rfl, same⟩ := same
  refine (call_agree env.library name.text name name' _).bind fun value value' equal => ?_
  subst equal
  exact .ok (.found value same)
termination_by 3 * tokens.length + 3

theorem arguments (related : Respaced strict env env') (at_ at_' : Token)
    {tokens others : Tokens} (respaced : Tokens.Respaced strict tokens others) :
    Agree (Upto.Respaced strict Eq) (env.arguments at_ tokens) (env'.arguments at_' others) := by
  rw [Environment.arguments, Environment.arguments]
  refine (related.statement true respaced).bind fun reading reading' same => ?_
  cases same with
  | found value same =>
    refine (related.argumentsAfter at_ at_' [value] same).bind fun after after' same => ?_
    exact .ok ⟨same.result, same.rest⟩
  | @absent rest rest' bounded bounded' same start =>
    rcases same.cases_head with ⟨rfl, rfl⟩ | ⟨token, token', rest, rest', rfl, rfl, twin, after⟩ |
      ⟨token, _, _, _, rfl, _, gap, _⟩
    · exact .error _ _
    · have within : rest.length + 1 ≤ tokens.length := bounded
      dsimp only
      rw [twin.kind, twin.text]
      refine Agree.ite (fun _ => ?_) fun _ => ?_
      · refine (related.argumentsAfter at_ at_' [] same).bind fun after after' same => ?_
        exact .ok ⟨same.result, same.rest⟩
      · refine (related.argumentsAfter at_ at_' [.keyword token.text] after).bind fun after after' same => ?_
        exact .ok ⟨same.result, same.rest⟩
    · -- A statement begins behind the blanks, so what it leaves does not begin with one.
      have solid := Tokens.Respaced.solid_of_trimLeft start.symm
      rw [gap.isBlank] at solid
      cases solid
termination_by 3 * tokens.length + 2
decreasing_by
  · omega
  · omega
  · rw [length_cons]
    omega
  · omega

theorem argumentsAfter (related : Respaced strict env env') (at_ at_' : Token) (read : List Value)
    {tokens others : Tokens} (respaced : Tokens.Respaced strict tokens others) :
    Agree (Upto.Respaced strict Eq) (env.argumentsAfter at_ read tokens) (env'.argumentsAfter at_' read others) := by
  rcases respaced.trimLeft_cases with ⟨start, start'⟩ | ⟨token, token', rest, rest', start, start', twin, same⟩
  · rw [argumentsAfter_of_nil env at_ read start, argumentsAfter_of_nil env' at_' read start']
    exact .error _ _
  · have shorter := tokens.length_lt_of_trimLeft start
    obtain ⟨_, read_eq⟩ := argumentsAfter_of_cons env at_ read start
    obtain ⟨_, read_eq'⟩ := argumentsAfter_of_cons env' at_' read start'
    rw [read_eq, read_eq', twin.kind, twin.text]
    refine Agree.ite (fun _ => ?_) fun _ => ?_
    · exact (related.arguments at_ at_' same).map fun after after' same => ⟨congrArg _ same.result, same.rest⟩
    · exact Agree.ite (fun _ => .ok ⟨rfl, same⟩) fun _ => .error _ _
termination_by 3 * tokens.length + 1

end

end Environment.Respaced

end LessCss
