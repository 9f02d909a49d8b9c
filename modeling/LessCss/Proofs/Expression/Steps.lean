import LessCss.Processor.Reader
import LessCss.Proofs.Expression.Flow
import LessCss.Proofs.Expression.Holes
import LessCss.Proofs.Token.Cuts

/-! The readers step by step, where it is known what they meet: a literal, what follows
an operand, or a mark. -/

set_option autoImplicit false

namespace LessCss

open Kind

def Kind.isLiteral (kind : Kind) : Bool := kind.isNumeric || kind == .hash || kind.isFilled

def Kind.isPlain (kind : Kind) : Bool :=
  !kind.isLiteral && kind != .atKeyword && kind != .parenOpen && !kind.isBlank

theorem Kind.isFilled_of_isNumeric {kind : Kind} (numeric : kind.isNumeric = true) : kind.isFilled = false := by
  cases kind <;> simp_all [isNumeric, isFilled]

theorem Kind.solid_of_isLiteral {kind : Kind} (literal : kind.isLiteral = true) :
    kind.isBlank = false ∧ kind ≠ .other ∧ kind ≠ .parenOpen := by
  cases kind <;> simp_all [isLiteral, isNumeric, isFilled, isBlank]

def Token.value (token : Token) : Value :=
  match token.kind with
  | .hash => .ofHash token.text
  | .number | .percentage | .dimension => .ofNumeric token.text
  | .string => .ofStringLiteral token.text
  | .url => .ofUrlLiteral token.text
  | _ => .ofIdentifier token.text

theorem Token.value_of_isNumeric {token : Token} (numeric : token.kind.isNumeric = true) :
    token.value = .ofNumeric token.text := by
  unfold Token.value
  revert numeric
  cases token.kind <;> simp [isNumeric]

namespace Tokens

theorem trimLeft_cons_of_solid {token : Token} (solid : token.isBlank = false) (rest : Tokens) :
    trimLeft (token :: rest) = token :: rest :=
  List.dropWhile_cons_of_neg (by simp [solid])

theorem trimLeft_append_of_blank {blanks : Tokens} (blank : blanks.Blank) (rest : Tokens) :
    trimLeft (blanks ++ rest) = trimLeft rest :=
  List.dropWhile_append_of_pos blank

theorem startsNumeric_cons (token : Token) (rest : Tokens) :
    startsNumeric (token :: rest) = token.kind.isNumeric := rfl

theorem isBlank_of_trimLeft {tokens rest : Tokens} {token : Token} (start : tokens.trimLeft = token :: rest) :
    token.isBlank = false :=
  trimLeft_eq_self_iff.mp (trimLeft_trimLeft tokens) token (by rw [start]; rfl)

theorem operator?_of_nil {tokens : Tokens} (nothing : trimLeft tokens = []) : tokens.operator? = none := by
  unfold operator?
  split
  · rfl
  · rename_i start
    cases nothing.symm.trans start

theorem operator?_of_kind {tokens rest : Tokens} {token : Token} (start : trimLeft tokens = token :: rest)
    (other : token.kind ≠ .other) : tokens.operator? = none := by
  unfold operator?
  split
  · rfl
  · rename_i start'
    cases start.symm.trans start'
    rw [if_neg other]

/-- An operator of one mark, in front of a token that is none. -/
theorem operator?_single {tokens rest after : Tokens} {mark next : Token} {op : Operator}
    (start : trimLeft tokens = mark :: next :: rest) (behind : trimLeft (next :: rest) = after)
    (kind : mark.kind = .other) (apart : next.kind ≠ .other) (named : Operator.ofText? mark.text = some op) :
    ∃ shorter, tokens.operator? = some ⟨op, mark, after, shorter⟩ := by
  have single : formsOperator mark next = false := by simp [formsOperator, apart]
  subst behind
  refine ⟨Nat.lt_of_le_of_lt (length_trimLeft_le _) (tokens.length_lt_of_trimLeft start), ?_⟩
  unfold operator?
  split
  · rename_i start'
    cases start.symm.trans start'
  · rename_i start'
    cases start.symm.trans start'
    rw [if_pos kind]
    dsimp only
    rw [if_neg (by simp [single]), named]
    rfl

/-- An operator of two marks. -/
theorem operator?_double {tokens rest after : Tokens} {mark next : Token} {op : Operator}
    (start : trimLeft tokens = mark :: next :: rest) (behind : trimLeft rest = after) (kind : mark.kind = .other)
    (forms : formsOperator mark next = true) (named : Operator.ofText? (mark.text ++ next.text) = some op) :
    ∃ shorter, tokens.operator? = some ⟨op, mark, after, shorter⟩ := by
  subst behind
  have bound := tokens.length_lt_of_trimLeft start
  refine ⟨Nat.lt_of_le_of_lt (length_trimLeft_le rest) (Nat.lt_trans rest.length.lt_succ_self bound), ?_⟩
  unfold operator?
  split
  · rename_i start'
    cases start.symm.trans start'
  · rename_i start'
    cases start.symm.trans start'
    rw [if_pos kind]
    dsimp only
    rw [if_pos forms, named]
    rfl

end Tokens

namespace Environment

variable {env : Environment} {grouped : Bool}

theorem literal?_of_unmarked {token : Token} (kind : token.kind.isLiteral = true)
    (plain : token.kind.isFilled = true → ¬Text.Marked token.text) :
    env.literal? grouped token = .ok (some token.value) := by
  unfold literal? Token.value
  cases found : token.kind with
  | string | url | identifier =>
    rw [found] at plain
    dsimp only
    rw [interpolate_of_unmarked env grouped (plain rfl)]
    rfl
  | hash | number | percentage | dimension => rfl
  | _ =>
    rw [found] at kind
    cases kind

theorem kind_of_literal? {token : Token} {value : Value} (read : env.literal? grouped token = .ok (some value)) :
    token.kind.isLiteral = true ∨ token.kind = .atKeyword := by
  unfold literal? at read
  cases found : token.kind with
  | atKeyword => exact .inr rfl
  | hash | number | percentage | dimension | string | url | identifier => exact .inl rfl
  | _ =>
    rw [found] at read
    cases read

theorem solid_of_literal? {token : Token} {value : Value} (read : env.literal? grouped token = .ok (some value)) :
    token.isBlank = false ∧ token.kind ≠ .other ∧ token.kind ≠ .parenOpen := by
  rcases kind_of_literal? read with literal | reference
  · exact solid_of_isLiteral literal
  · simp [Token.isBlank, reference, isBlank]

/-- A token that begins no group, no call and no negation is read by itself. -/
theorem constant_of_token {token : Token} (rest : Tokens) (noParen : token.kind ≠ .parenOpen)
    (idle : token.kind = .other → token.text ∉ ["-", "%", "@", "~"])
    (alone : token.kind = .identifier → rest.headIs .parenOpen = false) :
    env.constant grouped (token :: rest) =
      (env.literal? grouped token).map fun value => .ofOption value token [] rest := by
  have noMark {text : String} (member : text ∈ ["-", "%", "@", "~"]) : token.isMark text = false := by
    refine Bool.eq_false_iff.mpr fun same => ?_
    simp only [Token.isMark, Bool.and_eq_true, beq_iff_eq] at same
    exact idle same.1 (same.2 ▸ member)
  rw [constant.eq_def]
  dsimp only
  rw [if_neg noParen, if_neg (by simp [noMark])]
  cases rest with
  | nil => rfl
  | cons next after =>
    have uncalled : ¬(next.kind = .parenOpen ∧ token.kind = .identifier) := by
      rintro ⟨opens, name⟩
      simpa [Tokens.headIs, Tokens.headKind?, opens] using alone name
    dsimp only
    rw [if_neg (by simpa [noMark] using fun opens name => uncalled ⟨opens, name⟩), if_neg (by simp [noMark]),
      if_neg (by simp [noMark])]

/-- What has a value by itself is read, unless it is the name of a function that is called. -/
theorem constant_of_literal? {token : Token} {value : Value} (rest : Tokens)
    (read : env.literal? grouped token = .ok (some value))
    (alone : token.kind = .identifier → rest.headIs .parenOpen = false) :
    env.constant grouped (token :: rest) = .ok (.found value rest rest.length.lt_succ_self) := by
  obtain ⟨_, other, noParen⟩ := solid_of_literal? read
  rw [constant_of_token rest noParen (fun mark => absurd mark other) alone, read]
  rfl

variable {last : Option Operator} {lhs : Value} {literal : Bool} {tokens : Tokens}

theorem climb_of_looser (looser : ∀ found ∈ tokens.operator?, last.any (found.op.precedence ≤ ·.precedence) = true) :
    env.climb grouped last lhs literal tokens = .ok (.all lhs tokens) := by
  rw [climb]
  cases next : tokens.operator? with
  | none => rfl
  | some found =>
    obtain ⟨op, mark, after, shorter⟩ := found
    dsimp only
    rw [if_pos (looser _ next)]
    rfl

theorem climb_of_none (stop : tokens.operator? = none) :
    env.climb grouped last lhs literal tokens = .ok (.all lhs tokens) :=
  climb_of_looser fun found next => by simp [stop] at next

/-- Outside parentheses a slash between two numbers that are written out is left. -/
theorem climb_of_slash {found : OperatorAt tokens.length} (next : tokens.operator? = some found)
    (slash : found.op = .divide) (numeric : found.rest.startsNumeric = true) :
    env.climb false last lhs true tokens = .ok (.all lhs tokens) := by
  obtain ⟨op, mark, after, shorter⟩ := found
  rw [climb, next]
  dsimp only
  split
  · rfl
  · rw [if_pos (by simp_all)]
    rfl

/-- An operator is applied to what the operators on its right that bind more tightly leave. -/
theorem climb_of_operator {op : Operator} {mark : Token} {after rest : Tokens} {shorter : after.length < tokens.length}
    {rhs : Value} {shorter' : rest.length < after.length} (next : tokens.operator? = some ⟨op, mark, after, shorter⟩)
    (tighter : last.any (op.precedence ≤ ·.precedence) = false)
    (divides : (op = .divide && !grouped && literal && after.startsNumeric) = false)
    (read : env.constant grouped after = .ok (.found rhs rest shorter')) :
    env.climb grouped last lhs literal tokens =
      env.climb grouped (some op) rhs after.startsNumeric rest >>= fun right =>
        operate mark op lhs right.result >>= fun value =>
          (env.climb grouped last value false right.rest).map
            (Upto.widen (Nat.le_trans right.bounded (Nat.le_of_lt (Nat.lt_trans shorter' shorter)))) := by
  rw [climb, next]
  dsimp only
  rw [if_neg (by simp [tighter]), if_neg (by simp [divides]), read]
  refine congrArg (env.climb grouped (some op) rhs after.startsNumeric rest >>= ·) ?_
  funext right
  refine congrArg (operate mark op lhs right.result >>= ·) ?_
  funext value
  cases env.climb grouped last value false right.rest <;> rfl

/-- A constant and what is computed with it further on. -/
theorem statement_of_constant {first : Token} {others rest : Tokens} {value : Value}
    {shorter : rest.length < (first :: others).length} (start : tokens.trimLeft = first :: others)
    (read : env.constant grouped (first :: others) = .ok (.found value rest shorter)) :
    ∃ shorter' : rest.length < tokens.length, env.statement grouped tokens =
      (env.climb grouped none value first.kind.isNumeric rest).map (Reading.goOn shorter') := by
  have found : ∃ shorter, env.constant grouped tokens.trimLeft = .ok (.found value rest shorter) := by
    rw [start]
    exact ⟨_, read⟩
  have numeric : tokens.trimLeft.startsNumeric = first.kind.isNumeric := by rw [start, Tokens.startsNumeric_cons]
  obtain ⟨shorter', found⟩ := found
  refine ⟨Nat.lt_of_lt_of_le shorter' tokens.length_trimLeft_le, ?_⟩
  rw [statement, found]
  change (env.climb grouped none value tokens.trimLeft.startsNumeric rest >>= _) = _
  rw [numeric]
  cases env.climb grouped none value first.kind.isNumeric rest <;> rfl

theorem statement_of_literal? {token : Token} {rest : Tokens} {value : Value} (start : tokens.trimLeft = token :: rest)
    (read : env.literal? grouped token = .ok (some value))
    (alone : token.kind = .identifier → rest.headIs .parenOpen = false) :
    ∃ shorter : rest.length < tokens.length, env.statement grouped tokens =
      (env.climb grouped none value token.kind.isNumeric rest).map (Reading.goOn shorter) :=
  statement_of_constant start (constant_of_literal? rest read alone)

/-- Outside parentheses, a written number in front of a slash and another one is read alone. -/
theorem statement_of_slash {token : Token} {rest : Tokens} {value : Value} {found : OperatorAt rest.length}
    (start : tokens.trimLeft = token :: rest) (read : env.literal? false token = .ok (some value))
    (numeric : token.kind.isNumeric = true) (next : rest.operator? = some found) (slash : found.op = .divide)
    (numeric' : found.rest.startsNumeric = true) :
    ∃ shorter : rest.length < tokens.length, env.statement false tokens = .ok (.found value rest shorter) := by
  have alone : token.kind = .identifier → rest.headIs .parenOpen = false := by
    intro name
    rw [name] at numeric
    cases numeric
  obtain ⟨shorter, reads⟩ := statement_of_literal? start read alone
  rw [numeric, climb_of_slash next slash numeric'] at reads
  exact ⟨shorter, reads⟩

/-- A literal that no operator follows is read alone. -/
theorem statement_of_alone {token : Token} {rest : Tokens} {value : Value}
    (read : env.literal? grouped token = .ok (some value))
    (alone : token.kind = .identifier → rest.headIs .parenOpen = false) (stop : rest.operator? = none) :
    ∃ shorter, env.statement grouped (token :: rest) = .ok (.found value rest shorter) := by
  have trimmed := Tokens.trimLeft_cons_of_solid (solid_of_literal? read).1 rest
  obtain ⟨shorter, reads⟩ := statement_of_literal? trimmed read alone
  rw [climb_of_none stop] at reads
  exact ⟨shorter, reads⟩

theorem statement_of_error {first : Token} {others : Tokens} {error : Error} (start : tokens.trimLeft = first :: others)
    (failed : env.constant grouped (first :: others) = .error error) : env.statement grouped tokens = .error error := by
  rw [← start] at failed
  rw [statement, failed]
  rfl

/-- Where no constant begins, no expression does. -/
theorem statement_of_absent {first : Token} {others rest : Tokens} {bounded : rest.length ≤ (first :: others).length}
    (start : tokens.trimLeft = first :: others)
    (read : env.constant grouped (first :: others) = .ok (.absent rest bounded)) :
    ∃ bounded' : rest.length ≤ tokens.length, env.statement grouped tokens = .ok (.absent rest bounded') := by
  have found : ∃ bounded, env.constant grouped tokens.trimLeft = .ok (.absent rest bounded) := by
    rw [start]
    exact ⟨_, read⟩
  obtain ⟨bounded', found⟩ := found
  refine ⟨Nat.le_trans bounded' tokens.length_trimLeft_le, ?_⟩
  rw [statement, found]
  rfl

section Groups

variable {opening : Token} {rest : Tokens} {value : Value}

/-- An expression that fills a group is the value of the group. -/
theorem constant_of_group {closing : Token} {after : Tokens} {shorter : rest.length < tokens.length}
    (opens : opening.kind = .parenOpen) (closed : (tokens.takeGroup? 0).isSome = true)
    (read : env.statement true tokens = .ok (.found value rest shorter)) (ends : rest.trimLeft = closing :: after)
    (closes : closing.kind = .parenClose) :
    ∃ shorter' : after.length < (opening :: tokens).length,
      env.constant grouped (opening :: tokens) = .ok (.found value after shorter') := by
  have headed : rest.trimLeft.headIs .parenClose = true := by simp [ends, Tokens.headIs, Tokens.headKind?, closes]
  have tail : rest.trimLeft.tail = after := by rw [ends]; rfl
  subst tail
  refine ⟨Nat.lt_trans (Nat.lt_of_le_of_lt (Nat.le_trans (by simp) rest.length_trimLeft_le) shorter)
    tokens.length.lt_succ_self, ?_⟩
  rw [constant.eq_def]
  dsimp only
  rw [if_pos opens, group, if_neg (by rw [← Option.not_isSome, closed]; decide), read]
  change (if rest.trimLeft.headIs .parenClose then _ else _) = _
  rw [if_pos headed]
  rfl

/-- An expression with more behind it is put back into the group. -/
theorem constant_of_group_more {shorter : rest.length < tokens.length} (opens : opening.kind = .parenOpen)
    (closed : (tokens.takeGroup? 0).isSome = true) (read : env.statement true tokens = .ok (.found value rest shorter))
    (more : rest.trimLeft.headIs .parenClose = false) :
    ∃ bounded : (opening :: value.toToken opening :: rest).length ≤ (opening :: tokens).length,
      env.constant grouped (opening :: tokens) = .ok (.absent (opening :: value.toToken opening :: rest) bounded) := by
  refine ⟨Nat.succ_le_succ shorter, ?_⟩
  rw [constant.eq_def]
  dsimp only
  rw [if_pos opens, group, if_neg (by rw [← Option.not_isSome, closed]; decide), read]
  change (if rest.trimLeft.headIs .parenClose then _ else _) = _
  rw [if_neg (by simp [more])]
  rfl

/-- A group that begins with no expression has no value. -/
theorem constant_of_group_absent {bounded : rest.length ≤ tokens.length} (opens : opening.kind = .parenOpen)
    (closed : (tokens.takeGroup? 0).isSome = true) (read : env.statement true tokens = .ok (.absent rest bounded)) :
    ∃ bounded' : (opening :: rest).length ≤ (opening :: tokens).length,
      env.constant grouped (opening :: tokens) = .ok (.absent (opening :: rest) bounded') := by
  refine ⟨Nat.succ_le_succ bounded, ?_⟩
  rw [constant.eq_def]
  dsimp only
  rw [if_pos opens, group, if_neg (by rw [← Option.not_isSome, closed]; decide), read]
  rfl

end Groups

/-! ### Items -/

section Items

variable {last : Option Kind} {first : Token} {others rest : Tokens}

theorem gap_of_solid {token : Token} (solid : token.isBlank = false) (last : Option Kind) (rest : Tokens) :
    gap last (token :: rest) = [] := by
  simp [gap, solid]

theorem lastKind_append_singleton (last : Option Kind) (written : Tokens) (token : Token) :
    lastKind last (written ++ [token]) = some token.kind := by
  simp [lastKind]

theorem evaluateItems_of_nil (nothing : tokens.trimLeft = []) : env.evaluateItems grouped last tokens = .ok [] := by
  rw [evaluateItems]
  split
  · rfl
  · rename_i start
    cases nothing.symm.trans start

section

variable (start : tokens.trimLeft = first :: others)

include start

theorem evaluateItems_of_error {error : Error}
    (failed : env.statement grouped (first :: others) = .error error) :
    env.evaluateItems grouped last tokens = .error error := by
  rw [evaluateItems]
  split
  · rename_i nothing
    cases start.symm.trans nothing
  · rename_i start'
    cases start.symm.trans start'
    rw [failed]
    rfl

/-- A value is written in place of the expression. -/
theorem evaluateItems_of_found {shorter : rest.length < (first :: others).length}
    (read : env.statement grouped (first :: others) = .ok (.found lhs rest shorter)) :
    env.evaluateItems grouped last tokens = (env.evaluateItems grouped (some lhs.tokenKind) rest).map
      (gap last tokens ++ lhs.toToken first :: ·) := by
  rw [evaluateItems]
  split
  · rename_i nothing
    cases start.symm.trans nothing
  · rename_i start'
    cases start.symm.trans start'
    rw [read]
    change (env.evaluateItems grouped (lastKind last (gap last tokens ++ [lhs.toToken first])) rest >>= _) = _
    rw [lastKind_append_singleton]
    change (env.evaluateItems grouped (some lhs.tokenKind) rest >>= _) = _
    cases env.evaluateItems grouped (some lhs.tokenKind) rest with
    | error error => rfl
    | ok written => exact congrArg Except.ok (List.append_assoc (gap last tokens) [lhs.toToken first] written)

/-- Where no expression begins, something is carried over. -/
theorem evaluateItems_of_absent {token : Token} {bounded : (token :: rest).length ≤ (first :: others).length}
    (read : env.statement grouped (first :: others) = .ok (.absent (token :: rest) bounded)) :
    env.evaluateItems grouped last tokens = env.carry grouped token rest >>= fun carried =>
      (env.evaluateItems grouped (lastKind last (gap last tokens ++ carried.result)) carried.rest).map
        fun written => gap last tokens ++ (carried.result ++ written) := by
  rw [evaluateItems]
  split
  · rename_i nothing
    cases start.symm.trans nothing
  · rename_i start'
    cases start.symm.trans start'
    rw [read]
    change (env.carry grouped token rest >>= _) = _
    cases env.carry grouped token rest with
    | error error => rfl
    | ok carried =>
      change (env.evaluateItems grouped (lastKind last (gap last tokens ++ carried.result)) carried.rest >>= _) =
        (env.evaluateItems grouped (lastKind last (gap last tokens ++ carried.result)) carried.rest).map _
      cases env.evaluateItems grouped (lastKind last (gap last tokens ++ carried.result)) carried.rest with
      | error error => rfl
      | ok written => exact congrArg Except.ok (List.append_assoc (gap last tokens) carried.result written)

/-- The same where it is known what is written last. -/
theorem evaluateItems_of_carried {token final : Token} {bounded : (token :: rest).length ≤ (first :: others).length}
    {carried : Upto rest.length Tokens}
    (read : env.statement grouped (first :: others) = .ok (.absent (token :: rest) bounded))
    (carries : env.carry grouped token rest = .ok carried) (ends : carried.result.getLast? = some final) :
    env.evaluateItems grouped last tokens = (env.evaluateItems grouped (some final.kind) carried.rest).map
      fun written => gap last tokens ++ (carried.result ++ written) := by
  have kind : lastKind last (gap last tokens ++ carried.result) = some final.kind := by
    rw [lastKind, List.getLast?_append, ends]
    rfl
  rw [evaluateItems_of_absent start read, carries, ← kind]
  rfl

end

theorem literal?_of_isPlain {token : Token} (plain : token.kind.isPlain = true) :
    env.literal? grouped token = .ok none := by
  unfold literal?
  revert plain
  cases token.kind <;> simp [isPlain, isLiteral, isNumeric, isFilled]

/-- A token without a value begins no expression. -/
theorem statement_of_none {token : Token} (none_ : env.literal? grouped token = .ok none) (solid : token.isBlank = false)
    (noParen : token.kind ≠ .parenOpen) (idle : token.kind = .other → token.text ∉ ["-", "%", "@", "~"])
    (noName : token.kind ≠ .identifier) (rest : Tokens) :
    env.statement grouped (token :: rest) = .ok (.unread (token :: rest)) := by
  have constant : env.constant grouped (token :: rest) = .ok (.unread (token :: rest)) := by
    rw [constant_of_token rest noParen idle fun name => absurd name noName, none_]
    rfl
  obtain ⟨_, read⟩ := statement_of_absent (Tokens.trimLeft_cons_of_solid solid rest) constant
  exact read

theorem statement_of_plain {token : Token} (plain : token.kind.isPlain = true)
    (idle : token.kind = .other → token.text ∉ ["-", "%", "@", "~"]) (rest : Tokens) :
    env.statement grouped (token :: rest) = .ok (.unread (token :: rest)) := by
  have kinds := plain
  simp only [isPlain, Bool.and_eq_true, Bool.not_eq_true', bne_iff_ne] at kinds
  refine statement_of_none (literal?_of_isPlain plain) kinds.2 kinds.1.2 idle (fun name => ?_) rest
  rw [name] at plain
  cases plain

theorem carry_of_isPlain {token : Token} (plain : token.kind.isPlain = true) (rest : Tokens) :
    env.carry grouped token rest = .ok (.all [token] rest) := by
  unfold carry
  revert plain
  cases token.kind <;> simp [isPlain, isLiteral, isFilled]

theorem evaluateItems_of_plain {token : Token} (start : tokens.trimLeft = token :: rest) (plain : token.kind.isPlain = true)
    (idle : token.kind = .other → token.text ∉ ["-", "%", "@", "~"]) :
    env.evaluateItems grouped last tokens =
      (env.evaluateItems grouped (some token.kind) rest).map (gap last tokens ++ token :: ·) := by
  exact evaluateItems_of_carried start (statement_of_plain plain idle rest) (carry_of_isPlain plain rest) rfl

theorem evaluate_of_reference {token : Token} (member : token ∈ tokens) (kind : token.kind = .atKeyword) :
    env.evaluate grouped tokens = env.evaluateItems grouped none tokens :=
  if_pos (Tokens.computes_of_reference member kind)

end Items

end Environment

end LessCss
