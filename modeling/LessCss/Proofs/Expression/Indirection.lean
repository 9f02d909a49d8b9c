import LessCss.Compile
import LessCss.Proofs.Expression.Steps
import LessCss.Proofs.Processor.Values

/-! References by a name that another variable holds. Main statement: where the variable that is
named holds one expression, such a reference gives what a reference by that name gives, text by
text; where it holds anything else, the reference is not followed and stays as it is written. -/

set_option autoImplicit false

namespace LessCss

open List

/-! ### Names -/

namespace Text

theorem trimChars_of_ends {first last : Char} {rest : List Char} (starts : isBlank first = false)
    (ends : (first :: rest).getLast? = some last) (solid : isBlank last = false) : trimChars (first :: rest) = first :: rest := by
  have left : (first :: rest).dropWhile isBlank = first :: rest := dropWhile_cons_of_neg (by simp [starts])
  obtain ⟨before, same⟩ := List.getLast?_eq_some_iff.mp ends
  rw [trimChars, left, same, reverse_append]
  change (List.dropWhile isBlank (last :: before.reverse)).reverse = _
  rw [dropWhile_cons_of_neg (by simp [solid])]
  simp

theorem isBlank_of_quote {c : Char} {quote : Quote} (quotes : Quote.ofChar? c = some quote) : isBlank c = false := by
  unfold Quote.ofChar? at quotes
  split at quotes
  · rename_i same
    rw [same]
    decide
  · split at quotes
    · rename_i same
      rw [same]
      decide
    · cases quotes

theorem trim_of_quoted {text inner : String} {quote : Quote} (quoted : unquote text = (inner, some quote)) :
    trim text = text := by
  unfold unquote at quoted
  split at quoted
  · cases quoted
  · rename_i first rest chars
    split at quoted
    · cases quoted
    · rename_i quote' quotes
      split at quoted
      · rename_i ends
        have solid := isBlank_of_quote quotes
        have last : (first :: rest).getLast? = some first := by rw [List.getLast?_cons, ends]; rfl
        rw [trim, chars, trimChars_of_ends solid last solid, ← chars, String.ofList_toList]
      · cases quoted

end Text

/-- A string names what stands between its quotes. A keyword without blanks or quotes around
it names itself. -/
def Token.Names (token : Token) (key : String) : Prop :=
  token.kind = .string ∧ (∃ quote, Text.unquote token.text = (key, some quote)) ∨
    token.kind = .identifier ∧ token.text = key ∧ Text.trim key = key ∧ (Text.unquote key).2 = none

theorem Token.Names.unquote_trim {token : Token} {key : String} (names : token.Names key) :
    (Text.unquote (Text.trim token.text)).1 = key := by
  rcases names with ⟨_, quote, quoted⟩ | ⟨_, rfl, trimmed, bare⟩
  · rw [Text.trim_of_quoted quoted, quoted]
  · rw [trimmed]
    unfold Text.unquote at bare ⊢
    grind

/-! ### References -/

namespace Environment

variable {env : Environment} {grouped : Bool} {token mark : Token}

theorem constant_of_reference (refers : token.kind = .atKeyword) (rest : Tokens) :
    env.constant grouped (token :: rest) =
      (env.valueOf? grouped token.text token).map fun value => .ofOption value token [] rest := by
  rw [constant_of_token rest (by simp [refers]) (by simp [refers]) (by simp [refers]), literal?, refers]

theorem constant_of_indirect (isMark : mark.isMark "@" = true) (refers : token.kind = .atKeyword) (rest : Tokens) :
    env.constant grouped (mark :: token :: rest) =
      (env.indirect? grouped token).map fun value => .ofOption value mark [token] rest := by
  simp only [Token.isMark, Bool.and_eq_true, beq_iff_eq] at isMark
  rw [constant.eq_def]
  dsimp only
  rw [if_neg (by simp [isMark]), if_neg (by simp [Token.isMark, isMark]), if_neg (by simp [refers]),
    if_pos (by simp [Token.isMark, isMark, refers])]

/-- What is written for a constant that stands alone: its value, or else what is carried over. -/
theorem evaluateItems_of_constant {first : Token} {more : Tokens} {last : Option Kind} {value? : Except Error (Option Value)}
    {reading : Option Value → Reading (first :: more).length} (solid : first.isBlank = false)
    (read : env.constant grouped (first :: more) = value?.map reading)
    (some_ : ∀ value, ∃ shorter, reading (some value) = .found value [] shorter)
    (none_ : reading none = .unread (first :: more)) :
    env.evaluateItems grouped last (first :: more) = value? >>= fun
      | some value => .ok [value.toToken first]
      | none => env.carry grouped first more >>= fun carried =>
        (env.evaluateItems grouped (lastKind last carried.result) carried.rest).map (carried.result ++ ·) := by
  have start := Tokens.trimLeft_cons_of_solid solid more
  have gap := gap_of_solid solid last more
  cases value? with
  | error error => exact evaluateItems_of_error start (statement_of_error start read)
  | ok found =>
    cases found with
    | some value =>
      obtain ⟨shorter, found⟩ := some_ value
      obtain ⟨_, reads⟩ := statement_of_constant start (read.trans (congrArg Except.ok found))
      rw [climb_of_none (Tokens.operator?_of_nil rfl)] at reads
      rw [evaluateItems_of_found start reads, evaluateItems_of_nil rfl, gap]
      rfl
    | none =>
      obtain ⟨_, reads⟩ := statement_of_absent start (read.trans (congrArg Except.ok none_))
      rw [evaluateItems_of_absent start reads, gap]
      rfl

theorem evaluateItems_reference (refers : token.kind = .atKeyword) (last : Option Kind) :
    env.evaluateItems grouped last [token] = env.valueOf? grouped token.text token >>= fun
      | some value => .ok [value.toToken token]
      | none => env.resolve grouped token := by
  have carries : env.carry grouped token [] = (env.resolve grouped token).map fun value => .all value [] := by
    rw [carry, refers]
  rw [evaluateItems_of_constant (by simp [Token.isBlank, refers, Kind.isBlank]) (constant_of_reference refers [])
    (fun value => ⟨_, rfl⟩) rfl, carries]
  refine congrArg (env.valueOf? grouped token.text token >>= ·) ?_
  funext value?
  cases value? with
  | some value => rfl
  | none =>
    cases env.resolve grouped token with
    | error error => rfl
    | ok tokens =>
      change (env.evaluateItems grouped _ []).map _ = _
      rw [evaluateItems_of_nil rfl]
      exact congrArg Except.ok (append_nil tokens)

/-- Without a value, the mark is written, and the reference is followed on its own. -/
theorem evaluateItems_indirect (isMark : mark.isMark "@" = true) (refers : token.kind = .atKeyword) (last : Option Kind) :
    env.evaluateItems grouped last [mark, token] = env.indirect? grouped token >>= fun
      | some value => .ok [value.toToken mark]
      | none => (env.evaluateItems grouped (some .other) [token]).map (mark :: ·) := by
  have kind : mark.kind = .other := by
    simp only [Token.isMark, Bool.and_eq_true, beq_iff_eq] at isMark
    exact isMark.1
  have carries : env.carry grouped mark [token] = .ok (.all [mark] [token]) := carry_of_isPlain (by simp [kind]; decide) _
  have kinds : lastKind last [mark] = some .other := by simp [lastKind, kind]
  rw [evaluateItems_of_constant (by simp [Token.isBlank, kind, Kind.isBlank]) (constant_of_indirect isMark refers [])
    (fun value => ⟨_, rfl⟩) rfl, carries]
  refine congrArg (env.indirect? grouped token >>= ·) ?_
  funext value?
  cases value? with
  | some value => rfl
  | none =>
    change (env.evaluateItems grouped (lastKind last [mark]) [token]).map _ = _
    rw [kinds]
    rfl

/-- The name is looked up on behalf of the reference that leads to it. -/
theorem indirect?_of_names {name : Token} {key : String} (resolved : env.resolve grouped token = .ok [name])
    (names : name.Names key) : env.indirect? grouped token = env.valueOf? grouped ("@" ++ key) token := by
  have text : Tokens.text [name] = name.text := by simp [Tokens.text]
  rw [indirect?, resolved]
  change env.valueOf? grouped ("@" ++ (Text.unquote (Text.trim (Tokens.text [name]))).1) token = _
  rw [text, names.unquote_trim]

theorem evaluateSingle_eq (tokens : Tokens) :
    env.evaluateSingle grouped tokens = (env.statement grouped tokens).map Reading.whole? := by
  rw [evaluateSingle]
  cases env.statement grouped tokens with
  | error error => rfl
  | ok reading => cases reading <;> rfl

end Environment

namespace Scope

open Processing (Keeps)

variable {library : Library} {scope : Scope} {name : String} {tokens : Tokens}

def Compound (library : Library) (scope : Scope) (processor : Processor) (tokens : Tokens) : Prop :=
  ∃ reading, Keeps ((scope.setting library).statement tokens) processor (.ok reading) ∧ reading.whole? = none

section

variable {active : List String} (found : scope.find? name = some tokens) (idle : name ∉ active) (grouped : Bool)

include found idle

/-- A variable is evaluated where it is used, with its name under evaluation. -/
theorem lookup?_of_idle : Environment.lookup? ⟨library, scope.definition? library active⟩ name =
    some (.ofTokens ⟨library, scope.definition? library (name :: active)⟩ tokens) := by
  refine (definition?_found found).trans ?_
  rw [if_neg idle]

theorem resolve_of_idle {token : Token} (named : token.text = name) :
    Environment.resolve ⟨library, scope.definition? library active⟩ grouped token =
      (Environment.evaluate ⟨library, scope.definition? library (name :: active)⟩ grouped tokens).map Tokens.trim := by
  rw [Environment.resolve, named, lookup?_of_idle found idle]
  rfl

theorem valueOf?_of_idle (at_ : Token) :
    Environment.valueOf? ⟨library, scope.definition? library active⟩ grouped name at_ =
      (Environment.statement ⟨library, scope.definition? library (name :: active)⟩ grouped tokens).map Reading.whole? := by
  rw [← Environment.evaluateSingle_eq, Environment.valueOf?, lookup?_of_idle found idle]
  rfl

end

/-- Let a variable be evaluated to one string or keyword, and let another variable have this for its name,
neither of them under evaluation. If the other variable holds one expression, the reference through the first
one gives tokens of the same kinds and texts as the reference by name, or the same error. If it holds anything
else, the reference by name gives all of it, and the other reference gives its mark and the name. -/
theorem indirect_reference_of_one_expression (library : Library) (scope : Scope) (processor : Processor)
    (mark reference direct : Token) {name : Token} {tokens tokens' out : Tokens} {key : String}
    (isMark : mark.isMark "@" = true) (refers : reference.kind = .atKeyword) (refers' : direct.kind = .atKeyword)
    (found : scope.find? reference.text = some tokens) (found' : scope.find? direct.text = some tokens')
    (idle : reference.text ∉ processor.evaluating) (idle' : direct.text ∉ processor.evaluating)
    (evaluated : Keeps ((scope.setting library).value tokens) (processor.enter reference.text) (.ok out))
    (single : out.trim = [name]) (names : name.Names key) (called : direct.text = "@" ++ key) :
    ∃ indirectly directly,
      Keeps ((scope.setting library).value [mark, reference]) processor indirectly ∧
      Keeps ((scope.setting library).value [direct]) processor directly ∧
      (¬scope.Compound library (processor.enter direct.text) tokens' →
        indirectly.map (List.map Token.spelling) = directly.map (List.map Token.spelling)) ∧
      (scope.Compound library (processor.enter direct.text) tokens' →
        (∃ own, Keeps ((scope.setting library).value [reference]) processor own ∧ indirectly = own.map (mark :: ·)) ∧
        ∃ all, Keeps ((scope.setting library).value tokens') (processor.enter direct.text) all ∧
          directly = all.map Tokens.trim) := by
  have handles := handles_setting library scope processor.evaluating
  have inner := handles_setting library scope (reference.text :: processor.evaluating)
  have inner' := handles_setting library scope (direct.text :: processor.evaluating)
  have evaluated' : Environment.evaluate _ _ tokens = .ok out := (inner.value processor.parens tokens).unique evaluated
  have resolved : Environment.resolve ⟨library, scope.definition? library processor.evaluating⟩ (processor.parens != 0)
      reference = _ := resolve_of_idle found idle _ rfl
  rw [evaluated', Except.map, single] at resolved
  have reads := inner'.statement processor.parens tokens'
  have first := handles.value processor.parens [mark, reference]
  have second := handles.value processor.parens [direct]
  rw [Environment.evaluate_of_reference (mem_cons_of_mem _ mem_cons_self) refers,
    Environment.evaluateItems_indirect isMark refers, Environment.indirect?_of_names resolved names, ← called,
    valueOf?_of_idle found' idle'] at first
  rw [Environment.evaluate_of_reference mem_cons_self refers', Environment.evaluateItems_reference refers',
    valueOf?_of_idle found' idle', resolve_of_idle found' idle' _ rfl] at second
  refine ⟨_, _, first, second, ?_⟩
  -- Both ask for the value of the variable that is named, and differ where there is no single one.
  cases read : Environment.statement _ (processor.parens != 0) tokens' with
  | error error =>
    rw [read] at reads
    refine ⟨fun _ => rfl, fun ⟨reading, compound, _⟩ => ?_⟩
    cases reads.unique compound
  | ok reading =>
    rw [read] at reads
    cases whole : reading.whole? with
    | some value =>
      rw [Except.map, whole]
      refine ⟨fun _ => rfl, fun ⟨reading', compound, none_⟩ => ?_⟩
      cases reads.unique compound
      cases whole.symm.trans none_
    | none =>
      rw [Except.map, whole]
      refine ⟨fun one => absurd ⟨reading, reads, whole⟩ one, fun _ => ⟨⟨_, handles.value processor.parens [reference], ?_⟩,
        _, inner'.value processor.parens tokens', rfl⟩⟩
      rw [Environment.evaluate_of_reference mem_cons_self refers, Environment.evaluateItems_reference refers none,
        ← Environment.evaluateItems_reference refers (some .other)]
      rfl

theorem not_compound_of_run {processor : Processor}
    (one : (((scope.setting library).statement tokens).run.run processor).any (fun ended =>
      ended.1.toOption.any fun reading => reading.whole?.isSome) = true) : ¬scope.Compound library processor tokens := by
  rintro ⟨reading, keeps, none_⟩
  rw [keeps] at one
  change reading.whole?.isSome = true at one
  rw [none_] at one
  cases one

def pointing : Scope :=
  [⟨[("@n", (Scan.ofText "in" " '@\x7bside\x7d-width'").tokens), ("@side", (Scan.ofText "in" "left").tokens),
    ("@left-width", (Scan.ofText "in" "(@base + 2) * 2").tokens), ("@base", (Scan.ofText "in" "1px").tokens),
    ("@m", (Scan.ofText "in" "border").tokens), ("@border", (Scan.ofText "in" "1px solid red").tokens)]⟩]

def atMark : Token := .synthetic .other "@"

theorem pointing_followed : ∃ indirectly directly,
    Keeps ((pointing.setting .builtin).value [atMark, .synthetic .atKeyword "@n"]) .fresh indirectly ∧
    Keeps ((pointing.setting .builtin).value [.synthetic .atKeyword "@left-width"]) .fresh directly ∧
    indirectly.map (List.map Token.spelling) = directly.map (List.map Token.spelling) ∧
    directly.map (List.map Token.spelling) = .ok [(.dimension, "6px")] := by
  have evaluated : Keeps ((pointing.setting .builtin).value (Scan.ofText "in" " '@\x7bside\x7d-width'").tokens)
      (Processor.fresh.enter "@n") (.ok [⟨.whitespace, " ", ⟨"in", 1, 1⟩⟩, ⟨.string, "'left-width'", ⟨"in", 1, 2⟩⟩]) :=
    ((handles_setting .builtin pointing ["@n"]).value 0 _).of_run (by decide +kernel)
  have names : Token.Names ⟨.string, "'left-width'", ⟨"in", 1, 2⟩⟩ "left-width" :=
    .inl ⟨rfl, .single, by decide +kernel⟩
  obtain ⟨indirectly, directly, first, second, same, _⟩ := indirect_reference_of_one_expression .builtin pointing .fresh
    atMark (.synthetic .atKeyword "@n") (.synthetic .atKeyword "@left-width")
    (by decide) rfl rfl rfl rfl not_mem_nil not_mem_nil evaluated rfl names rfl
  refine ⟨indirectly, directly, first, second, same (not_compound_of_run (by decide +kernel)), ?_⟩
  have six : Keeps ((pointing.setting .builtin).value [.synthetic .atKeyword "@left-width"]) .fresh
      (.ok [.synthetic .dimension "6px"]) := keeps_value_of_run .builtin pointing (by decide +kernel)
  rw [second.unique six]
  rfl

/-- A list is found by its name only. -/
theorem pointing_at_list :
    Keeps ((pointing.setting .builtin).value [atMark, .synthetic .atKeyword "@m"]) .fresh
      (.ok [atMark, .synthetic .identifier "border"]) ∧
    Keeps ((pointing.setting .builtin).value [.synthetic .atKeyword "@border"]) .fresh
      (.ok (Scan.ofText "in" "1px solid red").tokens) ∧
    (compile ⟨false, none⟩ "@n: \"border\"; @border: 1px solid red; .a \x7b border: @@n; outline: @border \x7d").outcome.1.toOption =
      some ".a \x7b\n  border: @\"border\";\n  outline: 1px solid red;\n\x7d" :=
  ⟨keeps_value_of_run .builtin pointing (by decide +kernel), keeps_value_of_run .builtin pointing (by decide +kernel),
    by decide +kernel⟩

end Scope

end LessCss
