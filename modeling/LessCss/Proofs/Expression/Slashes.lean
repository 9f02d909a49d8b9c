import Mathlib.Data.List.Forall2
import LessCss.Function.Builtin
import LessCss.Proofs.Expression.Steps
import LessCss.Proofs.Processor.Values
import LessCss.Proofs.Value.Literals

/-! Slashes that separate. Main statement: outside parentheses, a list of numbers, names
and strings in which each slash stands between two numbers is evaluated, and nothing
but the spelling of numbers and the blanks can change. -/

set_option autoImplicit false

namespace LessCss

open List Tokens

namespace Tokens

def visible (tokens : Tokens) : Tokens := tokens.filter fun token => !token.isBlank

theorem visible_append (tokens others : Tokens) : visible (tokens ++ others) = tokens.visible ++ others.visible :=
  filter_append ..

theorem visible_of_blank {tokens : Tokens} (blank : tokens.Blank) : tokens.visible = [] :=
  filter_eq_nil_iff.mpr fun token member => by simp [blank token member]

theorem visible_cons {token : Token} (solid : token.isBlank = false) (rest : Tokens) :
    visible (token :: rest) = token :: rest.visible :=
  filter_cons_of_pos (by simp [solid])

theorem visible_of_nil {tokens : Tokens} (nothing : tokens.trimLeft = []) : tokens.visible = [] := by
  obtain ⟨before, blank, same⟩ := exists_trimLeft tokens
  rw [same, nothing, append_nil, visible_of_blank blank]

theorem visible_of_trimLeft {tokens rest : Tokens} {token : Token} (start : tokens.trimLeft = token :: rest) :
    tokens.visible = token :: rest.visible := by
  obtain ⟨before, blank, same⟩ := exists_trimLeft tokens
  rw [same, start, visible_append, visible_of_blank blank, nil_append, visible_cons (isBlank_of_trimLeft start)]

theorem visible_gap (last : Option Kind) (tokens : Tokens) : visible (Environment.gap last tokens) = [] := by
  unfold Environment.gap
  split <;> rfl

/-- Each slash stands between two numbers, apart from blanks. -/
def SeparatesNumbers (tokens : Tokens) : Prop :=
  ∀ before slash after, tokens.visible = before ++ slash :: after → slash.isMark "/" = true →
    before.getLast?.any (·.kind.isNumeric) = true ∧ after.head?.any (·.kind.isNumeric) = true

def separatesFrom (numeric : Bool) : Tokens → Bool
  | [] => true
  | token :: rest => (!token.isMark "/" || (numeric && rest.head?.any (·.kind.isNumeric))) &&
    separatesFrom token.kind.isNumeric rest

theorem separatesFrom_iff (numeric : Bool) (tokens : Tokens) : separatesFrom numeric tokens = true ↔
    ∀ before slash after, tokens = before ++ slash :: after → slash.isMark "/" = true →
      (before.getLast?.map (·.kind.isNumeric)).getD numeric = true ∧ after.head?.any (·.kind.isNumeric) = true := by
  induction tokens generalizing numeric with
  | nil => simp [separatesFrom]
  | cons token rest ih =>
    -- The kind in front of a slash is carried along, and is the given one only at the start.
    have last (before : Tokens) : ((token :: before).getLast?.map (·.kind.isNumeric)).getD numeric =
        (before.getLast?.map (·.kind.isNumeric)).getD token.kind.isNumeric := by
      rw [List.getLast?_cons]
      cases before.getLast? <;> rfl
    rw [separatesFrom, Bool.and_eq_true, ih]
    constructor
    · rintro ⟨here, behind⟩ before slash after cut mark
      cases before with
      | nil =>
        cases cut
        simpa [mark] using here
      | cons first before =>
        cases cut
        rw [last]
        exact behind before slash after rfl mark
    · intro each
      refine ⟨?_, fun before slash after cut mark => ?_⟩
      · cases mark : token.isMark "/" with
        | false => rfl
        | true => simpa using each [] token rest rfl mark
      · have found := each (token :: before) slash after (by rw [cut]; rfl) mark
        rwa [last] at found

theorem separatesNumbers_iff (tokens : Tokens) : tokens.SeparatesNumbers ↔ separatesFrom false tokens.visible = true := by
  have same (before : Tokens) : (before.getLast?.map (·.kind.isNumeric)).getD false =
      before.getLast?.any (·.kind.isNumeric) := by
    cases before.getLast? <;> rfl
  simp only [separatesFrom_iff, same]
  rfl

theorem operator?_slash {tokens rest more : Tokens} {slash number : Token} (start : tokens.trimLeft = slash :: rest)
    (mark : slash.isMark "/" = true) (behind : rest.trimLeft = number :: more) (numeric : number.kind.isNumeric = true) :
    ∃ found, tokens.operator? = some found ∧ found.op = .divide ∧ found.rest.startsNumeric = true := by
  simp only [Token.isMark, Bool.and_eq_true, beq_iff_eq] at mark
  cases rest with
  | nil => cases behind
  | cons next rest =>
    have apart : next.kind ≠ .other := by
      intro other
      have solid : next.isBlank = false := by rw [Token.isBlank, other]; rfl
      rw [trimLeft_cons_of_solid solid] at behind
      cases behind
      rw [other] at numeric
      cases numeric
    obtain ⟨_, found⟩ := operator?_single start behind mark.1 apart (by rw [mark.2]; rfl)
    exact ⟨_, found, rfl, numeric⟩

end Tokens

/-- A blank, a number, a name, a string or a slash, without markers. -/
structure Token.IsListed (token : Token) : Prop where
  unmarked : ¬Text.Marked token.text
  kind : token.isBlank = true ∨ token.kind.isNumeric = true ∨ token.kind = .identifier ∨ token.kind = .string ∨
    token.isMark "/" = true

def Token.printed (token : Token) : Token :=
  if token.kind.isNumeric then { token with text := token.value.css } else token

theorem Token.kind_printed (token : Token) : token.printed.kind = token.kind := by
  unfold printed
  split <;> rfl

/-- The token itself, or the number that it means as numbers are written. -/
def Token.PrintedAs (token out : Token) : Prop :=
  out = token ∨ token.kind.isNumeric = true ∧
    ∃ quantity, Quantity.read? token.text = some quantity ∧ out = { token with text := quantity.css }

namespace Token

/-- A token that begins no list of them as a slash has a value. -/
theorem IsListed.literal? {token : Token} (listed : token.IsListed) (solid : token.isBlank = false)
    (other : token.isMark "/" = false) (env : Environment) (grouped : Bool) :
    env.literal? grouped token = .ok (some token.value) := by
  refine Environment.literal?_of_unmarked ?_ fun _ => listed.unmarked
  rcases listed.kind with blank | numeric | name | string | slash
  · rw [solid] at blank
    cases blank
  · simp [Kind.isLiteral, numeric]
  · rw [name]
    rfl
  · rw [string]
    rfl
  · rw [other] at slash
    cases slash

theorem IsListed.kind_ne_parenOpen {token : Token} (listed : token.IsListed) : token.kind ≠ .parenOpen := by
  intro opens
  simpa [isBlank, isMark, opens, Kind.isBlank, Kind.isNumeric] using listed.kind

theorem toToken_of_kind {value : Value} {token : Token} (kind : value.tokenKind = token.kind) :
    value.toToken token = { token with text := value.css } := by
  rw [Value.toToken, derived, kind]

/-- A scanned number, name or string is written as it is printed. -/
theorem IsListed.toToken_value {position : Position} {last : Option Token} {cs : List Char} {token : Token}
    (listed : token.IsListed) (solid : token.isBlank = false) (other : token.isMark "/" = false)
    (scanned : token ∈ (Scan.run last ⟨cs, position⟩).tokens) : token.value.toToken token = token.printed := by
  rw [printed]
  rcases listed.kind with blank | numeric | name | string | slash
  · rw [solid] at blank
    cases blank
  · obtain ⟨quantity, read, kind⟩ := Scan.exists_quantity scanned numeric
    have value : token.value = .quantity quantity := by rw [value_of_isNumeric numeric, Value.ofNumeric, read]
    rw [if_pos numeric]
    exact toToken_of_kind (by rw [value]; exact kind)
  · obtain ⟨css, kind⟩ := Value.ofIdentifier_text token.text
    have value : token.value = .ofIdentifier token.text := by rw [Token.value, name]
    rw [if_neg (by rw [name]; decide), value, toToken_of_kind (kind.trans name.symm), css]
  · obtain ⟨css, kind⟩ := Scan.ofStringLiteral_text scanned string
    have value : token.value = .ofStringLiteral token.text := by rw [Token.value, string]
    rw [if_neg (by rw [string]; decide), value, toToken_of_kind (kind.trans string.symm), css]
  · rw [other] at slash
    cases slash

theorem printedAs_printed {position : Position} {last : Option Token} {cs : List Char} {token : Token}
    (scanned : token ∈ (Scan.run last ⟨cs, position⟩).tokens) : token.PrintedAs token.printed := by
  rw [printed]
  split
  · rename_i numeric
    obtain ⟨quantity, read, _⟩ := Scan.exists_quantity scanned numeric
    refine .inr ⟨numeric, quantity, read, ?_⟩
    rw [value_of_isNumeric numeric, Value.ofNumeric, read]
    rfl
  · exact .inl rfl

end Token

namespace Environment

variable {env : Environment}

/-- A number, name or string is read alone: no operator follows it, or a slash that separates numbers. -/
theorem statement_of_listed {first : Token} {others : Tokens} (listed : ∀ token ∈ first :: others, token.IsListed)
    (solid : first.isBlank = false) (noSlash : first.isMark "/" = false)
    (separates : separatesFrom first.kind.isNumeric (visible others) = true) :
    ∃ shorter, env.statement false (first :: others) = .ok (.found first.value others shorter) := by
  have trimmed := trimLeft_cons_of_solid solid others
  have read := (listed first mem_cons_self).literal? solid noSlash env false
  have uncalled : headIs others .parenOpen = false := by
    cases others with
    | nil => rfl
    | cons next others =>
      have apart := (listed next (mem_cons_of_mem _ mem_cons_self)).kind_ne_parenOpen
      simpa [headIs, headKind?] using apart
  cases start : trimLeft others with
  | nil => exact statement_of_alone read (fun _ => uncalled) (operator?_of_nil start)
  | cons next after =>
    cases slash : next.isMark "/" with
    | false =>
      refine statement_of_alone read (fun _ => uncalled) (operator?_of_kind start fun other => ?_)
      have member : next ∈ others := mem_of_mem_trimLeft (by rw [start]; exact mem_cons_self)
      have kind := (listed next (mem_cons_of_mem _ member)).kind
      simp [Token.isBlank, other, slash, Kind.isBlank, Kind.isNumeric] at kind
    | true =>
      -- The slash is an operator, but outside parentheses none between two written numbers.
      rw [visible_of_trimLeft start, separatesFrom, slash] at separates
      simp only [Bool.not_true, Bool.false_or, Bool.and_eq_true] at separates
      obtain ⟨⟨numeric, numeric'⟩, _⟩ := separates
      cases start' : trimLeft after with
      | nil =>
        rw [visible_of_nil start'] at numeric'
        cases numeric'
      | cons number more =>
        rw [visible_of_trimLeft start'] at numeric'
        obtain ⟨found, next_, divide, behind⟩ := operator?_slash start slash start' numeric'
        exact statement_of_slash trimmed read numeric next_ divide behind

/-- The items of the list are written one by one. -/
theorem evaluateItems_of_listed {tokens : Tokens} (listed : ∀ token ∈ tokens, token.IsListed)
    (written : ∀ token ∈ tokens, token.isBlank = false → token.isMark "/" = false →
      token.value.toToken token = token.printed)
    {numeric : Bool} (separates : separatesFrom numeric tokens.visible = true) (last : Option Kind) :
    ∃ out, env.evaluateItems false last tokens = .ok out ∧ visible out = tokens.visible.map Token.printed := by
  induction size : tokens.length using Nat.strongRecOn generalizing tokens numeric last with
  | ind size ih =>
    subst size
    cases start : tokens.trimLeft with
    | nil => exact ⟨[], evaluateItems_of_nil start, by rw [visible_of_nil start]; rfl⟩
    | cons first others =>
      have solid := isBlank_of_trimLeft start
      rw [visible_of_trimLeft start, separatesFrom, Bool.and_eq_true] at separates
      have inside : ∀ token ∈ first :: others, token ∈ tokens :=
        fun token member => mem_of_mem_trimLeft (by rwa [start])
      have further := ih others.length (tokens.length_lt_of_trimLeft start)
        (fun token member => listed token (inside token (mem_cons_of_mem _ member)))
        (fun token member => written token (inside token (mem_cons_of_mem _ member))) separates.2
      -- One token is written for the first one, behind a space or not.
      have step {token : Token} {out : Tokens} (same : token = first.printed)
          (rest : visible out = (visible others).map Token.printed) :
          visible (gap last tokens ++ token :: out) = tokens.visible.map Token.printed := by
        have solid' : token.isBlank = false := by rw [same, Token.isBlank, Token.kind_printed]; exact solid
        rw [visible_append, visible_gap, nil_append, visible_cons solid', rest,
          visible_of_trimLeft start, map_cons, same]
      cases slash : first.isMark "/" with
      | true =>
        obtain ⟨out, done, rest⟩ := further (some first.kind) rfl
        have mark := slash
        simp only [Token.isMark, Bool.and_eq_true, beq_iff_eq] at mark
        refine ⟨gap last tokens ++ first :: out, ?_, step ?_ rest⟩
        · rw [evaluateItems_of_plain start (by rw [mark.1]; rfl) (fun _ => by rw [mark.2]; decide), done]
          rfl
        · rw [Token.printed, if_neg (by rw [mark.1]; decide)]
      | false =>
        obtain ⟨out, done, rest⟩ := further (some first.value.tokenKind) rfl
        obtain ⟨shorter, read⟩ := statement_of_listed (fun token member => listed token (inside token member)) solid slash
          separates.2
        refine ⟨gap last tokens ++ first.value.toToken first :: out, ?_, step ?_ rest⟩
        · rw [evaluateItems_of_found start read, done]
          rfl
        · exact written first (inside first mem_cons_self) solid slash

end Environment

namespace Scope

/-- Outside parentheses, scanned numbers, names, strings and slashes between numbers are evaluated, and
come out in their order. Only the spelling of a number can change. -/
theorem slashes_between_numbers_stay (library : Library) (scope : Scope) {source text : String} {tokens : Tokens}
    (scanned : tokens ⊆ (Scan.ofText source text).tokens) (listed : ∀ token ∈ tokens, token.IsListed)
    (separates : tokens.SeparatesNumbers) {processor : Processor} (outside : processor.parens = 0) :
    ∃ out, Processing.Keeps ((scope.setting library).value tokens) processor (.ok out) ∧
      List.Forall₂ Token.PrintedAs tokens.visible (visible out) := by
  have kept := (handles_setting library scope processor.evaluating).value processor.parens tokens
  have grouped : (processor.parens != 0) = false := by simp [outside]
  rw [grouped, Environment.evaluate] at kept
  split at kept
  · obtain ⟨out, done, visible⟩ := Environment.evaluateItems_of_listed listed
      (fun token member solid other => (listed token member).toToken_value solid other (scanned member))
      ((separatesNumbers_iff tokens).mp separates) none
    rw [done] at kept
    refine ⟨out, kept, ?_⟩
    rw [visible, forall₂_map_right_iff]
    refine forall₂_same.mpr fun token member => ?_
    exact Token.printedAs_printed (scanned (mem_of_mem_filter member))
  · -- Nothing is computed, so all tokens stay.
    rw [Environment.mapM_interpolateToken_of_unmarked _ false fun token member => (listed token member).unmarked] at kept
    exact ⟨tokens, kept, forall₂_same.mpr fun token _ => .inl rfl⟩

theorem isListed_of_all {tokens : Tokens} (each : tokens.all (fun token => !token.text.toList.contains '@' &&
      (token.isBlank || token.kind.isNumeric || token.kind == .identifier || token.kind == .string ||
        token.isMark "/")) = true) : ∀ token ∈ tokens, token.IsListed := by
  intro token member
  have one := all_eq_true.mp each token member
  simp only [Bool.and_eq_true, Bool.or_eq_true, Bool.not_eq_true', contains_eq_mem, decide_eq_false_iff_not,
    beq_iff_eq] at one
  exact ⟨fun marked => one.1 marked.at_mem, by simpa only [or_assoc] using one.2⟩

def shorthand : Tokens := (Scan.ofText "in" "italic 12px/1.50 'a \\'b' 1 / 2 /-.5em thin").tokens

theorem shorthand_stays : (∀ token ∈ shorthand, token.IsListed) ∧ shorthand.SeparatesNumbers ∧
    ∃ out, Processing.Keeps ((Scope.setting .builtin []).value shorthand) .fresh (.ok out) ∧
      List.Forall₂ Token.PrintedAs shorthand.visible (visible out) ∧
      text out = "italic 12px/1.5 'a \\'b' 1 / 2 /-0.5em thin" := by
  have listed : ∀ token ∈ shorthand, token.IsListed := isListed_of_all (by decide +kernel)
  have separates : shorthand.SeparatesNumbers := (separatesNumbers_iff _).mpr (by decide +kernel)
  have scanned : shorthand ⊆ (Scan.ofText "in" _).tokens := List.Subset.refl _
  have checked : (((Scope.setting .builtin []).value shorthand).run.run .fresh).any (fun ended => ended.1.toOption.any
      fun out => text out == "italic 12px/1.5 'a \\'b' 1 / 2 /-0.5em thin") = true := by
    decide +kernel
  obtain ⟨out, keeps, printed⟩ := slashes_between_numbers_stay .builtin [] scanned listed separates
    (show Processor.fresh.parens = 0 from rfl)
  rw [keeps] at checked
  exact ⟨listed, separates, out, keeps, printed, beq_iff_eq.mp checked⟩

def halfNamed : Tokens := (Scan.ofText "in" "12px/normal").tokens

/-- A slash in front of a name divides, and is refused. -/
theorem halfNamed_refused : (∀ token ∈ halfNamed, token.IsListed) ∧
    ∃ error, Processing.Keeps ((Scope.setting .builtin []).value halfNamed) .fresh (.error error) := by
  have checked : (((Scope.setting .builtin []).value halfNamed).run.run .fresh).any (fun ended =>
      ended.1.toOption.isNone) = true := by
    decide +kernel
  obtain ⟨result, keeps⟩ : ∃ result, Processing.Keeps ((Scope.setting .builtin []).value halfNamed) .fresh result :=
    ⟨_, (handles_setting .builtin [] []).value 0 _⟩
  rw [keeps] at checked
  refine ⟨isListed_of_all (by decide +kernel), ?_⟩
  cases result with
  | error error => exact ⟨error, keeps⟩
  | ok out => cases checked

end Scope

end LessCss
