import LessCss.Proofs.Expression.Markers
import LessCss.Proofs.Value.Quoting

/-! Strings in evaluated values. Main statement: if the holes of strings are filled with texts that
can stand between their quotes, and placeholders are not filled, every string of an evaluated value
is scanned back as it is written. -/

set_option autoImplicit false

namespace LessCss

open List Scan Value

namespace Text

/-! ### Filled holes -/

/-- No hole stands directly behind the backslash of an escape. -/
def holesApart : (escaped : Bool) → List Piece → Bool
  | _, [] => true
  | escaped, .char c :: rest => holesApart (!escaped && c == '\\') rest
  | escaped, .hole _ :: rest => !escaped && holesApart false rest

def Piece.text (fill : String → String) : Piece → String
  | .char c => String.singleton c
  | .hole name => fill name

theorem holesApart_map_char (escaped : Bool) (cs : List Char) : holesApart escaped (cs.map .char) = true := by
  induction cs generalizing escaped with
  | nil => rfl
  | cons c rest ih => exact ih _

theorem pieces_quote (quote : Quote) (cs : List Char) : pieces (quote.char :: cs) = .char quote.char :: pieces cs :=
  pieces_cons (by cases quote <;> rfl)

end Text

namespace Lexeme

theorem endsEscaped_cons {quote c : Char} {escaped state : Bool} {body : List Char} :
    endsEscaped quote escaped (c :: body) = some state ↔ (escaped = false → c ≠ quote ∧ c ≠ '\n') ∧
      endsEscaped quote (!escaped && c == '\\') body = some state := by
  cases escaped with
  | true => simp [endsEscaped]
  | false =>
    rw [endsEscaped]
    split
    · rename_i stop
      constructor
      · intro some_
        cases some_
      · rintro ⟨plain, _⟩
        exact absurd stop (by simp [plain rfl])
    · rename_i plain
      rw [not_or] at plain
      simp [plain]

theorem endsEscaped_of_hole {quote : Char} {state : Bool} {name after : List Char}
    (whole : endsEscaped quote false ('@' :: '\x7b' :: (name ++ '\x7d' :: after)) = some state) :
    endsEscaped quote false after = some state := by
  rw [← cons_append, ← cons_append, endsEscaped_append] at whole
  obtain ⟨escaped, _, rest⟩ := Option.bind_eq_some_iff.mp whole
  have behind := (endsEscaped_cons.mp rest).2
  rwa [show ('\x7d' == '\\') = false from rfl, Bool.and_false] at behind

theorem Closes.of_hole {quote : Char} (other : quote ≠ '\x7d') {name after : List Char}
    (closes : Closes quote false ('@' :: '\x7b' :: (name ++ '\x7d' :: after))) : Closes quote false after := by
  obtain ⟨body, same, whole⟩ := closes
  rcases eq_nil_or_concat after with rfl | ⟨front, last, rfl⟩
  · have split : ('@' :: '\x7b' :: name) ++ ['\x7d'] = body ++ [quote] := same
    cases (append_inj' split rfl).2
    exact absurd rfl other
  · rw [concat_eq_append] at same ⊢
    have split : ('@' :: '\x7b' :: (name ++ '\x7d' :: front)) ++ [last] = body ++ [quote] := by simpa using same
    obtain ⟨rfl, ends⟩ := append_inj' split rfl
    exact ⟨front, by rw [ends], endsEscaped_of_hole whole⟩

end Lexeme

namespace Environment

open Lexeme (Closes endsEscaped)

variable {env : Environment} {grouped : Bool} {at_ : Token}

/-- Filled with texts that can stand between its quotes, the rest of a string stays one. -/
theorem closes_filled {quote : Char} (other : quote ≠ '\x7d') {escaped : Bool} {cs : List Char}
    (closes : Closes quote escaped cs) (apart : Text.holesApart escaped (Text.pieces cs) = true)
    (fills : ∀ name, .hole name ∈ Text.pieces cs → Returns (env.pieceText grouped at_ (.hole name)) fun fill =>
      endsEscaped quote false fill.toList = some false) :
    Returns ((Text.pieces cs).mapM (env.pieceText grouped at_)) fun texts => Closes quote escaped (String.join texts).toList := by
  -- No escape is open in front of a hole and behind it, so that a fill changes nothing for what follows.
  fun_induction Text.pieces cs generalizing escaped with
  | case1 =>
    obtain ⟨body, same, _⟩ := closes
    simp at same
  | case2 c rest name after found ih =>
    rw [Text.holesApart, Bool.and_eq_true, Bool.not_eq_true'] at apart
    obtain ⟨rfl, apart⟩ := apart
    rw [Text.eq_of_holeAt? found] at closes
    rw [mapM_cons]
    refine (fills _ mem_cons_self).bind fun fill fits => ?_
    refine (ih (closes.of_hole other) apart fun name member => fills name (.tail _ member)).bind fun texts closes => ?_
    obtain ⟨body, same, whole⟩ := closes
    refine returns_ok ⟨fill.toList ++ body, ?_, (Lexeme.endsEscaped_append_of_body fits body).trans whole⟩
    rw [String.join_cons, String.toList_append, same, List.append_assoc]
  | case3 c rest _ ih =>
    rw [Text.holesApart] at apart
    rw [mapM_cons]
    obtain ⟨body, same, whole⟩ := closes
    cases body with
    | nil =>
      obtain ⟨rfl, rfl⟩ := List.cons.inj same
      rw [Text.pieces]
      exact returns_ok ⟨[], by simp, whole⟩
    | cons c' body =>
      obtain ⟨rfl, rfl⟩ := List.cons.inj same
      obtain ⟨plain, whole⟩ := Lexeme.endsEscaped_cons.mp whole
      refine (ih ⟨body, rfl, whole⟩ apart fun name member => fills name (.tail _ member)).bind fun texts closes => ?_
      obtain ⟨body', same', whole'⟩ := closes
      refine returns_ok ⟨c :: body', ?_, Lexeme.endsEscaped_cons.mpr ⟨plain, whole'⟩⟩
      rw [String.join_cons, String.toList_append, same', String.toList_singleton]
      rfl

/-- A string stays one if each hole is filled with what can stand between its quotes. -/
theorem literal_filled {text : String} (literal : Text.Literal text)
    (apart : Text.holesApart false (Text.pieces text.toList) = true)
    (fills : ∀ name, .hole name ∈ Text.pieces text.toList → Returns (env.pieceText grouped at_ (.hole name)) fun fill =>
      ∀ quote ∈ (Text.unquote text).2, Text.IsString (quote.around fill)) :
    Returns (env.interpolate grouped at_ text) Text.Literal := by
  obtain ⟨quote, body, spelled, whole⟩ := literal
  have quoted : (Text.unquote text).2 = some quote := by rw [Text.unquote_of_quotes spelled]
  have brace : quote.char ≠ '\x7d' := by cases quote <;> decide
  have plain : (quote.char == '\\') = false := beq_false_of_ne quote.char_ne_backslash
  rw [spelled, Text.pieces_quote] at apart fills
  rw [Text.holesApart, plain, Bool.and_false] at apart
  -- Behind the opening quote the pieces are filled so that the quote closes exactly at the end.
  have inner : Returns ((Text.pieces (body ++ [quote.char])).mapM (env.pieceText grouped at_)) fun texts =>
      Closes quote.char false (String.join texts).toList := by
    refine closes_filled brace ⟨body, rfl, whole⟩ apart fun name member => ?_
    refine (fills name (.tail _ member)).mono fun fill fits => ?_
    obtain ⟨quote', body', spelled', whole'⟩ := (fits quote quoted).literal
    rw [Text.Quote.around, String.toList_ofList] at spelled'
    obtain ⟨same, rest⟩ := List.cons.inj spelled'
    rw [← same] at rest whole'
    rw [append_cancel_right rest]
    exact whole'
  have first : Returns (env.pieceText grouped at_ (.char quote.char)) (· = String.singleton quote.char) := returns_ok rfl
  have all : Returns ((Text.pieces text.toList).mapM (env.pieceText grouped at_)) fun texts =>
      Text.Literal (String.join texts) := by
    rw [spelled, Text.pieces_quote, mapM_cons]
    refine first.bind fun text same => inner.bind fun texts closes => returns_ok ?_
    obtain ⟨body', same', whole'⟩ := closes
    refine ⟨quote, body', ?_, whole'⟩
    rw [String.join_cons, same, String.toList_append, same', String.toList_singleton]
    rfl
  exact all.bind fun _ literal => returns_ok literal

end Environment

/-! ### Filled tokens -/

/-- A token with nothing to fill: it has no brace, it is scanned back if it is a string, and it does
not stand for a percent sign. -/
structure Token.Settled (token : Token) : Prop where
  unbraced : Text.Unbraced token.text
  literal (string : token.kind = .string) : Text.Literal token.text
  other : Environment.holeText [token] ≠ "%"

theorem Token.Settled.text_ne {token : Token} (settled : token.Settled) (kind : token.kind ≠ .string) : token.text ≠ "%" := by
  have other := settled.other
  rwa [Environment.holeText, if_neg kind] at other

theorem Token.Settled.unquote_ne {token : Token} (settled : token.Settled) (kind : token.kind = .string) :
    (Text.unquote token.text).1 ≠ "%" := by
  have other := settled.other
  rwa [Environment.holeText, if_pos kind] at other

theorem Value.settled_toToken {value : Value} (free : value.Unbraced) (sound : value.Sound) (at_ : Token) :
    (value.toToken at_).Settled := by
  by_cases string : value.tokenKind = .string
  · obtain ⟨text, quote, rfl⟩ := exists_of_tokenKind string
    refine ⟨free.css, fun _ => sound.2, ?_⟩
    change (Text.unquote (quote.write text)).1 ≠ "%"
    rw [Text.unquote_write]
    exact sound.1
  · refine ⟨free.css, fun string' => absurd string' string, ?_⟩
    change (if value.tokenKind = .string then _ else value.css) ≠ "%"
    rw [if_neg string]
    exact sound.css_ne

namespace Scope

/-- In some state of the processor, the variable fills a hole with the text. -/
def Fills (library : Library) (scope : Scope) (name fill : String) : Prop :=
  ∃ processor at_, Processing.Keeps ((scope.setting library).pieceText at_ (.hole name)) processor (.ok fill)

/-- Braces stand in holes only, no hole follows the backslash of an escape, and the texts of the
holes have no braces and can stand between the quotes. Filled, the token is not a percent sign. -/
structure WellFilled (library : Library) (scope : Scope) (token : Token) : Prop where
  fillable : token.Fillable
  apart : token.kind = .string → Text.holesApart false (Text.pieces token.text.toList) = true
  unbraced : ∀ name, .hole name ∈ Text.pieces token.text.toList → ∀ fill, scope.Fills library name fill →
    Text.Unbraced fill
  quoted : token.kind = .string → ∀ quote ∈ (Text.unquote token.text).2,
    ∀ name, .hole name ∈ Text.pieces token.text.toList → ∀ fill, scope.Fills library name fill →
      Text.IsString (quote.around fill)
  -- A computed name can come to stand in front of a group, and a percent sign there fills placeholders.
  other : ∀ processor filled, Processing.Keeps ((scope.setting library).interpolateToken token) processor (.ok filled) →
    Environment.holeText [filled] ≠ "%"

variable {library : Library} {scope : Scope} {active : List String} {grouped : Bool}

theorem exists_parens (grouped : Bool) : ∃ parens : Nat, (parens != 0) = grouped :=
  ⟨grouped.toNat, by cases grouped <;> rfl⟩

theorem returns_of_fills {post : String → Prop} {name : String} (each : ∀ fill, scope.Fills library name fill → post fill)
    (at_ : Token) :
    Returns (Environment.pieceText ⟨library, scope.definition? library active⟩ grouped at_ (.hole name)) post := by
  intro fill done
  obtain ⟨parens, rfl⟩ := exists_parens grouped
  have keeps := (handles_setting library scope active).piece parens at_ (.hole name)
  rw [done] at keeps
  exact each fill ⟨_, at_, keeps⟩

theorem WellFilled.settled {token : Token} (filled : scope.WellFilled library token)
    (literal : token.kind = .string → Text.Literal token.text) :
    Returns (Environment.interpolate ⟨library, scope.definition? library active⟩ grouped token token.text) fun text =>
      Token.Settled { token with text } := by
  intro text done
  refine ⟨?_, fun string => ?_, ?_⟩
  · refine Environment.unbraced_filled filled.fillable.onlyHoles (fun name member => ?_) text done
    exact returns_of_fills (filled.unbraced name member) token
  · refine Environment.literal_filled (literal string) (filled.apart string) (fun name member => ?_) text done
    exact returns_of_fills (fun fill fills quote quoted => filled.quoted string quote quoted name member fill fills) token
  · obtain ⟨parens, rfl⟩ := exists_parens grouped
    have keeps := (handles_setting library scope active).interpolateToken parens token
    rw [Environment.interpolateToken, done] at keeps
    exact filled.other _ _ keeps

theorem wellFilled_of_settled {token : Token} (settled : token.Settled) : scope.WellFilled library token := by
  have unmarked := settled.unbraced.unmarked
  have pieces : Text.pieces token.text.toList = token.text.toList.map .char :=
    Text.pieces_of_unmarked (by rwa [String.ofList_toList])
  have none_ (name : String) : .hole name ∉ Text.pieces token.text.toList := by simp [pieces]
  refine ⟨.inl settled.unbraced, fun _ => ?_, fun name member => absurd member (none_ name),
    fun _ _ _ name member => absurd member (none_ name), fun processor filled keeps => ?_⟩
  · rw [pieces]
    exact Text.holesApart_map_char false _
  · have same := keeps.unique ((handles_setting library scope processor.evaluating).interpolateToken processor.parens token)
    rw [Environment.interpolateToken_of_unmarked _ _ unmarked] at same
    cases same
    exact settled.other

end Scope

namespace Environment

def strings (scope : Scope) : Flow where
  token token := scope.WellFilled .builtin token ∧ (token.kind = .string → Text.Literal token.text) ∧
    (token.kind = .parenOpen → token.text = "(")
  value value := value.Unbraced ∧ value.Sound
  written out := ∀ token ∈ out, token.kind = .string → Text.Literal token.text

variable {scope : Scope} {active : List String} (known : (strings scope).KnowsAll ⟨.builtin, scope.definition? .builtin active⟩)

theorem settled_of_unmarked {token : Token} (fine : (strings scope).token token) (unmarked : ¬Text.Marked token.text) :
    token.Settled := by
  have filled : Returns (interpolate ⟨.builtin, scope.definition? .builtin []⟩ false token token.text) fun text =>
      Token.Settled { token with text } := fine.1.settled fine.2.1
  exact filled token.text (interpolate_of_unmarked _ _ unmarked token)

theorem settled_of_kind {token : Token} (fine : (strings scope).token token) (kind : token.kind.isFilled = false) :
    token.Settled :=
  settled_of_unmarked fine (fine.1.fillable.unbraced kind).unmarked

theorem text_ne {token : Token} (fine : (strings scope).token token) : token.text ≠ "%" := by
  intro same
  have settled := settled_of_unmarked fine (by rw [same]; exact Text.Unbraced.unmarked (by decide))
  by_cases string : token.kind = .string
  · obtain ⟨quote, body, spelled, _⟩ := fine.2.1 string
    rw [same] at spelled
    simpa using congrArg List.length spelled
  · exact settled.text_ne string same

theorem settled_interpolateToken (grouped : Bool) {token : Token} (fine : (strings scope).token token) :
    Returns (interpolateToken ⟨.builtin, scope.definition? .builtin active⟩ grouped token) Token.Settled :=
  (fine.1.settled fine.2.1).bind fun _ settled => returns_ok settled

include known

theorem sound_literal (grouped : Bool) {token : Token} (fine : (strings scope).token token) :
    Returns (literal? ⟨.builtin, scope.definition? .builtin active⟩ grouped token) fun value? =>
      ∀ value ∈ value?, (strings scope).value value := by
  have filled : Returns (interpolate ⟨.builtin, scope.definition? .builtin active⟩ grouped token token.text) fun text =>
      Token.Settled { token with text } := fine.1.settled fine.2.1
  have one {read : String → Value} {text : String} (free : (read text).Unbraced) (sound : (read text).Sound) :
      ∀ value ∈ (some ∘ read) text, (strings scope).value value := by
    rintro value ⟨⟩
    exact ⟨free, sound⟩
  rw [literal?]
  cases kind : token.kind with
  | string =>
    refine filled.map fun text settled => ?_
    have sound := sound_ofStringLiteral (settled.literal kind) (settled.unquote_ne kind)
    exact one (unbraced_ofStringLiteral settled.unbraced) sound
  | url =>
    refine filled.map fun text settled value found => ?_
    obtain ⟨inner, quote, same, free⟩ := exists_ofUrlLiteral settled.unbraced
    rw [Function.comp_apply, same] at found
    cases found
    exact ⟨free, trivial⟩
  | identifier =>
    refine filled.map fun text settled => ?_
    have other := settled.text_ne (by simp [kind])
    exact one (unbraced_ofIdentifier settled.unbraced) (sound_ofIdentifier other)
  | atKeyword => exact known.valueOf grouped token.text token
  | hash =>
    have settled := settled_of_kind fine (by rw [kind]; rfl)
    exact returns_ok (one (unbraced_ofHash settled.unbraced) (sound_ofHash (text_ne fine)))
  | number | percentage | dimension =>
    have settled := settled_of_kind fine (by rw [kind]; rfl)
    exact returns_ok (one (unbraced_ofNumeric settled.unbraced) (sound_ofNumeric (text_ne fine)))
  | _ =>
    refine returns_ok fun value found => ?_
    cases found

theorem admits_strings : (strings scope).Admits ⟨.builtin, scope.definition? .builtin active⟩ where
  literal grouped fine := sound_literal known grouped fine
  variable_ := known.valueOf
  escaped grouped fine kind :=
    (fine.1.settled fine.2.1).map fun _ settled => ⟨settled.unbraced.unquote, settled.unquote_ne kind⟩
  keyword fine kind := ⟨(settled_of_kind fine kind).unbraced, text_ne fine⟩
  argument _ fine opens separates := by
    rw [fine.2.2 opens] at separates
    cases separates
  zero := ⟨(by decide : Text.Unbraced ""), trivial⟩
  operate {lhs rhs} mark op left right := by
    rw [operate]
    cases done : lhs.operate op rhs with
    | ok value => exact returns_ok ⟨left.1.operate right.1 done, sound_operate done⟩
    | error cause => exact returns_error
  call {name arguments} fine each := by
    intro value done
    have free := unbraced_call Library.unbraced_builtin name.text name fun argument member => (each argument member).1
    have sound := Library.sound_call (absurd · (text_ne fine)) fun argument member => (each argument member).2
    exact ⟨free value done, sound value done⟩
  -- What is written back may be read again, and has no holes left then.
  writtenBack at_ holds := by
    have settled := settled_toToken holds.1 holds.2 at_
    exact ⟨Scope.wellFilled_of_settled settled, settled.literal, fun opens => absurd opens (tokenKind_ne _ rfl)⟩
  nil := forall_mem_nil _
  append front back := forall_mem_append.mpr ⟨front, back⟩
  space := forall_mem_singleton.mpr fun string => absurd string (by decide)
  computed at_ holds := forall_mem_singleton.mpr (settled_toToken holds.1 holds.2 at_).literal
  resolved := known.resolve
  filled grouped fine _ :=
    (settled_interpolateToken grouped fine).mono fun _ settled => forall_mem_singleton.mpr settled.literal
  copied fine _ _ := forall_mem_singleton.mpr fine.2.1
  deferred grouped fine kind opens _ := by
    obtain ⟨name, rest⟩ := forall_mem_cons.mp fine
    obtain ⟨opening, group⟩ := forall_mem_cons.mp rest
    refine (known.substitute (fun _ => id) (fun token member _ => (group token member).2.1) grouped).mono fun _ each => ?_
    exact forall_mem_cons.mpr ⟨name.2.1, forall_mem_cons.mpr ⟨opening.2.1, each⟩⟩
  untouched grouped fine _ := (returns_mapM _ fun token member => settled_interpolateToken grouped (fine token member)).mono
    fun _ settled token member => (settled token member).literal

end Environment

/-! ### Values in a scope -/

namespace Scope

/-- Scanned tokens, whose holes are well filled. -/
structure AllFilled (library : Library) (scope : Scope) (tokens : Tokens) : Prop where
  scanned : ∃ source text, tokens ⊆ (ofText source text).tokens
  filled : ∀ token ∈ tokens, scope.WellFilled library token

theorem AllFilled.strings {scope : Scope} {tokens : Tokens} (fine : scope.AllFilled .builtin tokens) :
    ∀ token ∈ tokens, (Environment.strings scope).token token := by
  obtain ⟨source, text, scanned⟩ := fine.scanned
  intro token member
  exact ⟨fine.filled token member, literal_of_string (scanned member), text_of_parenOpen (scanned member)⟩

theorem knowsAll_strings {scope : Scope} (vars : ∀ name value, scope.find? name = some value → scope.AllFilled .builtin value)
    (active : List String) : (Environment.strings scope).KnowsAll ⟨.builtin, scope.definition? .builtin active⟩ := by
  refine Flow.knowsAll_definition? (fun name value found => (vars name value found).strings)
    (fun _ known => Environment.admits_strings known) ?_ active
  exact fun _ written token member => written token (Tokens.mem_of_mem_trim member)

/-- Where holes are well filled and no token is a percent sign, each string of an evaluated value is
scanned back as one string. So is a string with filled placeholders, if there is no backslash and no
end of a line in the format and in what is shown; a value may begin with such a call. -/
theorem strings_scanned_back {scope : Scope}
    (vars : ∀ name value, scope.find? name = some value → scope.AllFilled .builtin value) {tokens : Tokens}
    (fine : scope.AllFilled .builtin tokens) (processor : Processor) :
    (∃ result, Processing.Keeps ((scope.setting .builtin).value tokens) processor result ∧
      Returns result fun out => ∀ token ∈ out, token.kind = .string → Text.IsString token.text) ∧
    (∀ (format : String) (quote : Text.Quote) (values : List Value), (∀ c ∈ format.toList, c ≠ '\\' ∧ c ≠ '\n') →
      (∀ value ∈ values, ∀ mark, ∀ c ∈ (Builtin.placeholderText mark value).toList, c ≠ '\\' ∧ c ≠ '\n') →
      Text.IsString (Builtin.formatString (.string format (some quote) :: values)).css) ∧
    ∀ percent opening : Token, percent.isMark "%" = true → opening.kind = .parenOpen →
      (∀ read, Processing.Keeps (Processing.grouped ((scope.setting .builtin).arguments percent tokens)) processor
        (.ok read) → Builtin.Smooth read.result) →
      ∃ result, Processing.Keeps ((scope.setting .builtin).value (percent :: opening :: tokens)) processor result ∧
        Returns result fun out => ∀ token ∈ out, token.kind = .string → Text.IsString token.text := by
  have known := knowsAll_strings vars processor.evaluating
  have admits := Environment.admits_strings known
  have handles := handles_setting .builtin scope processor.evaluating
  have isString {out : Tokens} (literal : (Environment.strings scope).written out) (token : Token) (member : token ∈ out)
      (string : token.kind = .string) : Text.IsString token.text := (literal token member string).isString
  refine ⟨⟨_, handles.value processor.parens tokens, ?_⟩,
    fun format quote values smooth shown => (Builtin.literal_formatString smooth shown).isString, ?_⟩
  · exact (Flow.written_evaluate admits _ tokens fine.strings).mono fun _ => isString
  · intro percent opening sign opens smooth
    refine ⟨_, handles.value processor.parens (percent :: opening :: tokens), ?_⟩
    have called (read : Upto tokens.length (List Value))
        (done : Environment.arguments ⟨.builtin, scope.definition? .builtin processor.evaluating⟩ percent tokens = .ok read) :
        Builtin.Smooth read.result :=
      smooth read (done ▸ Processing.keeps_grouped (handles.arguments processor.parens percent tokens))
    refine (Flow.written_format admits _ sign opens tokens fine.strings fun read done each => ?_).mono fun _ => isString
    intro value same
    have free := Environment.unbraced_call Library.unbraced_builtin percent.text percent fun argument member =>
      (each argument member).1
    have sound : Returns (Library.builtin.call percent.text percent read.result) Value.Sound :=
      Library.sound_call (fun _ => called read done) fun argument member => (each argument member).2
    exact ⟨free value same, sound value same⟩

/-! ### Variables with nothing to compute -/

theorem Fills.eq_of_plain {library : Library} {scope : Scope} {name fill : String} {value : Tokens}
    (fills : scope.Fills library name fill) (found : scope.find? ("@" ++ name) = some value)
    (nothing : value.computes library = false) (unmarked : ∀ token ∈ value, ¬Text.Marked token.text) :
    fill = Environment.holeText value.trim := by
  obtain ⟨processor, at_, keeps⟩ := fills
  have same := keeps.unique ((handles_setting library scope processor.evaluating).piece processor.parens at_ (.hole name))
  rw [Environment.pieceText] at same
  dsimp only at same
  rw [definition?_found found] at same
  dsimp only at same
  split at same
  · cases same
  · rw [Definition.ofTokens] at same
    dsimp only at same
    rw [Environment.evaluate, if_neg (by simp [nothing]), Environment.mapM_interpolateToken_of_unmarked _ _ unmarked] at same
    exact Except.ok.inj same

theorem text_of_fills {library : Library} {scope : Scope} {processor : Processor} {token filled : Token}
    {fill : String → String}
    (each : ∀ name, .hole name ∈ Text.pieces token.text.toList → ∀ text, scope.Fills library name text → text = fill name)
    (keeps : Processing.Keeps ((scope.setting library).interpolateToken token) processor (.ok filled)) :
    filled = { token with text := String.join ((Text.pieces token.text.toList).map (Text.Piece.text fill)) } := by
  have pieces : ∀ piece ∈ Text.pieces token.text.toList, Returns (Environment.pieceText
      ⟨library, scope.definition? library processor.evaluating⟩ (processor.parens != 0) token piece) (· = piece.text fill) := by
    intro piece member
    cases piece with
    | char c => exact returns_ok rfl
    | hole name => exact returns_of_fills (each name member) token
  have text : Returns (Environment.interpolate ⟨library, scope.definition? library processor.evaluating⟩
      (processor.parens != 0) token token.text)
      (· = String.join ((Text.pieces token.text.toList).map (Text.Piece.text fill))) :=
    (returns_mapM_map _ pieces).bind fun texts all => returns_ok (congrArg String.join all)
  have whole : Returns (Environment.interpolateToken ⟨library, scope.definition? library processor.evaluating⟩
      (processor.parens != 0) token)
      (· = { token with text := String.join ((Text.pieces token.text.toList).map (Text.Piece.text fill)) }) :=
    text.bind fun text same => returns_ok (by rw [same])
  have same := keeps.unique ((handles_setting library scope processor.evaluating).interpolateToken processor.parens token)
  exact whole filled same.symm

def quoting : Scope := [⟨[("@who", (ofText "in" "\"it's\"").tokens)]⟩]

def quotes : Tokens := (ofText "in" "\"<@\x7bwho\x7d>\" calc(@who) (\"a\\\"b\") e(\"it's\")").tokens

theorem fills_quoting {fill : String} (fills : quoting.Fills .builtin "who" fill) : fill = "it's" := by
  have found : quoting.find? ("@" ++ "who") = some (ofText "in" "\"it's\"").tokens := by decide +kernel
  have unmarked : ((ofText "in" "\"it's\"").tokens.all fun token => decide (Text.Unbraced token.text)) = true := by
    decide +kernel
  have text : Environment.holeText (Tokens.trim (ofText "in" "\"it's\"").tokens) = "it's" := by decide +kernel
  refine (fills.eq_of_plain found (by decide +kernel) fun token member => ?_).trans text
  exact (of_decide_eq_true (all_eq_true.mp unmarked token member)).unmarked

theorem wellFilled_quoting {token : Token} (kind : token.kind = .string) (text : token.text = "\"<@\x7bwho\x7d>\"") :
    quoting.WellFilled .builtin token := by
  have holes : ((Text.pieces token.text.toList).all fun
      | .char _ => true
      | .hole name => name == "who") = true := by
    rw [text]
    decide +kernel
  have fills : ∀ name, .hole name ∈ Text.pieces token.text.toList →
      ∀ fill, quoting.Fills .builtin name fill → fill = "it's" := by
    intro name member fill fills
    cases beq_iff_eq.mp (all_eq_true.mp holes _ member)
    exact fills_quoting fills
  refine ⟨?_, fun _ => ?_, fun name member fill from_ => ?_, fun _ quote quoted name member fill from_ => ?_,
    fun _ filled keeps => ?_⟩
  · exact .inr ⟨by rw [kind]; rfl, by rw [text]; decide +kernel⟩
  · rw [text]
    decide +kernel
  · rw [fills name member fill from_]
    decide
  · have double : (Text.unquote token.text).2 = some .double := by
      rw [text]
      decide +kernel
    cases double.symm.trans quoted
    rw [fills name member fill from_]
    exact Text.Literal.isString ⟨.double, "it's".toList, by decide +kernel, by decide +kernel⟩
  · rw [text_of_fills fills keeps, Environment.holeText, if_pos kind, text]
    change (Text.unquote (String.join _)).1 ≠ "%"
    decide +kernel

def formatted : Tokens := (ofText "in" "\"<%d>\", @who)").tokens

def isFormatted : List Value → Bool
  | [.string format (some .double), .string text (some .double)] => format == "<%d>" && text == "it's"
  | _ => false

theorem eq_of_isFormatted {values : List Value} (found : isFormatted values = true) :
    values = [.string "<%d>" (some .double), .string "it's" (some .double)] := by
  unfold isFormatted at found
  split at found
  · rw [Bool.and_eq_true, beq_iff_eq, beq_iff_eq] at found
    rw [found.1, found.2]
  · cases found

/-- Strings are scanned back in a group, in an operand and with a filled hole, and with a filled placeholder. -/
theorem quotes_scanned_back : ∃ out out', Processing.Keeps ((quoting.setting .builtin).value quotes) .fresh (.ok out) ∧
    Tokens.text out = "\"<it's>\" calc(\"it's\") \"a\\\"b\" it's" ∧
    (∀ token ∈ out, token.kind = .string → Text.IsString token.text) ∧
    Text.IsString (Builtin.formatString [.string "<%d>" (some .double), .string "it's" (some .double)]).css ∧
    Processing.Keeps ((quoting.setting .builtin).value
      (.synthetic .other "%" :: .synthetic .parenOpen "(" :: formatted)) .fresh (.ok out') ∧
    Tokens.text out' = "\"<\\\"it's\\\">\"" ∧ ∀ token ∈ out', token.kind = .string → Text.IsString token.text := by
  have settled {source text : String} {token : Token} (member : token ∈ (ofText source text).tokens)
      (plain : (decide (Text.Unbraced token.text) && Environment.holeText [token] != "%") = true) : token.Settled := by
    rw [Bool.and_eq_true, decide_eq_true_eq, bne_iff_ne] at plain
    exact ⟨plain.1, literal_of_string member, plain.2⟩
  have allFilled {source text : String} (each : ((ofText source text).tokens.all fun token =>
      decide (Text.Unbraced token.text) && Environment.holeText [token] != "%" ||
        token.kind == .string && token.text == "\"<@\x7bwho\x7d>\"") = true) :
      quoting.AllFilled .builtin (ofText source text).tokens := by
    refine ⟨⟨_, _, List.Subset.refl _⟩, fun token inside => ?_⟩
    rcases Bool.or_eq_true_iff.mp (all_eq_true.mp each token inside) with plain | hole
    · exact wellFilled_of_settled (settled inside plain)
    · rw [Bool.and_eq_true, beq_iff_eq, beq_iff_eq] at hole
      exact wellFilled_quoting hole.1 hole.2
  have vars : ∀ name value, quoting.find? name = some value → quoting.AllFilled .builtin value := by
    intro name value found
    obtain ⟨vars, member, defined⟩ := mem_of_find? found
    cases mem_singleton.mp member
    cases mem_singleton.mp defined
    exact allFilled (by decide +kernel)
  have smooth {text : String} (all : (text.toList.all fun c => c != '\\' && c != '\n') = true) :
      ∀ c ∈ text.toList, c ≠ '\\' ∧ c ≠ '\n' := by
    intro c member
    simpa using all_eq_true.mp all c member
  have shown : ∀ mark, ∀ c ∈ (Builtin.placeholderText mark (.string "it's" (some .double))).toList,
      c ≠ '\\' ∧ c ≠ '\n' := by
    intro mark
    rw [Builtin.placeholderText]
    split
    · split <;> exact smooth (by decide +kernel)
    · split <;> exact smooth (by decide +kernel)
  have checked : (((quoting.setting .builtin).value quotes).run.run .fresh).any (fun ended =>
      ended.1.toOption.any fun out => Tokens.text out == "\"<it's>\" calc(\"it's\") \"a\\\"b\" it's") = true := by
    decide +kernel
  have checked' : (((quoting.setting .builtin).value
      (.synthetic .other "%" :: .synthetic .parenOpen "(" :: formatted)).run.run .fresh).any (fun ended =>
        ended.1.toOption.any fun out => Tokens.text out == "\"<\\\"it's\\\">\"") = true := by
    decide +kernel
  have read : ((Processing.grouped ((quoting.setting .builtin).arguments (.synthetic .other "%") formatted)).run.run
      .fresh).any (fun ended => ended.1.toOption.any fun read => isFormatted read.result) = true := by
    decide +kernel
  have fine : quoting.AllFilled .builtin quotes := allFilled (by decide +kernel)
  have fine' : quoting.AllFilled .builtin formatted := allFilled (by decide +kernel)
  obtain ⟨out, keeps, text⟩ := exists_of_run .builtin quoting checked
  obtain ⟨out', keeps', text'⟩ := exists_of_run .builtin quoting checked'
  obtain ⟨⟨result, known, strings⟩, placeholders, _⟩ := strings_scanned_back vars fine .fresh
  obtain ⟨_, _, formats⟩ := strings_scanned_back vars fine' .fresh
  obtain ⟨result', known', strings'⟩ := formats (.synthetic .other "%") (.synthetic .parenOpen "(") rfl rfl fun _ kept => by
    rw [kept] at read
    rw [eq_of_isFormatted read]
    exact ⟨smooth (by decide +kernel), forall_mem_singleton.mpr shown, by decide +kernel⟩
  cases keeps.unique known
  cases keeps'.unique known'
  exact ⟨out, out', keeps, beq_iff_eq.mp text, strings out rfl,
    placeholders _ _ _ (smooth (by decide +kernel)) (forall_mem_singleton.mpr shown), keeps', beq_iff_eq.mp text',
    strings' out' rfl⟩

def ending : Scope := [⟨[("@x", (ofText "in" "'a\"b'").tokens)]⟩]

/-- A quote that fills a hole is not escaped, and ends the string. -/
theorem hole_ends_string : ∃ out, Processing.Keeps
    ((ending.setting .builtin).value (ofText "in" "\"@\x7bx\x7d\"").tokens) .fresh (.ok out) ∧
    ∃ token ∈ out, token.kind = .string ∧ ¬Text.IsString token.text := by
  have checked : (((ending.setting .builtin).value (ofText "in" "\"@\x7bx\x7d\"").tokens).run.run .fresh).any
      (fun ended => ended.1.toOption.any fun out => out.any fun token =>
        token.kind == .string && token.text == "\"a\"b\"") = true := by
    decide +kernel
  have broken : (ofText "" "\"a\"b\"").complete.toOption = none := by decide +kernel
  obtain ⟨out, keeps, found⟩ := exists_of_run .builtin ending checked
  obtain ⟨token, member, found⟩ := any_eq_true.mp found
  rw [Bool.and_eq_true, beq_iff_eq, beq_iff_eq] at found
  refine ⟨out, keeps, token, member, found.1, fun string => ?_⟩
  have scanned := string ""
  rw [found.2] at scanned
  rw [scanned] at broken
  cases broken

end Scope

end LessCss
