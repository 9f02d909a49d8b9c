import LessCss.Evaluation.Statement
import LessCss.Expression.Items
import LessCss.Mixin
import LessCss.Proofs.Token.Canonical

/-! Functions on tokens that see neither places nor how long blanks are: they do the
same with tokens and with the tokens in canonical form. -/

set_option autoImplicit false

namespace LessCss

open List ParameterList

open Text (isBlank)

def Token.Proper (token : Token) : Prop := token.kind = .whitespace → token.text.toList.all Text.isBlank = true

theorem Token.text_canonical_iff {token : Token} (proper : token.Proper) {word : String}
    (solid : word.toList.all Text.isBlank = false) : token.canonical.text = word ↔ token.text = word := by
  by_cases white : token.kind = .whitespace
  · rw [text_canonical_blank white]
    constructor
    · rintro rfl
      cases solid
    · rintro rfl
      rw [proper white] at solid
      cases solid
  · rw [text_canonical white]

@[simp] theorem Token.isMark_canonical (token : Token) (text : String) :
    token.canonical.isMark text = token.isMark text := by
  by_cases white : token.kind = .whitespace
  · have other : (Kind.whitespace == Kind.other) = false := rfl
    simp [isMark, white, other]
  · simp [isMark, text_canonical white]

namespace Tokens

variable {last : Option Token} {after : List Char} {tokens : Tokens} {depth : Nat}

def Proper (tokens : Tokens) : Prop := ∀ token ∈ tokens, token.Proper

theorem Reads.proper (reads : Reads last after tokens) : Proper tokens := by
  induction tokens generalizing last with
  | nil => exact nofun
  | cons token rest ih =>
    obtain ⟨⟨c, own, spelled, read⟩, reads⟩ := reads
    refine forall_mem_cons.mpr ⟨fun white => ?_, ih reads⟩
    have blank := blank_of_whitespace (white ▸ read)
    rw [read_blank blank, Lexeme.Reading.token.injEq] at read
    obtain ⟨each, _⟩ := Lexeme.length_takeWhile_append read.2
    rw [spelled]
    simpa [blank] using each

theorem canonical_canonical (tokens : Tokens) : tokens.canonical.canonical = tokens.canonical := by
  simp only [canonical, map_map]
  refine map_congr_left fun token _ => ?_
  by_cases white : token.kind = .whitespace <;> simp [Token.canonical, Token.synthetic, white]

theorem Proper.canonical (tokens : Tokens) : Proper tokens.canonical := by
  intro token member
  obtain ⟨before, _, rfl⟩ := mem_map.mp member
  intro white
  rw [Token.text_canonical_blank (show before.kind = .whitespace from white)]
  rfl

/-! ### Trimming, brackets and branches -/

theorem canonical_trimLeft (tokens : Tokens) : (trimLeft tokens).canonical = trimLeft tokens.canonical := by
  simp only [trimLeft, canonical, dropWhile_map]
  rfl

theorem canonical_reverse (tokens : Tokens) :
    canonical (List.reverse tokens) = List.reverse (canonical tokens) :=
  map_reverse

theorem canonical_trimRight (tokens : Tokens) : (trimRight tokens).canonical = trimRight tokens.canonical := by
  have reversed := canonical_trimLeft tokens.reverse
  rw [trimRight, canonical_reverse]
  rw [trimLeft, canonical_reverse] at reversed
  rw [reversed]
  rfl

theorem canonical_trim (tokens : Tokens) : (trim tokens).canonical = trim tokens.canonical := by
  rw [trim, canonical_trimRight, canonical_trimLeft]
  rfl

theorem depthAfter_canonical (depth : Nat) (tokens : Tokens) :
    depthAfter depth tokens.canonical = depthAfter depth tokens := by
  induction tokens generalizing depth with
  | nil => rfl
  | cons token rest ih => exact ih (token.kind.depthAfter depth)

theorem separates_canonical (separator : String) (token : Token) :
    separates separator token.canonical = separates separator token := by
  by_cases white : token.kind = .whitespace
  · have other : (Kind.whitespace == Kind.other || Kind.whitespace == Kind.delimiter) = false := rfl
    simp [separates, white, other]
  · simp [separates, Token.text_canonical white]

theorem map_consHead (token : Token) (parts : List Tokens) :
    (consHead token parts).map canonical = consHead token.canonical (parts.map canonical) := by
  cases parts <;> rfl

theorem stretches_canonical (separator : String) (depth : Nat) (tokens : Tokens) :
    stretches separator depth tokens.canonical = (stretches separator depth tokens).map canonical := by
  induction tokens generalizing depth with
  | nil => rfl
  | cons token rest ih =>
    rw [canonical_cons, stretches, stretches, separates_canonical, Token.kind_canonical, ih, ih]
    split
    · rfl
    · rw [map_consHead]

theorem parts_canonical (separator : String) (tokens : Tokens) :
    parts separator tokens.canonical = (parts separator tokens).map canonical := by
  have trims : trim ∘ canonical = canonical ∘ trim := funext fun part => (canonical_trim part).symm
  have empties : (fun part : Tokens => !part.isEmpty) ∘ canonical = fun part => !part.isEmpty := by
    funext part
    cases part <;> rfl
  rw [parts, parts, stretches_canonical, map_map, trims, ← map_map, filter_map, empties]

theorem branches_canonical (tokens : Tokens) : branches tokens.canonical = tokens.branches.map canonical :=
  parts_canonical "," tokens

theorem takeGroup?_canonical (depth : Nat) (tokens : Tokens) : takeGroup? depth tokens.canonical =
    (takeGroup? depth tokens).map fun group => (canonical group.1, canonical group.2) := by
  induction tokens generalizing depth with
  | nil => rfl
  | cons token rest ih =>
    simp only [canonical_cons, takeGroup?, Token.kind_canonical, ih]
    split
    · split
      · rfl
      · simp [Function.comp_def]
    · simp only [Option.map_map]
      rfl

theorem exists_of_takeGroup? {inner rest : Tokens} (found : takeGroup? depth tokens = some (inner, rest)) :
    ∃ close, close.kind = .parenClose ∧ tokens = inner ++ close :: rest := by
  induction tokens generalizing depth inner with
  | nil => cases found
  | cons token tail ih =>
    rw [takeGroup?] at found
    split at found
    · rename_i closes
      split at found
      · cases found
        exact ⟨token, closes, rfl⟩
      · obtain ⟨⟨inner', rest'⟩, found', same⟩ := Option.map_eq_some_iff.mp found
        cases same
        obtain ⟨close, kind, rfl⟩ := ih found'
        exact ⟨close, kind, rfl⟩
    · obtain ⟨⟨inner', rest'⟩, found', same⟩ := Option.map_eq_some_iff.mp found
      cases same
      obtain ⟨close, kind, rfl⟩ := ih found'
      exact ⟨close, kind, rfl⟩

/-! ### Parameter lists -/

theorem hasTopLevel_canonical (proper : Proper tokens) {word : String} (solid : word.toList.all isBlank = false) :
    hasTopLevel word tokens.canonical = hasTopLevel word tokens := by
  have go (depth : Nat) : hasTopLevel.go word depth tokens.canonical = hasTopLevel.go word depth tokens := by
    induction tokens generalizing depth with
    | nil => rfl
    | cons token rest ih =>
      obtain ⟨first, others⟩ := forall_mem_cons.mp proper
      have same : (token.canonical.text == word) = (token.text == word) := by
        rw [Bool.eq_iff_iff, beq_iff_eq, beq_iff_eq, Token.text_canonical_iff first solid]
      rw [canonical_cons, hasTopLevel.go, hasTopLevel.go, Token.kind_canonical, same, ih others]
  exact go 0

theorem groupSeparator_canonical (proper : Proper tokens) : groupSeparator tokens.canonical = groupSeparator tokens := by
  rw [groupSeparator, groupSeparator, hasTopLevel_canonical proper rfl]

theorem isEllipsis_canonical (proper : Proper tokens) : isEllipsis tokens.canonical = isEllipsis tokens := by
  have point (token : Token) (member : token ∈ tokens) : token.canonical.text = "." ↔ token.text = "." :=
    Token.text_canonical_iff (proper token member) rfl
  rw [Bool.eq_iff_iff, isEllipsis, isEllipsis, beq_iff_eq, beq_iff_eq]
  rcases tokens with _ | ⟨a, _ | ⟨b, _ | ⟨c, rest⟩⟩⟩
  all_goals simp_all

/-- Tokens that name no variable are a parameter list only if there is no part, or one part that
begins with three points. -/
theorem isSome_ofParts? {parts : List Tokens} (filled : ∀ part ∈ parts, part ≠ [])
    (plain : ∀ part ∈ parts, ∀ token ∈ part, token.kind ≠ .atKeyword) : (ofParts? parts).isSome =
      (parts.isEmpty || (parts.head?.any isEllipsis && parts.tail.isEmpty)) := by
  cases parts with
  | nil => rfl
  | cons part parts =>
    cases part with
    | nil => exact absurd rfl (filled [] mem_cons_self)
    | cons name rest =>
      have other := plain _ mem_cons_self name mem_cons_self
      rw [ofParts?]
      cases ellipsis : isEllipsis (name :: rest) with
      | false => simp [other, ellipsis]
      | true => cases parts <;> simp [ellipsis]

theorem filled_of_mem_parts {separator : String} {part : Tokens} (member : part ∈ parts separator tokens) :
    part ≠ [] := by
  simpa using (mem_filter.mp member).2

theorem mem_of_mem_stretches {separator : String} {stretch : Tokens} {token : Token}
    (member : stretch ∈ stretches separator depth tokens) (inside : token ∈ stretch) : token ∈ tokens := by
  induction tokens generalizing depth stretch with
  | nil =>
    cases mem_singleton.mp member
    cases inside
  | cons first rest ih =>
    rw [stretches] at member
    split at member
    · rcases mem_cons.mp member with rfl | member
      · cases inside
      · exact mem_cons_of_mem _ (ih member inside)
    · obtain ⟨stretch', others, same⟩ := exists_cons_of_ne_nil
        (stretches_ne_nil separator (first.kind.depthAfter depth) rest)
      rw [same] at member
      rcases mem_cons.mp member with rfl | member
      · rcases mem_cons.mp inside with rfl | inside
        · exact mem_cons_self
        · exact mem_cons_of_mem _ (ih (by rw [same]; exact mem_cons_self) inside)
      · exact mem_cons_of_mem _ (ih (by rw [same]; exact mem_cons_of_mem _ member) inside)

theorem mem_of_mem_parts {separator : String} {part : Tokens} {token : Token}
    (member : part ∈ parts separator tokens) (inside : token ∈ part) : token ∈ tokens := by
  obtain ⟨stretch, found, rfl⟩ := mem_map.mp (mem_filter.mp member).1
  exact mem_of_mem_stretches found (mem_of_mem_trim inside)

theorem isSome_readParameters_canonical (proper : Proper tokens) (plain : ∀ token ∈ tokens, token.kind ≠ .atKeyword) :
    (read? tokens.canonical).isSome = (read? tokens).isSome := by
  rw [read?, read?, groupSeparator_canonical proper, parts_canonical]
  have plain' (part : Tokens) (member : part ∈ parts (groupSeparator tokens) tokens) (token : Token)
      (inside : token ∈ part) : token.kind ≠ .atKeyword :=
    plain token (mem_of_mem_parts member inside)
  have filled (part : Tokens) (member : part ∈ parts (groupSeparator tokens) tokens) : part ≠ [] :=
    filled_of_mem_parts member
  rw [isSome_ofParts? filled plain', isSome_ofParts?]
  · cases found : parts (groupSeparator tokens) tokens with
    | nil => rfl
    | cons part rest =>
      have proper' : Proper part := fun token inside =>
        proper token (mem_of_mem_parts (by rw [found]; exact mem_cons_self) inside)
      simp [isEllipsis_canonical proper']
  · intro part member
    obtain ⟨before, inside, rfl⟩ := mem_map.mp member
    simpa [canonical] using filled before inside
  · intro part member token inside
    obtain ⟨before, found, rfl⟩ := mem_map.mp member
    obtain ⟨other, inside', rfl⟩ := mem_map.mp inside
    exact plain' before found other inside'

/-! ### Calls -/

end Tokens

namespace MixinCall

open Tokens

section

variable {started : Bool} {token : Token}

theorem readPath_hash (hash : token.kind = .hash) (rest : Tokens) : readPath started (token :: rest) =
    (token :: (readPath true rest).1, .id token.text :: (readPath true rest).2.1, (readPath true rest).2.2) := by
  cases rest <;> simp [readPath, hash]

theorem readPath_on (hash : token.kind ≠ .hash) (on : (started && (token.isBlank || token.isMark ">")) = true)
    (rest : Tokens) : readPath started (token :: rest) =
      (token :: (readPath true rest).1, (readPath true rest).2.1, (readPath true rest).2.2) := by
  cases rest <;> simp only [readPath, if_neg hash, if_pos on]

/-- Where neither an id nor a blank goes on with a path, a class may. -/
theorem readPath_class (hash : token.kind ≠ .hash) (on : ¬(started && (token.isBlank || token.isMark ">")) = true)
    {word : Token} (cls : (token.isMark "." && word.kind == .identifier) = true) (rest : Tokens) :
    readPath started (token :: word :: rest) =
      (token :: word :: (readPath true rest).1, .cls word.text :: (readPath true rest).2.1,
        (readPath true rest).2.2) := by
  simp only [readPath, if_neg hash, if_neg on, if_pos cls]

theorem readPath_stop (hash : token.kind ≠ .hash) (on : ¬(started && (token.isBlank || token.isMark ">")) = true)
    {rest : Tokens} (cls : rest.head?.any (fun word => token.isMark "." && word.kind == .identifier) = false) :
    readPath started (token :: rest) = ([], [], token :: rest) := by
  cases rest with
  | nil => simp only [readPath, if_neg hash, if_neg on]
  | cons word rest =>
    have cls' : ¬(token.isMark "." && word.kind == .identifier) = true := by simpa using cls
    simp only [readPath, if_neg hash, if_neg on, if_neg cls']

end

theorem readPath_canonical (started : Bool) (tokens : Tokens) : readPath started tokens.canonical =
    ((readPath started tokens).1.canonical, (readPath started tokens).2.1,
      (readPath started tokens).2.2.canonical) := by
  have on' (started : Bool) (token : Token) :
      (started && (token.canonical.isBlank || token.canonical.isMark ">")) =
        (started && (token.isBlank || token.isMark ">")) := by simp
  fun_induction readPath started tokens with
  | case1 => rfl
  | case2 started token rest hash name path after found ih =>
    rw [canonical_cons, readPath_hash (show token.canonical.kind = .hash from hash), ih, found,
      Token.text_canonical (by rw [hash]; decide)]
    rfl
  | case3 started token rest hash on name path after found ih =>
    rw [canonical_cons, readPath_on (show token.canonical.kind ≠ .hash from hash) (by rw [on']; exact on), ih, found]
    rfl
  | case4 started token hash on word tail cls name path after found ih =>
    have word' : word.kind = .identifier := by simp_all
    rw [canonical_cons, canonical_cons, readPath_class (show token.canonical.kind ≠ .hash from hash)
      (by rw [on']; exact on) (by simpa using cls), ih, found, Token.text_canonical (by rw [word']; decide)]
    rfl
  | case5 started token hash on word tail cls =>
    rw [canonical_cons, canonical_cons, readPath_stop (show token.canonical.kind ≠ .hash from hash)
      (by rw [on']; exact on) (by simpa using cls)]
    rfl
  | case6 started token hash on =>
    rw [canonical_cons, readPath_stop (show token.canonical.kind ≠ .hash from hash) (by rw [on']; exact on) rfl]
    rfl

theorem readGroup?_canonical (tokens : Tokens) : readGroup? tokens.canonical =
    (readGroup? tokens).map fun group => (canonical group.1, canonical group.2) := by
  have first : headIs tokens.canonical .parenOpen = headIs tokens .parenOpen := by
    cases tokens <;> rfl
  have rest : tokens.canonical.tail = canonical tokens.tail := by
    cases tokens <;> rfl
  rw [readGroup?, readGroup?, first, rest, takeGroup?_canonical]
  split <;> rfl

theorem mem_of_readGroup? {tokens : Tokens} {group : Tokens × Tokens} (found : readGroup? tokens = some group)
    {token : Token} (member : token ∈ group.2) : token ∈ tokens := by
  rw [readGroup?] at found
  split at found
  · obtain ⟨close, _, same⟩ := exists_of_takeGroup? (show _ = some (group.1, group.2) from found)
    apply mem_of_mem_tail
    rw [same]
    simp [member]
  · cases found
    exact member

theorem isSome_readImportant?_canonical {tokens : Tokens} (proper : Proper tokens) :
    (readImportant? tokens.canonical).isSome = (readImportant? tokens).isSome := by
  have mem_trimLeft {token : Token} {tokens : Tokens} (member : token ∈ trimLeft tokens) : token ∈ tokens :=
    (dropWhile_sublist _).subset member
  -- Neither the sign nor the word is blank, so no blank can turn into one of them.
  have bang (token : Token) (member : token ∈ tokens) : (token.canonical.text = "!") = (token.text = "!") :=
    propext (Token.text_canonical_iff (proper token member) rfl)
  have word (token : Token) (member : token ∈ tokens) :
      (token.canonical.text = "important") = (token.text = "important") :=
    propext (Token.text_canonical_iff (proper token member) rfl)
  rw [readImportant?, readImportant?, ← canonical_trimLeft]
  cases found : trimLeft tokens with
  | nil => rfl
  | cons mark rest =>
    have inside (token : Token) (member : token ∈ mark :: rest) : token ∈ tokens :=
      mem_trimLeft (by rwa [found])
    simp only [canonical_cons, bang mark (inside mark mem_cons_self), ← canonical_trimLeft]
    split
    · cases found' : trimLeft rest with
      | nil => rfl
      | cons next after =>
        have member : next ∈ tokens :=
          inside next (mem_cons_of_mem _ (mem_trimLeft (by rw [found']; exact mem_cons_self)))
        have empty : List.isEmpty (trim (canonical after)) = List.isEmpty (trim after) := by
          rw [← canonical_trim]
          cases trim after <;> rfl
        simp only [canonical_cons, word next member, empty]
    · rfl

theorem isSome_read? (tokens : Tokens) : (read? tokens).isSome =
    (!(readPath false tokens.trim).2.1.isEmpty &&
      (readGroup? (readPath false tokens.trim).2.2).any fun group => (readImportant? group.2).isSome) := by
  rw [read?]
  generalize readPath false tokens.trim = found
  obtain ⟨name, path, after⟩ := found
  dsimp only
  cases path.isEmpty with
  | true => rfl
  | false =>
    cases readGroup? after with
    | none => rfl
    | some group => cases found : readImportant? group.2 <;> simp [found]

theorem readPath_append (started : Bool) (tokens : Tokens) :
    (readPath started tokens).1 ++ (readPath started tokens).2.2 = tokens := by
  fun_induction readPath started tokens <;> simp_all

theorem isSome_read?_canonical {tokens : Tokens} (proper : Proper tokens) :
    (read? tokens.canonical).isSome = (read? tokens).isSome := by
  rw [isSome_read?, isSome_read?, ← canonical_trim, readPath_canonical, readGroup?_canonical]
  have inside {token : Token} (member : token ∈ (readPath false tokens.trim).2.2) : token ∈ tokens := by
    apply mem_of_mem_trim
    rw [← readPath_append false tokens.trim]
    exact mem_append_right _ member
  cases found : readGroup? (readPath false tokens.trim).2.2 with
  | none => rfl
  | some group =>
    have proper' : Proper group.2 := by
      intro token member
      apply proper token (inside _)
      exact mem_of_readGroup? found member
    simp [isSome_readImportant?_canonical proper']

end MixinCall

namespace Statement

open Tokens

theorem splitColon?_canonical (depth : Nat) (tokens : Tokens) : splitColon? depth tokens.canonical =
    (splitColon? depth tokens).map fun parts => (parts.1.canonical, parts.2.canonical) := by
  induction tokens generalizing depth with
  | nil => rfl
  | cons token rest ih =>
    rw [canonical_cons, splitColon?, splitColon?, Token.kind_canonical, ih]
    split
    · rfl
    · simp only [Option.map_map]
      rfl

theorem declaration?_canonical (tokens : Tokens) : declaration? tokens.canonical =
    (declaration? tokens).map fun parts => (parts.1.canonical, parts.2.canonical) := by
  rw [declaration?, declaration?, splitColon?_canonical]
  cases splitColon? 0 tokens with
  | none => rfl
  | some parts =>
    have empty (part : Tokens) : List.isEmpty (canonical part) = part.isEmpty := by
      cases part <;> rfl
    have spaced (part : Tokens) : List.any (canonical part) (·.kind == .whitespace) = part.any (·.kind == .whitespace) := by
      rw [canonical, any_map]
      rfl
    simp only [Option.map_some, ← canonical_trim, empty, spaced]
    split <;> rfl

theorem stripImportant_canonical {value : Tokens} (proper : Proper value) : stripImportant value.canonical =
    ((stripImportant value).1.canonical, (stripImportant value).2) := by
  have solid (tokens : Tokens) :
      List.dropWhile Token.isBlank (canonical tokens) = canonical (tokens.dropWhile Token.isBlank) :=
    (canonical_trimLeft tokens).symm
  have kept {token : Token} {tokens : Tokens} (member : token ∈ tokens.dropWhile Token.isBlank) : token ∈ tokens :=
    (dropWhile_sublist _).subset member
  -- A token has such a text before and after, or neither time, as the text is not blank.
  have same (token : Token) (member : token ∈ value) {text : String} (word : text.toList.all Text.isBlank = false) :
      (token.canonical.text = text) = (token.text = text) :=
    propext (Token.text_canonical_iff (proper token member) word)
  rw [stripImportant, stripImportant, ← canonical_reverse, solid]
  cases found : List.dropWhile Token.isBlank value.reverse with
  | nil => exact congrArg (·, false) (canonical_trimRight value).symm
  | cons word rest =>
    have inside (token : Token) (member : token ∈ word :: rest) : token ∈ value :=
      mem_reverse.mp (kept (by rwa [found]))
    simp only [canonical_cons, solid]
    cases found' : List.dropWhile Token.isBlank rest with
    | nil => exact congrArg (·, false) (canonical_trimRight value).symm
    | cons mark front =>
      have member : mark ∈ value :=
        inside mark (mem_cons_of_mem _ (kept (by rw [found']; exact mem_cons_self)))
      have first := same word (inside word mem_cons_self) (show "important".toList.all _ = false from rfl)
      have second := same mark member (show "!".toList.all _ = false from rfl)
      simp only [canonical_cons, first, second, solid]
      split
      · rw [← canonical_reverse]
      · rw [canonical_trimRight]

end Statement

namespace Tokens

variable {tokens : Tokens}

theorem computes_canonical (library : Library) (tokens : Tokens) :
    computes library tokens.canonical = computes library tokens := by
  induction tokens with
  | nil => rfl
  | cons token rest ih =>
    have first : headIs (canonical rest) .parenOpen = headIs rest .parenOpen := by
      cases rest <;> rfl
    rw [canonical_cons, computes, computes, ih, Token.kind_canonical, first]
    cases kind : token.kind <;> simp [kind, Token.text_canonical]

theorem renderFrom_canonical (written pending : Bool) (solid : ∀ token ∈ tokens, token.kind ≠ .comment) :
    Css.renderFrom written pending tokens.canonical = Css.renderFrom written pending tokens := by
  induction tokens generalizing written pending with
  | nil => rfl
  | cons token rest ih =>
    have others := (forall_mem_cons.mp solid).2
    rw [canonical_cons, Css.renderFrom, Css.renderFrom, Token.isBlank_canonical]
    cases blank : token.isBlank with
    | true => exact ih _ _ others
    | false => simp only [Token.text_canonical (kind_of_not_blank blank).1, ih _ _ others]

theorem render_canonical (solid : ∀ token ∈ tokens, token.kind ≠ .comment) :
    Css.render tokens.canonical = Css.render tokens := by
  rw [Css.render, Css.render, renderFrom_canonical false false solid]

theorem map_render_of_canonical {list others : List Tokens} (same : list.map canonical = others.map canonical)
    (solid : ∀ tokens ∈ list, ∀ token ∈ tokens, token.kind ≠ .comment)
    (solid' : ∀ tokens ∈ others, ∀ token ∈ tokens, token.kind ≠ .comment) : list.map Css.render = others.map Css.render := by
  have rendered (list : List Tokens) (solid : ∀ tokens ∈ list, ∀ token ∈ tokens, token.kind ≠ .comment) :
      list.map Css.render = (list.map canonical).map Css.render := by
    rw [map_map]
    exact map_congr_left fun tokens member => (render_canonical (solid tokens member)).symm
  rw [rendered list solid, rendered others solid', same]

theorem text_canonical (solid : ∀ token ∈ tokens, token.kind ≠ .whitespace) : text tokens.canonical = text tokens := by
  induction tokens with
  | nil => rfl
  | cons token rest ih =>
    obtain ⟨first, others⟩ := forall_mem_cons.mp solid
    rw [canonical_cons, text_cons, text_cons, ih others, Token.text_canonical first]

end Tokens

end LessCss
