import LessCss.Proofs.Css.Heads
import LessCss.Proofs.Css.Stable

/-! The declarations of a ruleset as the lines of a block. Main statement: where a text
without holes, escapes and comments is read, each declaration in it that has nothing to
compute is printed as a fair line. -/

set_option autoImplicit false

namespace LessCss

open List Lexeme

open Tokens

/-! ### Properties -/

namespace Tokens

variable {last : Option Token} {after : List Char} {tokens : Tokens}

theorem shortened_concat (front : Tokens) (token : Token) :
    shortened (front ++ [token]) = front.canonical ++ [token.shortened] := by
  induction front with
  | nil => rfl
  | cons first front ih =>
    obtain ⟨next, rest, same⟩ := exists_cons_of_ne_nil (show front ++ [token] ≠ [] by simp)
    rw [same] at ih
    rw [cons_append, same, shortened, ih, canonical_cons, cons_append]

theorem mem_text_shortened {token : Token} {c : Char} (member : c ∈ token.shortened.text.toList) :
    c ∈ token.text.toList := by
  have kept : c ∈ (token.text.toList.reverse.dropWhile Text.isBlank).reverse := by
    simpa [Token.shortened, Token.synthetic] using member
  exact mem_reverse.mp ((dropWhile_sublist _).subset (mem_reverse.mp kept))

def isWord (token : Token) : Bool := token.kind == .identifier || token.kind == .hash || token.kind == .other

section

variable {token : Token} (word : isWord token = true)

include word

theorem kind_of_isWord : token.kind = .identifier ∨ token.kind = .hash ∨ token.kind = .other := by
  simpa [isWord, or_assoc] using word

theorem isBlank_of_isWord : token.isBlank = false := by
  rcases kind_of_isWord word with kind | kind | kind <;> rw [Token.isBlank, kind] <;> rfl

theorem through_word (depth : Nat) : through depth [token] = some depth := by
  rcases kind_of_isWord word with kind | kind | kind <;> simp [through, kind, Kind.depthAfter, Kind.opens, Kind.closes]

theorem splitColon?_word (depth : Nat) : Statement.splitColon? depth [token] = none := by
  rcases kind_of_isWord word with kind | kind | kind <;> simp [Statement.splitColon?, kind]

end

/-- Only the last token is changed beyond its canonical form, and only if it is a name. -/
theorem Reads.exists_shortened (reads : Reads last after tokens) (some_ : after ≠ [])
    (solid : ∀ token ∈ tokens, token.kind ≠ .whitespace ∧ token.kind ≠ .comment)
    (plain : ∀ token ∈ tokens, '@' ∉ token.text.toList ∧ '\\' ∉ token.text.toList) (filled : tokens ≠ []) :
    ∃ front token, tokens = front ++ [token] ∧ (token.shortened = token.canonical ∨
      isWord token = true ∧ isWord token.shortened = true ∧ token.kind ≠ .other) := by
  obtain ⟨front, token, rfl⟩ := (eq_nil_or_concat tokens).resolve_left filled
  rw [concat_eq_append] at *
  have member : token ∈ front ++ [token] := by simp
  refine ⟨front, token, rfl, ?_⟩
  rcases ((reads_append.mp reads).2.shortened_singleton some_ (solid token member) (plain token member).1
    (plain token member).2 []).2 with same | ⟨name, kind⟩
  · exact .inl same
  · refine .inr ⟨?_, ?_, ?_⟩
    · rcases name with name | name <;> rw [isWord, name] <;> rfl
    · rcases kind with kind | kind
      · rcases name with name | name <;> rw [isWord, kind, name] <;> rfl
      · rw [isWord, kind]
        rfl
    · rcases name with name | name <;> rw [name] <;> decide

end Tokens

namespace Statement

theorem splitColon?_append_eq_none {depth : Nat} {tokens others : Tokens} : splitColon? depth (tokens ++ others) = none ↔
    splitColon? depth tokens = none ∧ splitColon? (depthAfter depth tokens) others = none := by
  induction tokens generalizing depth with
  | nil => simp [splitColon?, depthAfter]
  | cons token tokens ih =>
    rw [cons_append, splitColon?, splitColon?]
    split
    · simp
    · rw [Option.map_eq_none_iff, Option.map_eq_none_iff, ih]
      rfl

end Statement

namespace Css

structure FairProperty (property : Tokens) : Prop where
  reads (rest : List Char) : Reads none (':' :: rest) property
  filled : property ≠ []
  plain : ∀ token ∈ property, token.isBlank = false ∧ '@' ∉ token.text.toList
  trimmed : Text.trim (text property) = text property
  whole : through 0 property = some 0
  uncut : Statement.splitColon? 0 property = none

variable {last : Option Token} {after : List Char} {property : Tokens}

/-- A property in a text that is read, where it is printed. -/
theorem fairProperty_shortened (reads : Reads last after property) (some_ : after ≠ [])
    (sign : allowsSign last = true) (filled : property ≠ [])
    (solid : ∀ token ∈ property, token.kind ≠ .whitespace ∧ token.kind ≠ .comment)
    (plain : ∀ token ∈ property, '@' ∉ token.text.toList ∧ '\\' ∉ token.text.toList)
    (whole : through 0 property = some 0) (uncut : Statement.splitColon? 0 property = none) :
    FairProperty property.shortened := by
  obtain ⟨front, token, rfl, last'⟩ := reads.exists_shortened some_ solid plain filled
  obtain ⟨solidFront, solidLast⟩ := forall_mem_append.mp solid
  obtain ⟨plainFront, plainLast⟩ := forall_mem_append.mp plain
  have member : token ∈ [token] := mem_singleton.mpr rfl
  have blank {token : Token} (solid : token.kind ≠ .whitespace ∧ token.kind ≠ .comment) : token.isBlank = false := by
    simp [Token.isBlank, Kind.isBlank, solid]
  -- The last token counts for nothing that is looked for in a property.
  have facts : token.shortened.isBlank = false ∧ (∀ depth, through depth [token.shortened] = through depth [token]) ∧
      ∀ depth, Statement.splitColon? depth [token] = none → Statement.splitColon? depth [token.shortened] = none := by
    rcases last' with same | ⟨word, word', _⟩
    · rw [same]
      refine ⟨blank (solidLast token member), fun depth => through_canonical depth [token], fun depth none_ => ?_⟩
      have canonical := Statement.splitColon?_canonical depth [token]
      rwa [none_] at canonical
    · exact ⟨isBlank_of_isWord word', fun depth => by rw [through_word word, through_word word'],
        fun depth _ => splitColon?_word word' depth⟩
  refine ⟨fun rest => (reads.shortened some_ solid plain rest).congr sign, ?_, ?_, (trim_text reads solid filled).2, ?_, ?_⟩
  · rw [shortened_concat]
    simp
  · rw [shortened_concat]
    refine forall_mem_append.mpr ⟨fun other inside => ?_, forall_mem_singleton.mpr ⟨facts.1, ?_⟩⟩
    · obtain ⟨own, found, rfl⟩ := mem_map.mp inside
      rw [Token.isBlank_canonical, Token.text_canonical (solidFront own found).1]
      exact ⟨blank (solidFront own found), (plainFront own found).1⟩
    · exact fun inside => (plainLast token member).1 (mem_text_shortened inside)
  · rw [through_append] at whole
    rw [shortened_concat, through_append, through_canonical]
    simpa only [facts.2.1] using whole
  · obtain ⟨uncutFront, uncutLast⟩ := Statement.splitColon?_append_eq_none.mp uncut
    rw [shortened_concat, Statement.splitColon?_append_eq_none, depthAfter_canonical, Statement.splitColon?_canonical,
      uncutFront]
    exact ⟨rfl, facts.2.2 _ uncutLast⟩

end Css

/-! ### Values -/

namespace Tokens

theorem Reads.exists_bracket {last : Option Token} {after : List Char} {tokens : Tokens} (reads : Reads last after tokens)
    {token : Token} (member : token ∈ tokens) (bracket : token.kind.opens = true ∨ token.kind.closes = true) :
    ∃ c, token.text.toList = [c] ∧ token.kind = markKind c := by
  obtain ⟨last, c, own, rest, spelled, read⟩ := reads.exists_read member
  have mark : token.kind = markKind c ∧ own.length = 0 := by
    have cases_ := read_cases read
    simp only [Kind.opens, Kind.closes, Bool.or_eq_true, beq_iff_eq] at bracket
    rcases bracket with (kind | kind) | (kind | kind) <;> simpa [kind, Kind.isNumeric] using cases_
  obtain rfl := eq_nil_of_length_eq_zero mark.2
  exact ⟨c, spelled, mark.1⟩

theorem Reads.depthAfter_important {last : Option Token} {after : List Char} {tokens : Tokens}
    (reads : Reads last after tokens) {token : Token} (member : token ∈ tokens)
    (text : token.text = "!" ∨ token.text = "important") (depth : Nat) : token.kind.depthAfter depth = depth := by
  have plain : ¬(token.kind.opens = true ∨ token.kind.closes = true) := by
    intro bracket
    obtain ⟨c, spelled, kind⟩ := reads.exists_bracket member bracket
    rcases text with text | text <;> rw [text] at spelled <;> cases spelled
    rw [kind] at bracket
    exact absurd bracket (by decide)
  simp only [not_or, Bool.not_eq_true] at plain
  simp [Kind.depthAfter, plain]

end Tokens

namespace Statement

variable {value : Tokens}

/-- What is taken off the end of a value has no brackets. -/
theorem exists_of_stripImportant {last : Option Token} {after : List Char} (reads : Reads last after value)
    (trimmed : trim value = value) : ∃ tail, value = (stripImportant value).1 ++ tail ∧
      (∀ depth, depthAfter depth tail = depth) ∧ trim (stripImportant value).1 = (stripImportant value).1 := by
  rcases stripImportant_cases trimmed with
    same | ⟨front, gap, mark, gap', word, split, blank, blank', bang, important, right, same⟩
  · rw [same]
    exact ⟨[], by simp, fun _ => rfl, trimmed⟩
  · rw [same]
    have inside (token : Token) (member : token = mark ∨ token = word) : token ∈ value := by
      rcases member with rfl | rfl <;> simp [split]
    refine ⟨gap ++ mark :: (gap' ++ [word]), by rw [split]; simp, fun depth => ?_, ?_⟩
    · have first := reads.depthAfter_important (inside mark (.inl rfl)) (.inl bang) depth
      have second := reads.depthAfter_important (inside word (.inr rfl)) (.inr important) depth
      rw [depthAfter_append, depthAfter_of_blank blank]
      change depthAfter (mark.kind.depthAfter depth) (gap' ++ [word]) = depth
      rw [first, depthAfter_append, depthAfter_of_blank blank']
      exact second
    · have left : trimLeft front = front := by
        refine trimLeft_eq_self_iff.mpr fun token found => head_of_trim trimmed ?_
        rw [split, List.append_assoc, List.head?_append, found]
        rfl
      rw [trim, left, right]

end Statement

namespace Css

/-- A value in a text that is read, where it is printed. -/
theorem sturdy_value {past before after rest : Tokens} {colon : Token}
    (reads : Reads none [] (past ++ (before ++ colon :: after) ++ rest)) (some_ : rest ≠ []) (kind : colon.kind = .colon)
    (plain : ∀ token ∈ after, token.kind ≠ .comment ∧ '@' ∉ token.text.toList)
    (whole : through 0 (before ++ colon :: after) = some 0) (level : depthAfter 0 before = 0) :
    Sturdy (canonical (Statement.stripImportant (trim after)).1) := by
  obtain ⟨gap, back, blank, blank', same⟩ := exists_trim after
  have trimmed := trim_trim after
  generalize trim after = value at same trimmed
  subst same
  have split : past ++ (before ++ colon :: (gap ++ value ++ back)) ++ rest =
      (past ++ before ++ [colon] ++ gap) ++ value ++ (back ++ rest) := by simp
  rw [split] at reads
  obtain ⟨_, some', readsValue⟩ := reads.stretch (by simp [some_])
  obtain ⟨tail, cut, neutral, trimmed'⟩ := Statement.exists_of_stripImportant readsValue trimmed
  generalize (Statement.stripImportant value).1 = own at cut trimmed'
  subst cut
  have noComment (token : Token) (member : token ∈ own) : token.kind ≠ .comment := (plain token (by simp [member])).1
  have noHole (token : Token) (member : token ∈ own) : '@' ∉ token.text.toList := (plain token (by simp [member])).2
  -- A sign may stand behind the colon as at the start of a text, so the value is read alone as it is read here.
  have sign : allowsSign (lastSeen none (past ++ before ++ [colon] ++ gap)) = true := by
    refine Draft.allowsSign_blank blank (fun token member => (plain token (by simp [member])).1) ?_
    rw [Draft.lastSeen_concat _ (by rw [kind]; decide), allowsSign, kind]
  have front : depthAfter 0 (before ++ colon :: gap) = 0 := by
    rw [depthAfter_append, level]
    change depthAfter (colon.kind.depthAfter 0) gap = 0
    rw [kind, depthAfter_of_blank blank]
    rfl
  have ends : depthAfter 0 own = 0 := by
    have all := depthAfter_of_through whole
    rwa [show before ++ colon :: (gap ++ (own ++ tail) ++ back) = (before ++ colon :: gap) ++ (own ++ (tail ++ back)) by simp,
      depthAfter_append, front, depthAfter_append, depthAfter_append, neutral, depthAfter_of_blank blank'] at all
  refine ⟨fun after' calm => ?_, canonical_canonical own, by rw [← canonical_trim, trimmed'], ?_,
    plain_canonical fun token member => ⟨noComment token member, noHole token member⟩⟩
  · exact ((reads_append.mp readsValue).1.canonical_sealed (by simp [some']) trimmed' noComment noHole calm).congr sign
  · have around : before ++ colon :: (gap ++ (own ++ tail) ++ back) = (before ++ colon :: gap) ++ own ++ (tail ++ back) := by
      simp
    rw [around] at whole
    have middle := through_middle whole
    rwa [front, ends, ← through_canonical] at middle

/-! ### Declarations -/

section

variable {last : Option Token} {after : List Char} {property : Tokens} (reads : Reads last after property)
  (some_ : after ≠ []) (filled : property ≠ []) (solid : ∀ token ∈ property, token.kind ≠ .whitespace ∧ token.kind ≠ .comment)
  (plain : ∀ token ∈ property, '@' ∉ token.text.toList ∧ '\\' ∉ token.text.toList)

include reads some_ filled solid plain

/-- Where a property is printed, it opens no call that it does not open where it is read. -/
theorem opens_of_shortened {depth : Nat} (opens : MixinCall.Opens depth property.shortened) :
    MixinCall.Opens depth property.canonical := by
  obtain ⟨front, token, rfl, last'⟩ := reads.exists_shortened some_ solid plain filled
  rw [shortened_concat] at opens
  rw [canonical_append]
  rcases last' with same | ⟨word, word', _⟩
  · rwa [same] at opens
  · have plainKind {token : Token} (word : isWord token = true) : token.kind ≠ .parenOpen ∧ token.kind ≠ .parenClose := by
      rcases kind_of_isWord word with kind | kind | kind <;> simp [kind]
    refine (opens.dropLast (plainKind word').1 (plainKind word').2).append ?_
    change opened? depth [token.canonical] = some depth
    rw [opened?, Token.kind_canonical, if_neg (plainKind word).2, if_neg (plainKind word).1]
    rfl

/-- Where a property is printed, it begins with `&` only if it does so where it is read. -/
theorem headText?_of_shortened (mark : headText? property.shortened = some "&") : headText? property = some "&" := by
  obtain ⟨front, token, rfl, last'⟩ := reads.exists_shortened some_ solid plain filled
  rw [shortened_concat] at mark
  cases front with
  | cons first front =>
    rw [← mark]
    exact congrArg some (Token.text_canonical (solid first (by simp)).1).symm
  | nil =>
    have mark : token.shortened.text = "&" := Option.some.inj mark
    refine congrArg some ?_
    rcases last' with same | ⟨_, _, name⟩
    · rw [← mark, same, Token.text_canonical (solid token (by simp)).1]
    · -- A name does not begin with this mark.
      exfalso
      obtain ⟨d, own, blanks, shorter, whole, _⟩ := reads.text_shortened solid filled
      obtain ⟨⟨c, own', spelled, read⟩, _⟩ := reads
      have first : d = '&' := by
        simp only [nil_append, shortened, text_cons, text_nil, mark] at shorter
        exact (List.cons.inj shorter).1.symm
      have same : c = d := by
        simp only [nil_append, text_cons, text_nil, String.append_empty, spelled, cons_append] at whole
        exact (List.cons.inj whole).1
      rw [same, first, read_solitary (by decide)] at read
      exact name (Lexeme.Reading.token.inj read).1.symm

end

/-- What is printed for a declaration is a declaration. -/
theorem declares_printed {property gap after value : Tokens} {colon : Token} {important : Bool}
    (declares : Statement.Declares (property ++ gap ++ colon :: after))
    (trimmed : trim (property ++ gap ++ colon :: after) = property ++ gap ++ colon :: after) (blank : Blank gap)
    (proper : Proper (property ++ gap ++ colon :: after)) (kind : colon.kind = .colon) (text : colon.text = ":")
    (noComment : ∀ token ∈ after, token.kind ≠ .comment)
    (stripped : Statement.stripImportant (trim after) = (value, important)) (fair : FairProperty property.shortened)
    (sturdy : Sturdy value.canonical)
    (opens : ∀ depth, MixinCall.Opens depth property.shortened → MixinCall.Opens depth property.canonical)
    (first : headText? property.shortened = some "&" → headText? property = some "&") :
    Statement.Declares (trim (Line.tokens ⟨property.shortened, value.canonical, important⟩)) := by
  have printed : trim (Line.tokens ⟨property.shortened, value.canonical, important⟩) =
      property.shortened ++ markOf ':' :: Line.ending ⟨property.shortened, value.canonical, important⟩ :=
    Line.trim_tokens fair.filled (fun token member => (fair.plain token member).1) sturdy.trimmed
  have trimmed' := trim_trim (Line.tokens ⟨property.shortened, value.canonical, important⟩)
  rw [printed] at trimmed' ⊢
  obtain ⟨noKeyword, noMark, noCall⟩ := declares
  obtain ⟨start, rest, same⟩ := exists_cons_of_ne_nil fair.filled
  refine ⟨?_, fun mark => ?_, ?_⟩
  · have member : start ∈ property.shortened := by rw [same]; exact mem_cons_self
    have other := (fair.reads []).not_atKeyword member (fair.plain start member).2
    rw [same]
    simpa [headIs, headKind?] using other
  · apply noMark
    have front : headText? property.shortened = some "&" := by rwa [same] at mark ⊢
    have found := first front
    cases property with
    | nil => cases found
    | cons token property => exact found
  · rw [← Option.not_isSome_iff_eq_none]
    intro call
    obtain ⟨depth, opens', group, taken, found⟩ := (MixinCall.isSome_read?_iff trimmed' rfl rfl).mp call
    have stripped' : Statement.stripImportant (trim after.canonical) = (value.canonical, important) := by
      rw [← canonical_trim, Statement.stripImportant_canonical, stripped]
      exact fun token member => proper token (by simp [mem_of_mem_trim member])
    have solid (token : Token) (member : token ∈ after.canonical) (word : token.text = "!" ∨ token.text = "important") :
        token.isBlank = false := by
      obtain ⟨own, inside, rfl⟩ := mem_map.mp member
      by_cases white : own.kind = .whitespace
      · rw [Token.text_canonical_blank white] at word
        exact absurd word (by decide)
      · simp [Token.isBlank, Kind.isBlank, white, noComment own inside]
    obtain ⟨group', taken', found'⟩ := MixinCall.exists_group_of_ending stripped'
      (Line.ending_shape ⟨property.shortened, value.canonical, important⟩) solid taken found
    -- So the statement is a call in its canonical form.
    have blank' : Blank gap.canonical := fun token member => by
      obtain ⟨own, inside, rfl⟩ := mem_map.mp member
      exact blank own inside
    have split : canonical (property ++ gap ++ colon :: after) =
        property.canonical ++ gap.canonical ++ colon.canonical :: after.canonical := by simp
    have trimmed'' : trim (canonical (property ++ gap ++ colon :: after)) =
        canonical (property ++ gap ++ colon :: after) := by
      rw [← canonical_trim, trimmed]
    rw [split] at trimmed''
    have isCall := (MixinCall.isSome_read?_iff trimmed'' kind ((Token.text_canonical (by rw [kind]; decide)).trans text)).mpr
      ⟨depth, (opens depth opens').append (MixinCall.opened?_blank blank' depth), group', taken', found'⟩
    rw [← split, MixinCall.isSome_read?_canonical proper, noCall] at isCall
    cases isCall

theorem exists_gap {before others : Tokens} (trimmed : trim (before ++ others) = before ++ others) :
    ∃ gap, Blank gap ∧ before = trim before ++ gap := by
  obtain ⟨front, gap, blank, blank', same⟩ := exists_trim before
  cases front with
  | nil => exact ⟨gap, blank', same⟩
  | cons token front =>
    have solid : token.isBlank = false := head_of_trim trimmed (by rw [same]; rfl)
    rw [blank token mem_cons_self] at solid
    cases solid

/-- A declaration with nothing to compute, in a text that is read, where it is printed. -/
theorem exists_fairLine {library : Library} {all past statement : Tokens} (reads : Reads none [] all)
    (plain : ∀ token ∈ all, token.kind ≠ .comment ∧ '@' ∉ token.text.toList ∧ '\\' ∉ token.text.toList)
    (piece : Piece all past statement) (sign : allowsSign (lastSeen none past) = true)
    (literal : Statement.IsLiteral library statement) :
    ∃ line : Line, line.Fair library ∧ line.declaration.pretty 1 = (Statement.literal statement).pretty 1 := by
  obtain ⟨declares, property, value, found, idle⟩ := literal
  obtain ⟨before, colon, after, rfl, rfl, rfl, kind, level, uncut, filled, noSpace⟩ := Statement.exists_of_declaration? found
  obtain ⟨rest, some_, rfl⟩ := piece.found
  have spelled : Statement.literal (before ++ colon :: after) = ⟨text (trim before),
      (Statement.stripImportant (trim after)).1, (Statement.stripImportant (trim after)).2⟩ := by
    rw [Statement.literal, found]
    rfl
  obtain ⟨gap, blank, same⟩ := exists_gap piece.trimmed
  rw [spelled]
  clear found spelled
  generalize trim before = property at same filled noSpace
  subst same
  have inAll (token : Token) (member : token ∈ property ∨ token ∈ after) :
      token ∈ past ++ (property ++ gap ++ colon :: after) ++ rest := by
    rcases member with inside | inside <;> simp [inside]
  have solid (token : Token) (member : token ∈ property) : token.kind ≠ .whitespace ∧ token.kind ≠ .comment :=
    ⟨noSpace token member, (plain token (inAll token (.inl member))).1⟩
  have plainProperty (token : Token) (member : token ∈ property) : '@' ∉ token.text.toList ∧ '\\' ∉ token.text.toList :=
    (plain token (inAll token (.inl member))).2
  have plainAfter (token : Token) (member : token ∈ after) : token.kind ≠ .comment ∧ '@' ∉ token.text.toList :=
    (plain token (inAll token (.inr member))).imp_right And.left
  have split : past ++ (property ++ gap ++ colon :: after) ++ rest =
      past ++ property ++ (gap ++ colon :: after ++ rest) := by
    simp
  obtain ⟨_, some', readsProperty⟩ := (split ▸ reads).stretch (by simp)
  have closed : depthAfter 0 property = 0 := by
    rwa [depthAfter_append, depthAfter_of_blank blank] at level
  have whole : through 0 property = some 0 := by
    have front : through 0 ([] ++ property ++ (gap ++ colon :: after)) = some 0 := by simpa using piece.whole
    have middle := through_middle front
    rwa [show depthAfter 0 [] = 0 from rfl, closed] at middle
  -- Property and value are taken apart, and each is read again in the place where it is printed.
  have fair := fairProperty_shortened readsProperty some' sign filled solid plainProperty whole
    (Statement.splitColon?_append_eq_none.mp uncut).1
  have sturdy := sturdy_value reads some_ kind plainAfter piece.whole level
  have proper (token : Token) (member : token ∈ property ++ gap ++ colon :: after) : token.Proper :=
    reads.proper token (mem_append_left _ (mem_append_right _ member))
  have colonText : colon.text = ":" :=
    reads.text_of_mark (by simp) (show colon.kind = markKind ':' from kind) (.inl rfl)
  refine ⟨⟨property.shortened, canonical (Statement.stripImportant (trim after)).1,
    (Statement.stripImportant (trim after)).2⟩,
    ⟨fair.reads, sturdy, fair.filled, fair.plain, fair.trimmed, fair.whole, fair.uncut, fun unmarked => ?_, ?_, ?_⟩, ?_⟩
  · rcases Statement.stripImportant_cases (trim_trim after) with bare | ⟨_, _, _, _, _, _, _, _, _, _, _, marked⟩
    · dsimp only
      rw [bare, Statement.stripImportant_canonical, bare]
      exact fun token member => proper token (by simp [mem_of_mem_trim member])
    · rw [marked] at unmarked
      cases unmarked
  · rw [computes_canonical]
    exact idle
  · exact declares_printed declares piece.trimmed blank proper kind colonText
      (fun token member => (plainAfter token member).1) rfl
      fair sturdy (fun depth => opens_of_shortened readsProperty some' filled solid plainProperty)
      (headText?_of_shortened readsProperty some' filled solid plainProperty)
  · obtain ⟨first, again⟩ := trim_text readsProperty solid filled
    rw [Declaration.pretty, Declaration.pretty, Line.declaration, first, again, render_canonical]
    exact fun token member =>
      (plainAfter token (mem_of_mem_trim (Statement.mem_of_stripImportant (trim_trim after) member))).1

end Css

end LessCss
