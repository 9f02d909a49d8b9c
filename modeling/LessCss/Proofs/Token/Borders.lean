import LessCss.Proofs.Token.Canonical

/-! What becomes of tokens at the borders of a stretch that is put somewhere else. A sign
at the front joins the number behind it where a sign may stand. Only names can end in
a blank, and a name that loses the blanks at its end is a name or a mark. -/

set_option autoImplicit false

namespace LessCss

open List

open Text (isBlank)

namespace Lexeme

variable {own after : List Char} {c : Char} {kind : Kind}

theorem getLast?_cons_of_some {d : Char} (last : own.getLast? = some d) : (c :: own).getLast? = some d := by
  rw [List.getLast?_cons, last]
  rfl

theorem stringExtent_last {quote : Char} (closed : stringExtent quote (own ++ after) = ⟨true, own.length⟩) :
    own.getLast? = some quote :=
  closed_induction (motive := fun own => own.getLast? = some quote) rfl
    (fun _ _ _ last => getLast?_cons_of_some (getLast?_cons_of_some last))
    (fun _ _ _ _ _ last => getLast?_cons_of_some last) closed

theorem urlExtent_last {depth : Nat} (closed : urlExtent depth (own ++ after) = ⟨true, own.length⟩) :
    own.getLast? = some ')' := by
  -- A string inside is skipped at once, so the induction is on the length.
  induction size : own.length using Nat.strongRecOn generalizing own depth with
  | ind size ih =>
    subst size
    cases own with
    | nil => exact absurd rfl (urlExtent_closed closed)
    | cons c own =>
      have next := fun depth => @ih own.length (Nat.lt_succ_self _) own depth
      rw [cons_append, urlExtent] at closed
      dsimp only at closed
      split at closed
      · split at closed
        · obtain ⟨inner, fits⟩ := Extent.add_eq_closed closed
          generalize (stringExtent c (own ++ after)).length = n at inner fits
          have inside : n ≤ own.length := by simpa using fits
          rw [drop_append_of_le_length inside] at inner
          have shorter : (own.drop n).length < (c :: own).length := by
            simp only [length_drop, length_cons]
            omega
          have last := @ih (own.drop n).length shorter (own.drop n) depth (by rw [inner]; simp) rfl
          rw [← take_append_drop n own]
          exact getLast?_cons_of_some (by rw [List.getLast?_append, last]; rfl)
        · rename_i ends
          exact absurd (congrArg Extent.closed (Extent.add_eq_closed closed).1) (by simpa using ends)
      · split at closed
        · exact getLast?_cons_of_some (next _ (add_one_eq closed) rfl)
        · split at closed
          · rename_i closes
            split at closed
            · have length := congrArg Extent.length closed
              have none_ : own = [] := by simpa using length
              subst none_
              rw [beq_iff_eq.mp closes]
              rfl
            · exact getLast?_cons_of_some (next _ (add_one_eq closed) rfl)
          · exact getLast?_cons_of_some (next _ (add_one_eq closed) rfl)

theorem isBlank_of_isAsciiLetter (letter : isAsciiLetter c = true) : isBlank c = false := by
  rw [isAsciiLetter, isAlpha_iff] at letter
  simp [isBlank, Text.blankRanges]
  omega

theorem solid_of_digitsExtent {seen : Bool} (whole : digitsExtent seen (own ++ after) = own.length) :
    ∀ c ∈ own, isBlank c = false := by
  induction own generalizing seen with
  | nil => exact nofun
  | cons c own ih =>
    rw [cons_append, digitsExtent_cons] at whole
    split at whole
    · rename_i digit
      exact forall_mem_cons.mpr ⟨isBlank_of_isDigit digit, ih (Nat.succ.inj whole)⟩
    · split at whole
      · rename_i point
        simp only [Bool.and_eq_true, beq_iff_eq] at point
        refine forall_mem_cons.mpr ⟨?_, ih (Nat.succ.inj whole)⟩
        rw [point.1.1]
        decide
      · cases whole

theorem solid_of_numberExtent (whole : numberExtent (own ++ after) = (kind, own.length)) : ∀ c ∈ own, isBlank c = false := by
  obtain ⟨digits, own, rfl, number, unit⟩ := exists_unit whole
  have back : ∀ c ∈ own, isBlank c = false := by
    cases own with
    | nil => exact nofun
    | cons c own =>
      rw [cons_append, unitExtent] at unit
      split at unit
      · rename_i percent
        have none_ : own = [] := by simpa using congrArg Prod.snd unit
        subst none_
        rw [beq_iff_eq.mp percent]
        exact forall_mem_singleton.mpr rfl
      · split at unit
        · rename_i letter
          have length : ((own ++ after).takeWhile isAsciiLetter).length = own.length := by
            have := congrArg Prod.snd unit
            simp only [length_cons] at this
            omega
          refine forall_mem_cons.mpr ⟨isBlank_of_isAsciiLetter letter, fun d member => ?_⟩
          exact isBlank_of_isAsciiLetter ((length_takeWhile_append length).1 d member)
        · cases unit
  exact fun c member => (mem_append.mp member).elim (solid_of_digitsExtent number c) (back c)

/-! ### Names -/

theorem nameBody_of_chars (named : ∀ c ∈ own, isNameChar c = true ∧ c ≠ '\\') : NameBody false own := by
  induction own with
  | nil => exact .nil
  | cons c own ih =>
    obtain ⟨first, others⟩ := forall_mem_cons.mp named
    exact .char first.1 first.2 (ih others)

theorem chars_of_nameBody {inHole : Bool} (body : NameBody inHole own) (outside : inHole = false) (escape : '\\' ∉ own)
    (hole : '@' ∉ own) : ∀ c ∈ own, isNameChar c = true := by
  induction body with
  | nil => exact nofun
  | inHole _ _ => cases outside
  | openHole _ _ _ => exact absurd mem_cons_self hole
  | escape _ _ => exact absurd mem_cons_self escape
  | char named _ _ ih =>
    rw [mem_cons, not_or] at escape hole
    exact forall_mem_cons.mpr ⟨named, ih rfl escape.2 hole.2⟩

/-- How a token is read that ends in a blank: it is a name. -/
theorem name_of_blank {last : Option Token} {b : Char} (read_ : read last c (own ++ after) = .token kind own.length)
    (some_ : after ≠ []) (solid : isBlank c = false) (noComment : kind ≠ .comment) (noHole : c ≠ '@')
    (ends : own.getLast? = some b) (blank : isBlank b = true) :
    c = '#' ∧ kind = .hash ∧ NameBody false own ∨
    c = '-' ∧ kind = .identifier ∧ NameBody false (c :: own) ∧ startsName (own ++ after) = true ∨
    isNameStart c = true ∧ kind = .identifier ∧ NameBody false (c :: own) := by
  have member : b ∈ own := mem_of_getLast? ends
  have number {digits : List Char} (each : ∀ d ∈ digits, isBlank d = false) (inside : b ∈ digits) : False := by
    rw [each b inside] at blank
    cases blank
  have body (named : isNameChar c = true) (length : own.length = nameExtent false (c :: (own ++ after)) - 1) :
      NameBody false (c :: own) := by
    have start := nameExtent_ne_zero (own ++ after) named
    have extent : nameExtent false ((c :: own) ++ after) = (c :: own).length := by
      rw [cons_append, length_cons]
      omega
    exact (nameBody_of_nameExtent extent some_).1
  -- Of all that is read, only names go on over blanks; the other ways end in a character that is none.
  generalize length : own.length = more at read_
  cases branch_of_read read_ with
  | blanks white => cases white.symm.trans solid
  | comment | line => exact absurd rfl noComment
  | string quote closed =>
    rw [← length] at closed
    cases ends.symm.trans (stringExtent_last closed)
    cases blank.symm.trans solid
  | hole | keyword => exact absurd rfl noHole
  | hash => exact .inl ⟨rfl, rfl, (nameBody_of_nameExtent length.symm some_).1⟩
  | number starts =>
    have some_ := numberExtent_ne_zero starts
    have whole : numberExtent ((c :: own) ++ after) = (_, (c :: own).length) :=
      Prod.ext rfl (by rw [cons_append, length_cons]; dsimp only; omega)
    exact (number (solid_of_numberExtent whole) (mem_cons_of_mem _ member)).elim
  | signed => exact (number (solid_of_numberExtent (Prod.ext rfl length.symm)) member).elim
  | dashed starts => exact .inr (.inl ⟨rfl, rfl, body (by decide) length, starts⟩)
  | url read =>
    obtain ⟨closed, inside⟩ := Extent.add_eq_closed (extent_of_readName read)
    generalize nameExtent false (c :: (own ++ after)) - 1 = n at closed inside
    rw [← length] at closed inside
    rw [drop_append_of_le_length inside, ← length_drop] at closed
    rw [← take_append_drop n own, List.getLast?_append, urlExtent_last closed] at ends
    cases ends
    exact absurd blank (by decide)
  | name named => exact .inr (.inr ⟨named, rfl, body (isNameChar_of_isNameStart named) length⟩)
  | mark =>
    rw [length_eq_zero_iff.mp length] at member
    cases member

/-- A name that loses characters at its end is a shorter name, or only its mark is left. -/
theorem read_shortened {last : Option Token} {own' : List Char} {b : Char}
    (read_ : read last c (own ++ b :: own' ++ after) = .token kind (own ++ b :: own').length)
    (some_ : after ≠ []) (solid : isBlank c = false) (noComment : kind ≠ .comment) (noHole : '@' ∉ c :: (own ++ b :: own'))
    (noEscape : '\\' ∉ c :: (own ++ b :: own')) (blank : ∀ d ∈ b :: own', isBlank d = true) (rest : List Char) :
    (kind = .identifier ∨ kind = .hash) ∧ read last c (own ++ ':' :: rest) =
      .token (if own = [] ∧ (c = '#' ∨ c = '-') then .other else kind) own.length := by
  have stop : nameExtent false (':' :: rest) = 0 := nameExtent_stop (by decide) nofun
  obtain ⟨d, last'⟩ : ∃ d, (b :: own').getLast? = some d := ⟨_, List.getLast?_eq_some_getLast (cons_ne_nil _ _)⟩
  have ends : (own ++ b :: own').getLast? = some d := by
    rw [List.getLast?_append, last']
    rfl
  rw [mem_cons, not_or] at noHole noEscape
  -- Without escapes and holes every character of a name is one of its own.
  have named {front : List Char} (body : NameBody false (front ++ (own ++ b :: own'))) (hole : '@' ∉ front)
      (escape : '\\' ∉ front) : NameBody false (front ++ own) := by
    have each := chars_of_nameBody body rfl (by simpa [escape] using noEscape.2) (by simpa [hole] using noHole.2)
    refine nameBody_of_chars fun e member => ⟨each e (by simp_all; grind), ?_⟩
    rintro rfl
    rcases mem_append.mp member with inside | inside
    · exact escape inside
    · exact noEscape.2 (mem_append_left _ inside)
  rcases name_of_blank read_ some_ solid noComment (fun same => noHole.1 same.symm) ends
      (blank d (mem_of_getLast? last')) with ⟨rfl, rfl, body⟩ | ⟨rfl, rfl, body, starts⟩ | ⟨name, rfl, body⟩
  · have body' : NameBody false own := named (show NameBody false ([] ++ _) from body) nofun nofun
    have extent := body'.nameExtent_append (':' :: rest)
    rw [stop] at extent
    refine ⟨.inr rfl, ?_⟩
    rw [read_hash]
    cases own with
    | nil => rfl
    | cons e own =>
      have first : isNameChar e = true := chars_of_nameBody body rfl noEscape.2 noHole.2 e mem_cons_self
      rw [if_pos (by simpa using first), extent, if_neg (by simp)]
      rfl
  · have body' : NameBody false ('-' :: own) := named (show NameBody false (['-'] ++ _) from body) (by decide) (by decide)
    have extent := body'.nameExtent_append (':' :: rest)
    rw [stop] at extent
    refine ⟨.inl rfl, ?_⟩
    rw [read_minus]
    cases own with
    | nil => rfl
    | cons e own =>
      have noMark : e ≠ '@' := by
        rintro rfl
        exact noHole.2 mem_cons_self
      have starts' : startsName (e :: own ++ ':' :: rest) = true := by
        rw [cons_append, cons_append, startsName_cons] at starts
        rw [cons_append, startsName_cons]
        simpa [noMark] using starts
      rw [startsNumber_of_startsName starts', Bool.false_and, if_neg Bool.false_ne_true, if_pos starts', if_neg (by simp)]
      exact congrArg (Reading.token .identifier) (by rw [← cons_append, extent]; rfl)
  · have body' : NameBody false (c :: own) := named (show NameBody false ([c] ++ _) from body)
      (by simpa using noHole.1) (by simpa using noEscape.1)
    have extent := body'.nameExtent_append (':' :: rest)
    rw [stop] at extent
    have more : nameExtent false (c :: (own ++ ':' :: rest)) - 1 = own.length := by
      rw [← cons_append, extent]
      rfl
    have noMark : ¬(own = [] ∧ (c = '#' ∨ c = '-')) := by
      rintro ⟨_, rfl | rfl⟩
      · exact absurd name (by decide)
      · exact absurd name (by decide)
    refine ⟨.inl rfl, ?_⟩
    rw [read_name name solid, readName, more, if_neg (by simp), if_neg noMark]

end Lexeme

/-! ### Lists -/

/-- The token without the blanks at its end. Of a name, only its mark may be left. -/
def Token.shortened (token : Token) : Token :=
  let cs := (token.text.toList.reverse.dropWhile Text.isBlank).reverse
  .synthetic (if cs ≠ token.text.toList ∧ (cs = ['#'] ∨ cs = ['-']) then .other else token.kind) (String.ofList cs)

def Tokens.shortened : Tokens → Tokens
  | [] => []
  | [token] => [token.shortened]
  | token :: next :: rest => token.canonical :: shortened (next :: rest)

namespace Tokens

variable {last : Option Token} {after : List Char} {tokens : Tokens}

theorem exists_blanks {c : Char} (solid : isBlank c = false) (own : List Char) : ∃ front blanks, own = front ++ blanks ∧
    ((c :: own).reverse.dropWhile isBlank).reverse = c :: front ∧ (∀ d ∈ blanks, isBlank d = true) ∧
    ∀ d, (c :: front).getLast? = some d → isBlank d = false := by
  obtain ⟨blanks, rest, same⟩ : ∃ blanks rest, own.reverse = blanks ++ rest ∧
      (∀ d ∈ blanks, isBlank d = true) ∧ rest = own.reverse.dropWhile isBlank :=
    ⟨own.reverse.takeWhile isBlank, own.reverse.dropWhile isBlank, takeWhile_append_dropWhile.symm,
      all_eq_true.mp all_takeWhile, rfl⟩
  -- From behind, the first character that is no blank; at the latest it is the one in front.
  have first (d : Char) (found : (rest ++ [c]).head? = some d) : isBlank d = false := by
    cases rest with
    | nil =>
      cases found
      exact solid
    | cons e rest =>
      cases found
      have kept := List.head?_dropWhile_not isBlank own.reverse
      rw [← same.2.2] at kept
      exact kept
  refine ⟨rest.reverse, blanks.reverse, ?_, ?_, fun d member => same.2.1 d (mem_reverse.mp member), ?_⟩
  · rw [← reverse_append, ← same.1, reverse_reverse]
  · rw [reverse_cons, same.1, List.append_assoc, dropWhile_append_of_pos same.2.1]
    obtain ⟨d, others, list⟩ := exists_cons_of_ne_nil (show rest ++ [c] ≠ [] by simp)
    rw [list, dropWhile_cons_of_neg (by simp [first d (by rw [list]; rfl)]), ← list]
    simp
  · intro d found
    apply first d
    rw [← List.getLast?_reverse, reverse_append]
    exact found

/-- The last token of a list, without the blanks at its end. -/
theorem Reads.shortened_singleton {token : Token} (reads : Reads last after [token]) (some_ : after ≠ [])
    (solid : token.kind ≠ .whitespace ∧ token.kind ≠ .comment) (noHole : '@' ∉ token.text.toList)
    (noEscape : '\\' ∉ token.text.toList) (rest : List Char) :
    Reads last (':' :: rest) [token.shortened] ∧ (token.shortened = token.canonical ∨
      (token.kind = .identifier ∨ token.kind = .hash) ∧
        (token.shortened.kind = token.kind ∨ token.shortened.kind = .other)) := by
  obtain ⟨⟨c, own, spelled, read⟩, _⟩ := reads
  rw [text_nil, String.toList_empty, nil_append] at read
  obtain ⟨first, line⟩ := not_blank_of_read read solid.1 (absurd · solid.2)
  obtain ⟨front, blanks, rfl, cut, each, _⟩ := exists_blanks first own
  have cut' : (token.text.toList.reverse.dropWhile isBlank).reverse = c :: front := by rw [spelled, cut]
  have text' : token.shortened.text.toList = c :: front := by
    rw [Token.shortened, cut']
    exact String.toList_ofList
  -- Without blanks at its end the token stays; with them it is a name or a hash, which some blanks can be part of.
  cases blanks with
  | nil =>
    rw [append_nil] at spelled read line
    have same : token.shortened = token.canonical := by
      rw [Token.shortened, cut', ← spelled, String.ofList_toList, Token.canonical, if_neg solid.1]
      exact congrArg (Token.synthetic · token.text) (if_neg fun both => both.1 rfl)
    refine ⟨⟨⟨c, front, text', ?_⟩, trivial⟩, .inl same⟩
    rw [same, Token.kind_canonical]
    exact Lexeme.read_append read some_ first line (Lexeme.calmer_quiet rfl _ _ _)
  | cons b blanks =>
    rw [spelled] at noHole noEscape
    have shorter := Lexeme.read_shortened read some_ first solid.2 noHole noEscape each
    have kind : token.shortened.kind = if front = [] ∧ (c = '#' ∨ c = '-') then .other else token.kind := by
      have ne : c :: front ≠ token.text.toList := by
        rw [spelled]
        intro same
        simpa using congrArg List.length same
      have same : c :: front ≠ token.text.toList ∧ (c :: front = ['#'] ∨ c :: front = ['-']) ↔
          front = [] ∧ (c = '#' ∨ c = '-') := by
        simp only [ne, List.cons.injEq, ne_eq, not_false_eq_true, true_and, ← or_and_right]
        exact And.comm
      rw [Token.shortened, cut']
      simp only [same]
      rfl
    refine ⟨⟨⟨c, front, text', ?_⟩, trivial⟩, ?_⟩
    · rw [kind]
      exact (shorter rest).2
    · refine .inr ⟨(shorter rest).1, ?_⟩
      rw [kind]
      split
      · exact .inr rfl
      · exact .inl rfl

section

variable (reads : Reads last after tokens)

include reads

/-- The text of the shortened tokens, with blanks behind it, is the text of the tokens. -/
theorem Reads.text_shortened
    (solid : ∀ token ∈ tokens, token.kind ≠ .whitespace ∧ token.kind ≠ .comment) (some_ : tokens ≠ []) :
    ∃ d own blanks, (text tokens.shortened).toList = d :: own ∧ (text tokens).toList = d :: own ++ blanks ∧
      isBlank d = false ∧ (∀ c ∈ blanks, isBlank c = true) ∧ ∀ c, (d :: own).getLast? = some c → isBlank c = false := by
  induction tokens generalizing last with
  | nil => exact absurd rfl some_
  | cons token rest ih =>
    obtain ⟨first, others⟩ := forall_mem_cons.mp solid
    obtain ⟨d, own, spelled, blank⟩ := reads.head
    have solid' : isBlank d = false := Bool.eq_false_iff.mpr (mt blank.mp first.1)
    cases rest with
    | nil =>
      obtain ⟨front, blanks, rfl, cut, each, ends⟩ := exists_blanks solid' own
      refine ⟨d, front, blanks, ?_, by simp [spelled], solid', each, ends⟩
      rw [shortened, text_cons, text_nil, String.append_empty, Token.shortened, spelled, cut]
      exact String.toList_ofList
    | cons next rest =>
      obtain ⟨e, own', blanks, text₁, text₂, _, each, ends⟩ := ih reads.2 others (cons_ne_nil _ _)
      refine ⟨d, own ++ e :: own', blanks, ?_, ?_, solid', each, fun c found => ends c ?_⟩
      · rw [shortened, text_cons, String.toList_append, Token.text_canonical first.1, spelled, text₁]
        rfl
      · rw [text_cons, String.toList_append, spelled, text₂]
        simp
      · rw [← cons_append, List.getLast?_append, List.getLast?_eq_some_getLast (cons_ne_nil e own')] at found
        rw [List.getLast?_eq_some_getLast (cons_ne_nil e own')]
        exact found

theorem Reads.shortened (some_ : after ≠ [])
    (solid : ∀ token ∈ tokens, token.kind ≠ .whitespace ∧ token.kind ≠ .comment)
    (plain : ∀ token ∈ tokens, '@' ∉ token.text.toList ∧ '\\' ∉ token.text.toList) (rest : List Char) :
    Reads last (':' :: rest) tokens.shortened := by
  induction tokens generalizing last with
  | nil => trivial
  | cons token others ih =>
    obtain ⟨first, solid'⟩ := forall_mem_cons.mp solid
    obtain ⟨firstPlain, plain'⟩ := forall_mem_cons.mp plain
    cases others with
    | nil => exact (reads.shortened_singleton some_ first firstPlain.1 firstPlain.2 rest).1
    | cons next others =>
      have behind := ih reads.2 solid' plain'
      obtain ⟨d, own', blanks, text₁, text₂, _⟩ := reads.2.text_shortened solid' (cons_ne_nil _ _)
      obtain ⟨⟨c, own, spelled, read⟩, _⟩ := reads
      refine ⟨⟨c, own, by rw [Token.text_canonical first.1, spelled], ?_⟩, behind.congr (allowsSign_canonical rfl token)⟩
      rw [text₁]
      rw [text₂] at read
      refine read_of_same read fun e head pair => ?_
      cases own' with
      | cons x own' => exact head
      | nil =>
        -- Only a digit behind a point could lengthen the token before it.
        cases head
        simp [Lexeme.isNoisyPair] at pair

theorem trim_text
    (solid : ∀ token ∈ tokens, token.kind ≠ .whitespace ∧ token.kind ≠ .comment) (some_ : tokens ≠ []) :
    Text.trim (text tokens) = text tokens.shortened ∧ Text.trim (text tokens.shortened) = text tokens.shortened := by
  obtain ⟨d, own, blanks, text₁, text₂, first, each, ends⟩ := reads.text_shortened solid some_
  have cut {blanks : List Char} (each : ∀ c ∈ blanks, isBlank c = true) :
      Text.trimChars (d :: own ++ blanks) = d :: own := by
    have reversed : ((d :: own).reverse).dropWhile isBlank = (d :: own).reverse := by
      obtain ⟨c, others, list⟩ := exists_cons_of_ne_nil (show (d :: own).reverse ≠ [] by simp)
      have solid' : isBlank c = false := ends c (by rw [← List.head?_reverse, list]; rfl)
      rw [list, dropWhile_cons_of_neg (by simp [solid'])]
    rw [Text.trimChars, cons_append, dropWhile_cons_of_neg (by simp [first]), ← cons_append,
      reverse_append, dropWhile_append_of_pos fun c member => each c (mem_reverse.mp member), reversed,
      reverse_reverse]
  constructor
  · rw [Text.trim, text₂, cut each, ← text₁, String.ofList_toList]
  · have whole := cut (show ∀ c ∈ [], isBlank c = true from nofun)
    rw [append_nil] at whole
    rw [Text.trim, text₁, whole, ← text₁, String.ofList_toList]

/-! ### Kinds -/

theorem Reads.exists_read {token : Token} (member : token ∈ tokens) :
    ∃ last c own rest, token.text.toList = c :: own ∧ Lexeme.read last c (own ++ rest) = .token token.kind own.length := by
  induction tokens generalizing last with
  | nil => cases member
  | cons first tokens ih =>
    obtain ⟨⟨c, own, spelled, read⟩, behind⟩ := reads
    rcases mem_cons.mp member with rfl | inside
    · exact ⟨last, c, own, _, spelled, read⟩
    · exact ih behind inside

theorem Reads.not_atKeyword {token : Token} (member : token ∈ tokens)
    (plain : '@' ∉ token.text.toList) : token.kind ≠ .atKeyword := by
  obtain ⟨last, c, own, rest, spelled, read⟩ := reads.exists_read member
  have other : c ≠ '@' := by
    rintro rfl
    exact plain (by simp [spelled])
  intro keyword
  have cases_ := Lexeme.read_cases read
  have mark : Lexeme.markKind c ≠ .atKeyword := fun same => absurd (same ▸ Lexeme.markKind_mem c) (by decide)
  simp [keyword, other, Ne.symm mark, Kind.isNumeric] at cases_

theorem Reads.text_of_mark {token : Token} (member : token ∈ tokens) {c : Char}
    (kind : token.kind = Lexeme.markKind c) (mark : c = ':' ∨ c = ')') : token.text = String.singleton c := by
  obtain ⟨last, d, own, rest, spelled, read⟩ := reads.exists_read member
  have same : Lexeme.markKind c = Lexeme.markKind d ∧ own.length = 0 := by
    have cases_ := Lexeme.read_cases read
    rw [kind] at cases_
    rcases mark with rfl | rfl <;> simpa [Lexeme.markKind, Kind.isNumeric] using cases_
  obtain rfl := eq_nil_of_length_eq_zero same.2
  have first : c = d := by
    have whole := same.1
    rcases mark with rfl | rfl <;> grind [Lexeme.markKind]
  rw [← String.toList_inj, spelled, first, String.toList_singleton]

/-! ### Signs -/

end

theorem startsNumber_of_startsCalm {cs : List Char} (calm : startsCalm cs = true) : Lexeme.startsNumber cs = false := by
  rw [Bool.eq_false_iff]
  intro starts
  cases cs with
  | nil => cases starts
  | cons c rest =>
    rcases (Bool.or_eq_true _ _).mp calm with quiet | brace
    · rcases (Bool.or_eq_true _ _).mp starts with digit | point
      · rw [Lexeme.isQuiet, Lexeme.isNameChar_of_isDigit digit] at quiet
        cases quiet
      · cases beq_iff_eq.mp (Bool.and_eq_true_iff.mp point).1
        cases quiet
    · cases beq_iff_eq.mp brace
      cases starts

/-- The tokens as they are read where a sign may stand in front of them. -/
def signed : Tokens → Tokens
  | sign :: number :: rest =>
    if sign.isMark "-" && number.kind.isNumeric then .synthetic number.kind ("-" ++ number.text) :: rest
    else sign :: number :: rest
  | tokens => tokens

theorem text_signed (tokens : Tokens) : text tokens.signed = text tokens := by
  unfold signed
  split
  · split
    · rename_i both
      have spelled := (Bool.and_eq_true_iff.mp (Bool.and_eq_true_iff.mp both).1).2
      simp [Token.synthetic, beq_iff_eq.mp spelled, String.append_assoc]
    · rfl
  · rfl

theorem signed_cons {sign : Token} (other : sign.isMark "-" = false) (tokens : Tokens) :
    signed (sign :: tokens) = sign :: tokens := by
  cases tokens <;> simp [signed, other]

theorem read_dash {rest : List Char} (number : Lexeme.startsNumber rest = false) (name : ¬Lexeme.startsName rest = true) :
    Lexeme.read last '-' rest = .token .other 0 := by
  rw [Lexeme.read_minus, number, Bool.false_and, if_neg Bool.false_ne_true, if_neg name]

theorem reads_signed_mark {sign number : Token} (mark : sign.isMark "-" = true)
    (name : ¬Lexeme.startsName ((text (number :: tokens)).toList ++ after) = true)
    (reads : Reads (some sign) after (number :: tokens)) : Reads none after (signed (sign :: number :: tokens)) := by
  obtain ⟨kind, spelled⟩ := Bool.and_eq_true_iff.mp mark
  have spelled := beq_iff_eq.mp spelled
  have kind := beq_iff_eq.mp kind
  have noSign : Lexeme.allowsSign (some sign) = false := by
    simp [Lexeme.allowsSign, kind, spelled]
  obtain ⟨⟨c, own, spelled', read⟩, behind⟩ := reads
  rw [signed, mark, Bool.true_and]
  by_cases numeric : number.kind.isNumeric = true
  · have starts : Lexeme.startsNumber (c :: (own ++ ((text tokens).toList ++ after))) = true := by
      have mark := Lexeme.isNumeric_markKind c
      have cases_ := Lexeme.read_cases read
      grind [Kind.isNumeric]
    rw [Lexeme.read_number starts, Lexeme.Reading.token.injEq] at read
    have long := Lexeme.numberExtent_ne_zero starts
    rw [if_pos numeric]
    refine ⟨⟨'-', c :: own, by simp [Token.synthetic, spelled'], ?_⟩, behind.congr ?_⟩
    · rw [cons_append, Lexeme.read_minus, starts, Bool.true_and, if_pos (show Lexeme.allowsSign none = true from rfl),
        read.1, length_cons]
      exact congrArg (Lexeme.Reading.token _) (by omega)
    · -- Behind a number no sign may follow, with or without the mark in front of it.
      have unsigned (token : Token) (numeric : token.kind.isNumeric = true) (last : Option Token) :
          Lexeme.allowsSign (Scan.lastSeen last token) = false := by
        obtain ⟨kind, _, _⟩ := token
        cases kind <;> first | rfl | cases numeric
      rw [unsigned number numeric, unsigned (.synthetic number.kind _) numeric]
  · rw [if_neg numeric]
    have seen (last : Option Token) : Scan.lastSeen last sign = some sign := if_neg (by simp [kind])
    refine ⟨⟨'-', [], by rw [spelled]; rfl, ?_⟩, (seen none).symm ▸ ⟨⟨c, own, spelled', read⟩, behind⟩⟩
    rw [kind]
    refine read_dash (Bool.eq_false_iff.mpr fun starts => ?_) name
    rw [text_cons, String.toList_append, spelled', List.append_assoc, nil_append, cons_append] at starts
    rw [Lexeme.read_number starts] at read
    rw [← (Lexeme.Reading.token.inj read).1] at numeric
    exact numeric (Lexeme.isNumeric_numberExtent _)

theorem Reads.signed (reads : Reads last after tokens) (noSign : Lexeme.allowsSign last = false)
    (calm : startsCalm after = true) (plain : ∀ token ∈ tokens, token.kind ≠ .comment) : Reads none after tokens.signed := by
  cases tokens with
  | nil => trivial
  | cons sign tokens =>
    obtain ⟨⟨c, own, spelled, read⟩, behind⟩ := reads
    have seen (last : Option Token) : Scan.lastSeen last sign = some sign := if_neg (plain sign mem_cons_self)
    rw [seen] at behind
    -- What was seen matters only to a dash: it is part of a name, or a mark that may become a sign.
    by_cases dash : c = '-'
    · cases dash
      rw [Lexeme.read_minus, noSign, Bool.and_false, if_neg Bool.false_ne_true] at read
      split at read
      · rename_i starts
        have notMark : sign.isMark "-" = false := by
          rw [Token.isMark, ← (Lexeme.Reading.token.inj read).1]
          rfl
        rw [signed_cons notMark]
        refine ⟨⟨'-', own, spelled, ?_⟩, (seen none).symm ▸ behind⟩
        rw [Lexeme.read_minus, Lexeme.startsNumber_of_startsName starts, Bool.false_and, if_neg Bool.false_ne_true,
          if_pos starts, read]
      · rename_i starts
        obtain ⟨kind, none_⟩ := Lexeme.Reading.token.inj read
        obtain rfl := eq_nil_of_length_eq_zero none_.symm
        have mark : sign.isMark "-" = true := by
          rw [Token.isMark, ← kind, show sign.text = "-" from String.toList_inj.mp spelled]
          rfl
        cases tokens with
        | nil =>
          refine ⟨⟨'-', [], spelled, ?_⟩, (seen none).symm ▸ behind⟩
          rw [← kind]
          exact read_dash (by simpa using startsNumber_of_startsCalm calm) starts
        | cons number tokens => exact reads_signed_mark mark starts behind
    · have notMark : sign.isMark "-" = false := by
        rw [Bool.eq_false_iff]
        intro mark
        rw [beq_iff_eq.mp (Bool.and_eq_true_iff.mp mark).2] at spelled
        exact dash (List.cons.inj spelled).1.symm
      rw [signed_cons notMark]
      refine ⟨⟨c, own, spelled, ?_⟩, (seen none).symm ▸ behind⟩
      rw [← read]
      simp [Lexeme.read, dash]

end Tokens

end LessCss
