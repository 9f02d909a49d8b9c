import LessCss.Proofs.Token.Extents

/-! The reading of one token, by its first character. Main statement: `branch_of_read`, the list of all
ways in which a token is read. -/

set_option autoImplicit false

namespace LessCss.Lexeme

open Text (isBlank)

theorem read_slash (last : Option Token) (rest : List Char) : read last '/' rest =
    if rest.head? == some '*' then ofExtent .comment .commentEnd ((commentExtent rest.tail).add 1)
    else if rest.head? == some '/' then .token .comment (rest.takeWhile (· != '\n')).length
    else .token .other 0 := by
  have blank : isBlank '/' = false := by decide
  have name : isNameStart '/' = false := by decide
  simp [read, blank, name, startsNumber, markKind]

theorem read_quote {c : Char} (quote : c = '"' ∨ c = '\'') (last : Option Token) (rest : List Char) :
    read last c rest = ofExtent .string .stringEnd (stringExtent c rest) := by
  have blank : isBlank c = false := by rcases quote with rfl | rfl <;> decide
  rcases quote with rfl | rfl <;> simp [read, blank]

theorem read_at (last : Option Token) (rest : List Char) : read last '@' rest =
    if rest.head? == some '\x7b' then .token .identifier (nameExtent false ('@' :: rest) - 1)
    else if rest.head?.any fun d => isNameStart d || d == '-' then .token .atKeyword (nameExtent false rest)
    else .token .other 0 := by
  have blank : isBlank '@' = false := by decide
  simp [read, blank]

theorem read_hash (last : Option Token) (rest : List Char) : read last '#' rest =
    if rest.head?.any isNameChar then .token .hash (nameExtent false rest) else .token .other 0 := by
  have blank : isBlank '#' = false := by decide
  have name : isNameStart '#' = false := by decide
  simp [read, blank, name, startsNumber, markKind]

def startsName (cs : List Char) : Bool :=
  cs.head?.any (fun d => isNameStart d || d == '-') || (cs.head? == some '@' && cs[1]? == some '\x7b')

theorem read_minus (last : Option Token) (rest : List Char) : read last '-' rest =
    if startsNumber rest && allowsSign last then .token (numberExtent rest).1 (numberExtent rest).2
    else if startsName rest then .token .identifier (nameExtent false ('-' :: rest) - 1)
    else .token .other 0 := by
  have blank : isBlank '-' = false := by decide
  have name : isNameStart '-' = false := by decide
  simp [read, blank, name, startsNumber, startsName, markKind]

theorem read_point (last : Option Token) (rest : List Char) : read last '.' rest =
    if rest.head?.any Char.isDigit then
      .token (numberExtent ('.' :: rest)).1 ((numberExtent ('.' :: rest)).2 - 1)
    else .token .other 0 := by
  have blank : isBlank '.' = false := by decide
  have name : isNameStart '.' = false := by decide
  simp [read, blank, name, startsNumber, markKind]

theorem isDigit_iff (c : Char) : c.isDigit = true ↔ 48 ≤ c.toNat ∧ c.toNat ≤ 57 := by
  simp [Char.isDigit, UInt32.le_iff_toNat_le]

theorem isAlpha_iff (c : Char) : c.isAlpha = true ↔
    65 ≤ c.toNat ∧ c.toNat ≤ 90 ∨ 97 ≤ c.toNat ∧ c.toNat ≤ 122 := by
  have cases : c.isAlpha =
      (decide (65 ≤ c.val ∧ c.val ≤ 90) || decide (97 ≤ c.val) && decide (c.val ≤ 122)) := rfl
  simp [cases, UInt32.le_iff_toNat_le]

theorem isBlank_of_isDigit {c : Char} (digit : c.isDigit = true) : isBlank c = false := by
  rw [isDigit_iff] at digit
  simp [isBlank, Text.blankRanges]
  omega

theorem read_digit {c : Char} (digit : c.isDigit = true) (last : Option Token) (rest : List Char) :
    read last c rest = .token (numberExtent (c :: rest)).1 ((numberExtent (c :: rest)).2 - 1) := by
  have blank : isBlank c = false := isBlank_of_isDigit digit
  have ne (d : Char) (other : d.isDigit = false) : c ≠ d := by
    rintro rfl
    simp_all
  simp [read, blank, startsNumber, digit, ne '/' rfl, ne '"' rfl, ne '\'' rfl, ne '@' rfl, ne '#' rfl]

theorem isDigit_of_isNameStart {c : Char} (name : isNameStart c = true) : c.isDigit = false := by
  rw [Bool.eq_false_iff, Ne, isDigit_iff]
  rintro ⟨above, below⟩
  simp only [isNameStart, Bool.or_eq_true, isAlpha_iff, beq_iff_eq, decide_eq_true_eq] at name
  rcases name with ((letter | rfl) | rfl) | wide
  · omega
  · exact absurd below (by decide)
  · exact absurd below (by decide)
  · omega

theorem read_name {c : Char} (name : isNameStart c = true) (blank : isBlank c = false) (last : Option Token)
    (rest : List Char) : read last c rest = readName c rest := by
  have ne (d : Char) (other : isNameStart d = false) : c ≠ d := by
    rintro rfl
    simp_all
  simp [read, blank, startsNumber, isDigit_of_isNameStart name, name, ne '/' rfl, ne '"' rfl, ne '\'' rfl,
    ne '@' rfl, ne '#' rfl, ne '.' rfl, ne '-' rfl]

def isSolitary (c : Char) : Bool :=
  !isBlank c && !isNameStart c && !c.isDigit && !List.contains ['/', '"', '\'', '@', '#', '-', '.'] c

theorem read_solitary {c : Char} (solitary : isSolitary c = true) (last : Option Token) (rest : List Char) :
    read last c rest = .token (markKind c) 0 := by
  simp only [isSolitary, Bool.and_eq_true, Bool.not_eq_true'] at solitary
  obtain ⟨⟨⟨blank, name⟩, digit⟩, other⟩ := solitary
  simp at other
  simp [read, blank, startsNumber, digit, name, other]

/-! ### The branches -/

theorem isNumeric_numberExtent (cs : List Char) : (numberExtent cs).1.isNumeric = true := by
  unfold numberExtent
  dsimp only
  repeat' split
  all_goals rfl

theorem read_number {c : Char} {rest : List Char} (starts : startsNumber (c :: rest) = true) (last : Option Token) :
    read last c rest = .token (numberExtent (c :: rest)).1 ((numberExtent (c :: rest)).2 - 1) := by
  rcases (Bool.or_eq_true _ _).mp starts with digit | point
  · exact read_digit digit last rest
  · obtain ⟨same, digit⟩ := Bool.and_eq_true_iff.mp point
    cases beq_iff_eq.mp same
    rw [read_point, if_pos digit]

theorem markKind_mem (c : Char) : markKind c ∈ [Kind.colon, .delimiter, .parenOpen, .parenClose, .braceOpen, .braceClose,
    .bracketOpen, .bracketClose, .other] := by
  unfold markKind
  repeat' split
  all_goals decide

theorem isNumeric_markKind (c : Char) : (markKind c).isNumeric = false := by
  unfold markKind
  repeat' split
  all_goals rfl

theorem ofExtent_eq_token {kind kind' : Kind} {expected : Expectation} {extent : Extent} {more : Nat}
    (same : ofExtent kind expected extent = .token kind' more) :
    kind = kind' ∧ extent = ⟨true, more⟩ := by
  obtain ⟨closed, length⟩ := extent
  rw [ofExtent] at same
  cases closed with
  | false => cases same
  | true =>
    cases same
    exact ⟨rfl, rfl⟩

theorem extent_of_readName {c : Char} {rest : List Char} {more : Nat} (read_ : readName c rest = .token .url more) :
    (urlExtent 0 (rest.drop (nameExtent false (c :: rest) - 1))).add (nameExtent false (c :: rest) - 1) =
      ⟨true, more⟩ := by
  rw [readName] at read_
  split at read_
  · exact (ofExtent_eq_token read_).2
  · cases read_

inductive Branch (last : Option Token) : Char → List Char → Kind → Nat → Prop where
  | blanks {c : Char} {rest : List Char} (blank : isBlank c = true) :
      Branch last c rest .whitespace (rest.takeWhile isBlank).length
  | comment {rest : List Char} {more : Nat} (opens : rest.head? = some '*')
      (closed : (commentExtent rest.tail).add 1 = ⟨true, more⟩) : Branch last '/' rest .comment more
  | line {rest : List Char} (opens : rest.head? = some '/') :
      Branch last '/' rest .comment (rest.takeWhile (· != '\n')).length
  | string {c : Char} {rest : List Char} {more : Nat} (quote : c = '"' ∨ c = '\'')
      (closed : stringExtent c rest = ⟨true, more⟩) : Branch last c rest .string more
  | hole {rest : List Char} (opens : rest.head? = some '\x7b') :
      Branch last '@' rest .identifier (nameExtent false ('@' :: rest) - 1)
  | keyword {rest : List Char} : Branch last '@' rest .atKeyword (nameExtent false rest)
  | hash {rest : List Char} : Branch last '#' rest .hash (nameExtent false rest)
  | number {c : Char} {rest : List Char} (starts : startsNumber (c :: rest) = true) :
      Branch last c rest (numberExtent (c :: rest)).1 ((numberExtent (c :: rest)).2 - 1)
  | signed {rest : List Char} (starts : startsNumber rest = true) (sign : allowsSign last = true) :
      Branch last '-' rest (numberExtent rest).1 (numberExtent rest).2
  | dashed {rest : List Char} (named : startsName rest = true) :
      Branch last '-' rest .identifier (nameExtent false ('-' :: rest) - 1)
  | url {c : Char} {rest : List Char} {more : Nat} (read : readName c rest = .token .url more) :
      Branch last c rest .url more
  | name {c : Char} {rest : List Char} (named : isNameStart c = true) :
      Branch last c rest .identifier (nameExtent false (c :: rest) - 1)
  | mark {c : Char} {rest : List Char} : Branch last c rest (markKind c) 0

/-- Every token is read in one of the ways. What holds of tokens is shown way by way from here on. -/
theorem branch_of_read {last : Option Token} {c : Char} {rest : List Char} {kind : Kind} {more : Nat}
    (read_ : read last c rest = .token kind more) : Branch last c rest kind more := by
  -- The conditions are cut off one by one, in the order in which they are tried.
  have cut {condition : Prop} [Decidable condition] {one other : Reading}
      (read_ : (if condition then one else other) = .token kind more) :
      condition ∧ one = .token kind more ∨ ¬condition ∧ other = .token kind more := by
    split at read_
    · exact .inl ⟨‹_›, read_⟩
    · exact .inr ⟨‹_›, read_⟩
  unfold read at read_
  dsimp only at read_
  rcases cut read_ with ⟨blank, found⟩ | ⟨_, read_⟩
  · cases found
    exact .blanks blank
  rcases cut read_ with ⟨opens, found⟩ | ⟨_, read_⟩
  · obtain ⟨slash, star⟩ := Bool.and_eq_true_iff.mp opens
    cases beq_iff_eq.mp slash
    obtain ⟨rfl, closed⟩ := ofExtent_eq_token found
    exact .comment (beq_iff_eq.mp star) closed
  rcases cut read_ with ⟨opens, found⟩ | ⟨_, read_⟩
  · obtain ⟨slash, second⟩ := Bool.and_eq_true_iff.mp opens
    cases beq_iff_eq.mp slash
    cases found
    exact .line (beq_iff_eq.mp second)
  rcases cut read_ with ⟨quote, found⟩ | ⟨_, read_⟩
  · obtain ⟨rfl, closed⟩ := ofExtent_eq_token found
    exact .string (by simpa using quote) closed
  rcases cut read_ with ⟨sign, found⟩ | ⟨_, read_⟩
  · cases beq_iff_eq.mp sign
    rcases cut found with ⟨opens, found⟩ | ⟨_, found⟩
    · cases found
      exact .hole (beq_iff_eq.mp opens)
    · rcases cut found with ⟨_, found⟩ | ⟨_, found⟩ <;> cases found
      · exact .keyword
      · exact .mark
  rcases cut read_ with ⟨named, found⟩ | ⟨_, read_⟩
  · cases beq_iff_eq.mp (Bool.and_eq_true_iff.mp named).1
    cases found
    exact .hash
  rcases cut read_ with ⟨starts, found⟩ | ⟨_, read_⟩
  · cases found
    exact .number starts
  rcases cut read_ with ⟨signed, found⟩ | ⟨_, read_⟩
  · obtain ⟨minus, sign⟩ := Bool.and_eq_true_iff.mp signed
    obtain ⟨minus, starts⟩ := Bool.and_eq_true_iff.mp minus
    cases beq_iff_eq.mp minus
    cases found
    exact .signed starts sign
  rcases cut read_ with ⟨named, found⟩ | ⟨_, read_⟩
  · obtain ⟨minus, named⟩ := Bool.and_eq_true_iff.mp named
    cases beq_iff_eq.mp minus
    cases found
    exact .dashed named
  rcases cut read_ with ⟨named, found⟩ | ⟨_, found⟩
  · have whole := found
    rw [readName] at found
    rcases cut found with ⟨_, found⟩ | ⟨_, found⟩
    · cases (ofExtent_eq_token found).1
      exact .url whole
    · cases found
      exact .name named
  · cases found
    exact .mark

/-- What kinds of tokens begin with a character. -/
theorem read_cases {last : Option Token} {c : Char} {rest : List Char} {kind : Kind} {more : Nat}
    (read_ : read last c rest = .token kind more) :
    kind = .whitespace ∨ kind = .comment ∨ kind = .string ∨ kind = .identifier ∨ kind = .url ∨ kind = .hash ∨
      kind = .atKeyword ∧ c = '@' ∨
      kind.isNumeric = true ∧ (startsNumber (c :: rest) = true ∨ c = '-' ∧ allowsSign last = true) ∨
      kind = markKind c ∧ more = 0 := by
  cases branch_of_read read_ with
  | number starts => simp [isNumeric_numberExtent, starts]
  | signed starts sign => simp [isNumeric_numberExtent, sign]
  | _ => simp

end LessCss.Lexeme
