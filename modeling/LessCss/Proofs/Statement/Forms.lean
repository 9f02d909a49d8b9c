import LessCss.Proofs.Token.Cuts

/-! The forms of statements: where the colon of a declaration stands, what is left of a
value without its mark `!important`, and when a declaration is no call. -/

set_option autoImplicit false

namespace LessCss.Statement

open List

open Tokens

variable {tokens before after property value : Tokens} {depth : Nat} {colon : Token}

/-! ### Colons -/

theorem exists_of_splitColon? (found : splitColon? depth tokens = some (before, after)) :
    ∃ colon, colon.kind = .colon ∧ tokens = before ++ colon :: after ∧ depthAfter depth before = 0 ∧
      splitColon? depth before = none := by
  induction tokens generalizing depth before with
  | nil => cases found
  | cons token rest ih =>
    rw [splitColon?] at found
    split at found
    · rename_i cut
      rw [Bool.and_eq_true, decide_eq_true_eq, decide_eq_true_eq] at cut
      cases found
      exact ⟨token, cut.2, rfl, cut.1, rfl⟩
    · rename_i on
      obtain ⟨⟨before', after'⟩, found', same⟩ := Option.map_eq_some_iff.mp found
      cases same
      obtain ⟨colon, kind, rfl, level, none_⟩ := ih found'
      refine ⟨colon, kind, rfl, level, ?_⟩
      rw [splitColon?, if_neg on, none_]
      rfl

theorem splitColon?_append (none_ : splitColon? depth before = none) (level : depthAfter depth before = 0)
    (kind : colon.kind = .colon) (after : Tokens) :
    splitColon? depth (before ++ colon :: after) = some (before, after) := by
  induction before generalizing depth with
  | nil =>
    have outside : depth = 0 := level
    rw [nil_append, splitColon?, if_pos (by simp [outside, kind])]
  | cons token before ih =>
    rw [splitColon?] at none_
    split at none_
    · cases none_
    · rename_i on
      rw [cons_append, splitColon?, if_neg on, ih (Option.map_eq_none_iff.mp none_) level]
      rfl

/-- What a declaration is made of. -/
theorem exists_of_declaration? (found : declaration? tokens = some (property, value)) :
    ∃ before colon after, tokens = before ++ colon :: after ∧ property = trim before ∧ value = trim after ∧
      colon.kind = .colon ∧ depthAfter 0 before = 0 ∧ splitColon? 0 before = none ∧ property ≠ [] ∧
      ∀ token ∈ property, token.kind ≠ .whitespace := by
  rw [declaration?] at found
  cases split_ : splitColon? 0 tokens with
  | none =>
    rw [split_] at found
    cases found
  | some parts =>
    obtain ⟨before, after⟩ := parts
    rw [split_] at found
    dsimp only at found
    split at found
    · cases found
    · rename_i filled
      cases found
      obtain ⟨colon, kind, rfl, level, none_⟩ := exists_of_splitColon? split_
      simp only [Bool.or_eq_true, not_or, List.isEmpty_iff, any_eq_true, beq_iff_eq, not_exists, not_and] at filled
      exact ⟨before, colon, after, rfl, rfl, rfl, kind, level, none_, filled.1, filled.2⟩

/-! ### Importance -/

/-- A value is what is left of it, or what is left of it and the mark. -/
theorem stripImportant_cases (trimmed : trim value = value) : stripImportant value = (value, false) ∨
    ∃ front gap mark gap' word, value = front ++ gap ++ mark :: (gap' ++ [word]) ∧ Blank gap ∧ Blank gap' ∧
      mark.text = "!" ∧ word.text = "important" ∧ trimRight front = front ∧ stripImportant value = (front, true) := by
  have right : trimRight value = value := by
    rw [← trimmed, trim, trimRight_trimRight]
  have solid : value.reverse.dropWhile Token.isBlank = value.reverse := by
    rw [← reverse_inj, reverse_reverse]
    exact right
  unfold stripImportant
  rw [solid]
  -- The mark is looked for from behind: its last word, blanks, the sign, and blanks in front of it.
  cases reversed : value.reverse with
  | nil => exact .inl (by rw [right])
  | cons word rest =>
    dsimp only
    obtain ⟨gap', blank', same'⟩ := exists_trimLeft rest
    rw [trimLeft] at same'
    cases found : rest.dropWhile Token.isBlank with
    | nil => exact .inl (by rw [right])
    | cons mark front =>
      dsimp only
      split
      · rename_i both
        rw [Bool.and_eq_true, decide_eq_true_eq, decide_eq_true_eq] at both
        obtain ⟨gap, blank, same⟩ := exists_trimLeft front
        refine .inr ⟨(trimLeft front).reverse, gap.reverse, mark, gap'.reverse, word, ?_, ?_, ?_, both.2, both.1, ?_, rfl⟩
        · have order := congrArg List.reverse reversed
          rw [reverse_reverse] at order
          rw [order, same', found]
          conv => lhs; rw [same]
          simp
        · exact fun token member => blank token (mem_reverse.mp member)
        · exact fun token member => blank' token (mem_reverse.mp member)
        · rw [trimRight, reverse_reverse]
          exact congrArg List.reverse (trimLeft_trimLeft front)
      · exact .inl (by rw [right])

theorem mem_of_stripImportant (trimmed : trim value = value) {token : Token} (member : token ∈ (stripImportant value).1) :
    token ∈ value := by
  rcases stripImportant_cases trimmed with same | ⟨front, gap, mark, gap', word, same, _, _, _, _, _, stripped⟩
  · rwa [same] at member
  · rw [stripped] at member
    rw [same]
    simp [show token ∈ front from member]

theorem stripImportant_append {front gap : Tokens} {mark word : Token} (right : trimRight front = front)
    (blank : Blank gap) (bang : mark.text = "!") (solid : mark.isBlank = false) (important : word.text = "important")
    (solid' : word.isBlank = false) : stripImportant (front ++ gap ++ [mark, word]) = (front, true) := by
  have back : (gap.reverse ++ front.reverse).dropWhile Token.isBlank = front.reverse := by
    rw [dropWhile_append_of_pos fun token member => blank token (mem_reverse.mp member),
      ← reverse_inj, reverse_reverse]
    exact right
  simp [stripImportant, solid, solid', bang, important, back]

end LessCss.Statement

namespace LessCss

open List

/-! ### Calls -/

namespace Tokens

/-- How many parentheses are open behind tokens inside a group, if none of them closes the group. -/
def opened? (depth : Nat) : Tokens → Option Nat
  | [] => some depth
  | token :: rest =>
    if token.kind = .parenClose then if depth = 0 then none else opened? (depth - 1) rest
    else opened? (if token.kind = .parenOpen then depth + 1 else depth) rest

variable {tokens rest : Tokens} {depth level : Nat}

theorem takeGroup?_append (inside : opened? depth tokens = some level) (rest : Tokens) :
    takeGroup? depth (tokens ++ rest) = (takeGroup? level rest).map fun group => (tokens ++ group.1, group.2) := by
  induction tokens generalizing depth with
  | nil =>
    cases inside
    simp
  | cons token tokens ih =>
    rw [opened?] at inside
    rw [cons_append, takeGroup?]
    split at inside
    · rename_i closes
      split at inside
      · cases inside
      · rename_i deeper
        rw [if_pos closes, if_neg deeper, ih inside, Option.map_map]
        rfl
    · rename_i other
      rw [if_neg other, ih inside, Option.map_map]
      rfl

theorem takeGroup?_append_of_closed (closed : opened? depth tokens = none) (rest : Tokens) :
    ∃ inner after, takeGroup? depth tokens = some (inner, after) ∧
      takeGroup? depth (tokens ++ rest) = some (inner, after ++ rest) := by
  induction tokens generalizing depth with
  | nil => cases closed
  | cons token tokens ih =>
    rw [opened?] at closed
    rw [cons_append, takeGroup?, takeGroup?]
    split at closed
    · rename_i closes
      rw [if_pos closes, if_pos closes]
      split at closed
      · rename_i outside
        rw [if_pos outside, if_pos outside]
        exact ⟨[], tokens, rfl, rfl⟩
      · rename_i deeper
        obtain ⟨inner, after, taken, taken'⟩ := ih closed
        rw [if_neg deeper, if_neg deeper, taken, taken']
        exact ⟨token :: inner, after, rfl, rfl⟩
    · rename_i other
      obtain ⟨inner, after, taken, taken'⟩ := ih closed
      rw [if_neg other, if_neg other, taken, taken']
      exact ⟨token :: inner, after, rfl, rfl⟩

theorem takeGroup?_extend {inner after : Tokens} (taken : takeGroup? depth tokens = some (inner, after)) (rest : Tokens) :
    takeGroup? depth (tokens ++ rest) = some (inner, after ++ rest) := by
  cases inside : opened? depth tokens with
  | none =>
    obtain ⟨inner', after', taken', whole⟩ := takeGroup?_append_of_closed inside rest
    rw [taken] at taken'
    cases taken'
    exact whole
  | some level =>
    have none_ := takeGroup?_append inside []
    rw [append_nil, taken] at none_
    cases none_

theorem opened?_append (depth : Nat) (tokens rest : Tokens) :
    opened? depth (tokens ++ rest) = (opened? depth tokens).bind fun level => opened? level rest := by
  induction tokens generalizing depth with
  | nil => rfl
  | cons token tokens ih =>
    rw [cons_append, opened?, opened?]
    split
    · split
      · rfl
      · exact ih _
    · exact ih _

end Tokens

namespace MixinCall

open Tokens

variable {tokens front tail : Tokens} {depth : Nat} {colon : Token}

theorem readPath_before {stop : Token} (stops : stop.kind = .colon ∨ stop.kind = .parenOpen) (started : Bool)
    (tokens rest : Tokens) : readPath started (tokens ++ stop :: rest) = ((readPath started tokens).1,
      (readPath started tokens).2.1, (readPath started tokens).2.2 ++ stop :: rest) := by
  have hash : stop.kind ≠ .hash := by rcases stops with kind | kind <;> rw [kind] <;> decide
  have word : (stop.kind == .identifier) = false := by rcases stops with kind | kind <;> rw [kind] <;> rfl
  have mark (text : String) : stop.isMark text = false := by
    rcases stops with kind | kind <;> simp [Token.isMark, kind]
  have solid : stop.isBlank = false := by rcases stops with kind | kind <;> rw [Token.isBlank, kind] <;> rfl
  fun_induction readPath started tokens with
  | case1 started => exact readPath_stop hash (by simp [solid, mark]) (by simp [mark])
  | case2 started token tail hash' name path after found ih =>
    rw [cons_append, readPath_hash hash', ih, found]
  | case3 started token tail hash' on name path after found ih =>
    rw [cons_append, readPath_on hash' on, ih, found]
  | case4 started token hash' on word' tail cls name path after found ih =>
    rw [cons_append, cons_append, readPath_class hash' on cls, ih, found]
  | case5 started token hash' on word' tail cls =>
    rw [cons_append, cons_append, readPath_stop hash' on (by simpa using cls)]
  | case6 started token hash' on =>
    rw [cons_append, nil_append, readPath_stop hash' on (by simp [word])]

theorem mem_trimLeft {token : Token} (solid : token.isBlank = false) (member : token ∈ tokens) :
    token ∈ trimLeft tokens := by
  obtain ⟨before, blank, same⟩ := exists_trimLeft tokens
  rw [same] at member
  rcases mem_append.mp member with inside | inside
  · rw [blank token inside] at solid
    cases solid
  · exact inside

theorem readImportant?_of_mem {token : Token} (member : token ∈ tokens) (solid : token.isBlank = false)
    (bang : token.text ≠ "!") (important : token.text ≠ "important") : readImportant? tokens = none := by
  have first := mem_trimLeft solid member
  rw [readImportant?]
  cases found : trimLeft tokens with
  | nil =>
    rw [found] at first
    cases first
  | cons mark rest =>
    dsimp only
    split
    · rename_i isBang
      rw [found] at first
      -- The token is neither the sign nor the word, and what follows the word has to be blank.
      have second := mem_trimLeft solid ((mem_cons.mp first).resolve_left (by rintro rfl; exact bang isBang))
      cases found' : trimLeft rest with
      | nil => rfl
      | cons word after =>
        dsimp only
        refine if_neg fun both => ?_
        rw [Bool.and_eq_true, decide_eq_true_eq, List.isEmpty_iff] at both
        rw [found'] at second
        have third := (mem_cons.mp second).resolve_left (by rintro rfl; exact important both.1)
        rw [blank_of_trim both.2 token third] at solid
        cases solid
    · rfl

/-- A path and an opening parenthesis stand at the front, and so many parentheses are open inside it. -/
def Opens (depth : Nat) (front : Tokens) : Prop :=
  ∃ name opening inner, front = name ++ opening :: inner ∧ opening.kind = .parenOpen ∧
    (readPath false name).2.1 ≠ [] ∧ (readPath false name).2.2 = [] ∧ opened? 0 inner = some depth

/-- A statement with a colon outside brackets is a call only if the colon stands in the arguments. -/
theorem isSome_read?_iff (trimmed : trim (front ++ colon :: tail) = front ++ colon :: tail) (kind : colon.kind = .colon)
    (text : colon.text = ":") : (read? (front ++ colon :: tail)).isSome = true ↔
      ∃ depth, Opens depth front ∧ ∃ group, takeGroup? depth tail = some group ∧ (readImportant? group.2).isSome = true := by
  -- Behind the arguments only blanks and the mark may follow, never the colon.
  have noImportant {others : Tokens} (member : colon ∈ others) : readImportant? others = none := by
    apply readImportant?_of_mem member
    · rw [Token.isBlank, kind]
      rfl
    · rw [text]
      decide
    · rw [text]
      decide
  have groupOf (inner : Tokens) {opening : Token} (opens : opening.kind = .parenOpen) {depth : Nat}
      (inside : opened? 0 inner = some depth) : readGroup? (opening :: inner ++ colon :: tail) =
        (takeGroup? depth tail).map fun group => (inner ++ colon :: group.1, group.2) := by
    rw [readGroup?, if_pos (by simp [headIs, headKind?, opens])]
    change takeGroup? 0 (inner ++ colon :: tail) = _
    rw [takeGroup?_append inside, takeGroup?, if_neg (by rw [kind]; decide), if_neg (by rw [kind]; decide), Option.map_map]
    rfl
  rw [isSome_read?, trimmed, readPath_before (.inl kind), Bool.and_eq_true, Bool.not_eq_true', Option.any_eq_true]
  dsimp only
  constructor
  · rintro ⟨some_, group, found, important⟩
    have whole := readPath_append false front
    cases after : (readPath false front).2.2 with
    | nil =>
      rw [after, nil_append, readGroup?, if_neg (by simp [headIs, headKind?, kind])] at found
      cases found
      rw [noImportant mem_cons_self] at important
      cases important
    | cons opening inner =>
      rw [after] at found whole
      by_cases opens : opening.kind = .parenOpen
      · -- The group is closed in front of the colon, or the colon stands in it.
        cases inside : opened? 0 inner with
        | none =>
          obtain ⟨inner', after', _, taken⟩ := takeGroup?_append_of_closed inside (colon :: tail)
          rw [readGroup?, if_pos (by simp [headIs, headKind?, opens])] at found
          have found' : takeGroup? 0 (inner ++ colon :: tail) = some group := found
          rw [taken] at found'
          cases found'
          rw [noImportant (by simp)] at important
          cases important
        | some depth =>
          rw [groupOf inner opens inside] at found
          obtain ⟨group', taken, rfl⟩ := Option.map_eq_some_iff.mp found
          refine ⟨depth, ⟨(readPath false front).1, opening, inner, whole.symm, opens, ?_⟩, group', taken, important⟩
          -- The path ends at the parenthesis, so it is read in the same way without what follows.
          have again := readPath_before (.inr opens) false (readPath false front).1 inner
          rw [whole] at again
          have path := congrArg (fun result => result.2.1) again
          have rest := congrArg (fun result => result.2.2) again
          dsimp only at path rest
          rw [after, self_eq_append_left] at rest
          rw [path] at some_
          exact ⟨by simpa using some_, rest, inside⟩
      · rw [readGroup?, if_neg (by simp [headIs, headKind?, opens])] at found
        cases found
        rw [noImportant (by simp)] at important
        cases important
  · rintro ⟨depth, ⟨name, opening, inner, rfl, opens, some_, none_, inside⟩, group, taken, important⟩
    rw [readPath_before (.inr opens) false name inner]
    dsimp only
    refine ⟨by simpa using some_, (inner ++ colon :: group.1, group.2), ?_, important⟩
    rw [none_, nil_append, groupOf inner opens inside, taken]
    rfl

theorem Opens.append {level : Nat} {rest : Tokens} (opens : Opens depth front) (goes : opened? depth rest = some level) :
    Opens level (front ++ rest) := by
  obtain ⟨name, opening, inner, rfl, paren, some_, none_, inside⟩ := opens
  refine ⟨name, opening, inner ++ rest, by simp, paren, some_, none_, ?_⟩
  rw [opened?_append, inside]
  exact goes

theorem Opens.dropLast {token : Token} (opens : Opens depth (front ++ [token])) (noOpen : token.kind ≠ .parenOpen)
    (noClose : token.kind ≠ .parenClose) : Opens depth front := by
  obtain ⟨name, opening, inner, same, paren, some_, none_, inside⟩ := opens
  rcases eq_nil_or_concat inner with rfl | ⟨inner, last, rfl⟩
  · obtain ⟨_, single⟩ := append_inj' same rfl
    cases single
    exact absurd paren noOpen
  · rw [concat_eq_append, ← cons_append, ← List.append_assoc] at same
    obtain ⟨rfl, single⟩ := append_inj' same rfl
    cases single
    refine ⟨name, opening, inner, rfl, paren, some_, none_, ?_⟩
    rw [concat_eq_append, opened?_append] at inside
    obtain ⟨level, inside, last⟩ := Option.bind_eq_some_iff.mp inside
    rw [opened?, if_neg noClose, if_neg noOpen] at last
    rw [inside]
    exact last

/-! ### Declarations that are printed -/

theorem readImportant?_mark {gap gap' after : Tokens} {mark word : Token} (blank : Blank gap) (blank' : Blank gap')
    (blankAfter : Blank after) (bang : mark.text = "!") (solid : mark.isBlank = false) (important : word.text = "important")
    (solid' : word.isBlank = false) : (readImportant? (gap ++ mark :: (gap' ++ word :: after))).isSome = true := by
  have first : trimLeft (gap ++ mark :: (gap' ++ word :: after)) = mark :: (gap' ++ word :: after) := by
    rw [trimLeft, dropWhile_append_of_pos blank, dropWhile_cons_of_neg (by simp [solid])]
  have second : trimLeft (gap' ++ word :: after) = word :: after := by
    rw [trimLeft, dropWhile_append_of_pos blank', dropWhile_cons_of_neg (by simp [solid'])]
  have third : trim after = [] := by
    rw [trim, trimLeft_of_blank blankAfter]
    rfl
  simp [readImportant?, first, second, bang, important, third]

/-- In front of the mark only blanks may stand. -/
theorem blank_of_readImportant? {rest gap : Tokens} {mark word : Token} (bang : mark.text = "!")
    (solid : mark.isBlank = false) (found : (readImportant? (rest ++ gap ++ [mark, word])).isSome = true) : Blank rest := by
  have front := exists_trimLeft rest
  cases some_ : trimLeft rest with
  | nil =>
    obtain ⟨before, blank, same⟩ := front
    rw [same, some_, append_nil]
    exact blank
  | cons first more =>
    exfalso
    have start : trimLeft (rest ++ gap ++ [mark, word]) = first :: (more ++ gap ++ [mark, word]) := by
      have solid' : first.isBlank = false := trimLeft_eq_self_iff.mp (trimLeft_trimLeft rest) first (by rw [some_]; rfl)
      obtain ⟨before, blank, same⟩ := front
      rw [same, some_, List.append_assoc, List.append_assoc, trimLeft, dropWhile_append_of_pos blank,
        cons_append, dropWhile_cons_of_neg (by simp [solid']), List.append_assoc]
    -- If something else stood in front, it would be the sign that is found, and the mark would follow it.
    have inside : mark ∈ trimLeft (more ++ gap ++ [mark, word]) := mem_trimLeft solid (by simp)
    rw [readImportant?, start] at found
    dsimp only at found
    split at found
    · cases next : trimLeft (more ++ gap ++ [mark, word]) with
      | nil =>
        rw [next] at inside
        cases inside
      | cons second after =>
        rw [next] at found inside
        dsimp only at found
        split at found
        · rename_i both
          rw [Bool.and_eq_true, decide_eq_true_eq, List.isEmpty_iff] at both
          rcases mem_cons.mp inside with rfl | inside
          · rw [both.1] at bang
            exact absurd bang (by decide)
          · rw [blank_of_trim both.2 mark inside] at solid
            cases solid
        · cases found
    · cases found

theorem readImportant?_append {behind : Tokens} (blank : Blank behind) (found : (readImportant? tokens).isSome = true) :
    (readImportant? (tokens ++ behind)).isSome = true := by
  have blank_append {others : Tokens} (others' : Blank others) : Blank (others ++ behind) := fun token member =>
    (mem_append.mp member).elim (others' token) (blank token)
  obtain ⟨gap, blankGap, same⟩ := exists_trimLeft tokens
  rw [readImportant?] at found
  cases first : trimLeft tokens with
  | nil =>
    have all : Blank (tokens ++ behind) := blank_append (by rw [same, first, append_nil]; exact blankGap)
    rw [readImportant?, trimLeft_of_blank all]
    rfl
  | cons mark rest =>
    rw [first] at found same
    dsimp only at found
    split at found
    · rename_i bang
      obtain ⟨gap', blankGap', same'⟩ := exists_trimLeft rest
      cases second : trimLeft rest with
      | nil =>
        rw [second] at found
        cases found
      | cons word after =>
        rw [second] at found same'
        dsimp only at found
        split at found
        · rename_i both
          rw [Bool.and_eq_true, decide_eq_true_eq, List.isEmpty_iff] at both
          have solid : mark.isBlank = false := trimLeft_eq_self_iff.mp (trimLeft_trimLeft tokens) mark (by rw [first]; rfl)
          have solid' : word.isBlank = false := trimLeft_eq_self_iff.mp (trimLeft_trimLeft rest) word (by rw [second]; rfl)
          -- Blanks behind the mark may be added to those that are there.
          have marked := readImportant?_mark blankGap blankGap' (blank_append (blank_of_trim both.2)) bang solid both.1 solid'
          rw [same, same']
          simpa using marked
        · cases found
    · cases found

theorem opened?_blank (blank : Blank tokens) (depth : Nat) : opened? depth tokens = some depth := by
  induction tokens with
  | nil => rfl
  | cons token rest ih =>
    obtain ⟨first, others⟩ := forall_mem_cons.mp blank
    have kind := kind_of_blank first
    have closes : token.kind ≠ .parenClose := by
      intro same
      rw [same] at kind
      cases kind.2
    have opens : token.kind ≠ .parenOpen := by
      intro same
      rw [same] at kind
      cases kind.1
    rw [opened?, if_neg closes, if_neg opens]
    exact ih others

structure Ending (value : Tokens) (important : Bool) (tail : Tokens) : Prop where
  shape : ∃ gap, Blank gap ∧ (important = false ∧ tail = gap ++ value ∨
    important = true ∧ ∃ gap' mark word, Blank gap' ∧ tail = gap ++ value ++ gap' ++ [mark, word] ∧ mark.kind = .other ∧
      mark.text = "!" ∧ word.kind = .identifier ∧ word.text = "important")

/-- Printing a value makes no group end in front of nothing but the mark. -/
theorem exists_group_of_ending {after value tail : Tokens} {important : Bool}
    (stripped : Statement.stripImportant (trim after) = (value, important)) (printed : Ending value important tail)
    (solid : ∀ token ∈ after, token.text = "!" ∨ token.text = "important" → token.isBlank = false) {group : Tokens × Tokens}
    (taken : takeGroup? depth tail = some group) (found : (readImportant? group.2).isSome = true) :
    ∃ group', takeGroup? depth after = some group' ∧ (readImportant? group'.2).isSome = true := by
  obtain ⟨before, behind, blank, blank', same⟩ := exists_trim after
  obtain ⟨gap, blankGap, shape⟩ := printed
  have skip {front : Tokens} (blank : Blank front) (rest : Tokens) :=
    takeGroup?_append (opened?_blank blank depth) rest
  rw [same, List.append_assoc, skip blank]
  rcases Statement.stripImportant_cases (trim_trim after) with
    whole | ⟨front, gap₁, mark, gap₂, word, split, blank₁, blank₂, bang, isWord, _, stripped'⟩
  · rw [whole] at stripped
    cases stripped
    obtain ⟨_, rfl⟩ := shape.resolve_right (by simp)
    rw [skip blankGap] at taken
    obtain ⟨⟨inner, rest⟩, inside, rfl⟩ := Option.map_eq_some_iff.mp taken
    rw [takeGroup?_extend inside]
    exact ⟨_, rfl, readImportant?_append blank' found⟩
  · rw [stripped'] at stripped
    cases stripped
    obtain ⟨_, gap', mark', word', blankGap', rfl, kind, bang', kind', _⟩ := shape.resolve_left (by simp)
    rw [List.append_assoc, List.append_assoc, skip blankGap] at taken
    obtain ⟨⟨inner, rest⟩, taken', rfl⟩ := Option.map_eq_some_iff.mp taken
    cases inside : opened? depth value with
    | some level =>
      -- The mark closes no group.
      have none_ : takeGroup? level (gap' ++ [mark', word']) = none := by
        rw [takeGroup?_append (opened?_blank blankGap' level)]
        simp [takeGroup?, kind, kind']
      rw [takeGroup?_append inside, none_] at taken'
      cases taken'
    | none =>
      obtain ⟨inner', rest', closed, whole⟩ := takeGroup?_append_of_closed inside (gap' ++ [mark', word'])
      rw [whole] at taken'
      cases taken'
      have blankRest : Blank rest' := by
        apply blank_of_readImportant? bang'
        · rw [Token.isBlank, kind]
          rfl
        · rw [List.append_assoc]
          exact found
      rw [split, List.append_assoc, List.append_assoc, takeGroup?_extend closed]
      refine ⟨_, rfl, ?_⟩
      have front : Blank (rest' ++ gap₁) := fun token member =>
        (mem_append.mp member).elim (blankRest token) (blank₁ token)
      have inside (token : Token) (member : token ∈ trim after) : token ∈ after := mem_of_mem_trim member
      have marked := readImportant?_mark front blank₂ blank' bang (solid mark (inside mark (by simp [split])) (.inl bang))
        isWord (solid word (inside word (by simp [split])) (.inr isWord))
      simpa using marked

end MixinCall

end LessCss
