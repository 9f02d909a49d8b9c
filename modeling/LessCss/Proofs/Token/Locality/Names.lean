import LessCss.Proofs.Token.Extents

/-! Texts behind a token, and the names in front of them. A name goes on as long as the text
lets it, so it ends again in front of a text that brings in nothing new. -/

set_option autoImplicit false

namespace LessCss.Lexeme

open List

/-! ### Texts behind a token -/

/-- Characters that lengthen no token in front of them but a blank or a comment. -/
def isQuiet (c : Char) : Bool :=
  !isNameChar c && !List.contains ['(', '*', '/', '.', '%', '@', '\x7b'] c

def isNoisyPair (d e : Char) : Bool := (d == '@' && e == '\x7b') || (d == '.' && e.isDigit)

/-- Behind a token that begins with `first`, the second text brings in nothing that
the first text has not. A brace counts behind an `@` only. -/
def Calmer (first : Char) (after after' : List Char) : Prop :=
  ∀ d rest', after' = d :: rest' → isQuiet d = false → (d = '\x7b' → first = '@') →
    ∃ rest, after = d :: rest ∧ ∀ e, rest'.head? = some e → isNoisyPair d e = true → rest.head? = some e

section

variable {first : Char} {after after' : List Char}

theorem calmer_nil (first : Char) (after : List Char) : Calmer first after [] :=
  fun _ _ same => nomatch same

theorem calmer_quiet {d : Char} (quiet : isQuiet d = true) (first : Char) (after rest' : List Char) :
    Calmer first after (d :: rest') := by
  rintro _ _ ⟨rfl, rfl⟩ noisy
  rw [quiet] at noisy
  cases noisy

theorem calmer_brace (plain : first ≠ '@') (after rest' : List Char) :
    Calmer first after ('\x7b' :: rest') := by
  rintro _ _ ⟨rfl, rfl⟩ _ brace
  exact absurd (brace rfl) plain

theorem calmer_cons {d : Char} {rest rest' : List Char}
    (same : ∀ e, rest'.head? = some e → isNoisyPair d e = true → rest.head? = some e) :
    Calmer first (d :: rest) (d :: rest') := by
  rintro _ _ ⟨rfl, rfl⟩ _ _
  exact ⟨rest, rfl, same⟩

/-- A test that only noisy characters pass fails behind the token again. -/
theorem Calmer.head {test : Char → Bool} (calmer : Calmer first after after')
    (noisy : ∀ d, test d = true → isQuiet d = false ∧ (d = '\x7b' → first = '@'))
    (fails : after.head?.any test = false) : after'.head?.any test = false := by
  cases after' with
  | nil => rfl
  | cons d rest' =>
    cases passes : test d with
    | false => simpa using passes
    | true =>
      obtain ⟨rest, rfl, _⟩ := calmer d rest' rfl (noisy d passes).1 (noisy d passes).2
      simp [passes] at fails

theorem Calmer.head_eq {d : Char} (calmer : Calmer first after after') (noisy : isQuiet d = false)
    (plain : d ≠ '\x7b') (head : after'.head? = some d) : after.head? = some d := by
  obtain ⟨rest', rfl⟩ := List.head?_eq_some_iff.mp head
  obtain ⟨rest, rfl, _⟩ := calmer d rest' rfl noisy fun brace => absurd brace plain
  rfl

theorem Calmer.name_ends (calmer : Calmer first after after')
    (ends : nameExtent false after = 0) : nameExtent false after' = 0 := by
  cases after' with
  | nil => rfl
  | cons d rest' =>
    by_cases named : isNameChar d = true
    · have noisy : isQuiet d = false := by simp [isQuiet, named]
      have plain : d ≠ '\x7b' := by
        rintro rfl
        revert named
        decide
      obtain ⟨rest, rfl, _⟩ := calmer d rest' rfl noisy fun brace => absurd brace plain
      exact absurd ends (nameExtent_ne_zero rest named)
    · refine nameExtent_stop (by simpa using named) ?_
      rintro rfl opens
      obtain ⟨rest, rfl, same⟩ := calmer '@' rest' rfl rfl nofun
      rw [nameExtent_openHole (same _ opens rfl)] at ends
      cases ends

theorem isNameChar_of_isDigit {d : Char} (digit : d.isDigit = true) : isNameChar d = true := by
  simp [isNameChar, Char.isAlphanum, digit]

theorem isNameChar_of_isAsciiLetter {d : Char} (letter : isAsciiLetter d = true) : isNameChar d = true := by
  rw [isAsciiLetter] at letter
  simp [isNameChar, Char.isAlphanum, letter]

theorem noisy_of_isNameChar {d : Char} (named : isNameChar d = true) : isQuiet d = false ∧ d ≠ '\x7b' := by
  refine ⟨by simp [isQuiet, named], ?_⟩
  rintro rfl
  revert named
  decide

theorem noisy_of_isNoisyPair {d e : Char} (pair : isNoisyPair d e = true) :
    isQuiet e = false ∧ (e = '\x7b' → d = '@') := by
  simp only [isNoisyPair, Bool.or_eq_true, Bool.and_eq_true, beq_iff_eq] at pair
  rcases pair with ⟨rfl, rfl⟩ | ⟨rfl, digit⟩
  · exact ⟨by decide, fun _ => rfl⟩
  · have noisy := noisy_of_isNameChar (isNameChar_of_isDigit digit)
    exact ⟨noisy.1, fun brace => absurd brace noisy.2⟩

end

/-! ### Names -/

/-- Characters that a name consists of, from within a hole or from outside. Escapes
and holes are complete. -/
inductive NameBody : Bool → List Char → Prop where
  | nil : NameBody false []
  | inHole {c : Char} {own : List Char} (rest : NameBody (c != '\x7d') own) : NameBody true (c :: own)
  | openHole {own : List Char} (opens : own.head? = some '\x7b') (rest : NameBody true own) :
      NameBody false ('@' :: own)
  | escape {c : Char} {own : List Char} (rest : NameBody false own) : NameBody false ('\\' :: c :: own)
  | char {c : Char} {own : List Char} (named : isNameChar c = true) (plain : c ≠ '\\')
      (rest : NameBody false own) : NameBody false (c :: own)

/-- The part of a name in front of a text goes on into the text. -/
theorem NameBody.nameExtent_append {inHole : Bool} {own : List Char} (body : NameBody inHole own)
    (after : List Char) : nameExtent inHole (own ++ after) = own.length + nameExtent false after := by
  induction body with
  | nil => simp
  | @inHole c own _ ih =>
    rw [cons_append, nameExtent_inHole, ih, length_cons]
    omega
  | @openHole own opens _ ih =>
    have opens' : (own ++ after).head? = some '\x7b' := by
      rw [List.head?_append, opens]
      rfl
    rw [cons_append, nameExtent_openHole opens', ih, length_cons]
    omega
  | escape _ ih =>
    rw [cons_append, cons_append, nameExtent_escape, ih, length_cons, length_cons]
    omega
  | char named plain _ ih =>
    rw [cons_append, nameExtent_char _ named plain, ih, length_cons]
    omega

/-- What a name has of a text that goes on is complete, and the rest begins no name. -/
theorem nameBody_of_nameExtent {inHole : Bool} {own after : List Char}
    (whole : nameExtent inHole (own ++ after) = own.length) (some_ : after ≠ []) :
    NameBody inHole own ∧ nameExtent false after = 0 := by
  -- An escape takes two characters at once, so the induction is on the length.
  induction size : own.length using Nat.strongRecOn generalizing own inHole with
  | ind size ih =>
    subst size
    cases own with
    | nil =>
      obtain ⟨d, rest, rfl⟩ := exists_cons_of_ne_nil some_
      cases inHole with
      | false => exact ⟨.nil, whole⟩
      | true =>
        rw [nil_append, nameExtent_inHole] at whole
        cases whole
    | cons c own =>
      have shorter : own.length < (c :: own).length := Nat.lt_succ_self _
      cases inHole with
      | true =>
        rw [cons_append, nameExtent_inHole] at whole
        obtain ⟨body, ends⟩ := ih _ shorter (Nat.succ.inj whole) rfl
        exact ⟨.inHole body, ends⟩
      | false =>
        rw [cons_append] at whole
        by_cases named : isNameChar c = true
        · by_cases escape : c = '\\'
          · subst escape
            cases own with
            | nil =>
              obtain ⟨d, rest, rfl⟩ := exists_cons_of_ne_nil some_
              rw [nil_append, nameExtent_escape] at whole
              cases whole
            | cons d own =>
              rw [cons_append, nameExtent_escape] at whole
              obtain ⟨body, ends⟩ := ih own.length (by simp only [length_cons]; omega) (Nat.add_right_cancel whole) rfl
              exact ⟨.escape body, ends⟩
          · rw [nameExtent_char _ named escape] at whole
            obtain ⟨body, ends⟩ := ih _ shorter (Nat.succ.inj whole) rfl
            exact ⟨.char named escape body, ends⟩
        · by_cases hole : c = '@' ∧ (own ++ after).head? = some '\x7b'
          · obtain ⟨rfl, opens⟩ := hole
            rw [nameExtent_openHole opens] at whole
            obtain ⟨body, ends⟩ := ih _ shorter (Nat.succ.inj whole) rfl
            cases own with
            | nil => cases body
            | cons d own => exact ⟨.openHole opens body, ends⟩
          · rw [nameExtent_stop (by simpa using named) fun mark opens => hole ⟨mark, opens⟩] at whole
            cases whole

end LessCss.Lexeme
