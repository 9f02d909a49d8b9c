import LessCss.Proofs.Token.Locality.Enclosed
import LessCss.Proofs.Token.Locality.Numbers

/-! What a token needs of the text behind it. Main statement: a token that has
been read with some text behind it is read with another text behind it too, if
that text does not bring in what could lengthen the token. -/

set_option autoImplicit false

namespace LessCss.Lexeme

open List Reading

open Text (isBlank)

theorem ofExtent_closed (kind : Kind) (expected : Expectation) (more : Nat) :
    ofExtent kind expected ⟨true, more⟩ = .token kind more :=
  rfl

theorem startsNumber_iff (cs : List Char) : startsNumber cs = true ↔ digitsExtent false cs ≠ 0 := by
  cases cs with
  | nil => simp [startsNumber, digitsExtent]
  | cons c rest =>
    rw [digitsExtent_cons, startsNumber]
    split
    · simp_all
    · split <;> simp_all

theorem numberExtent_ne_zero {cs : List Char} (starts : startsNumber cs = true) : (numberExtent cs).2 ≠ 0 := by
  have digits := (startsNumber_iff cs).mp starts
  have same := take_append_drop (digitsExtent false cs) cs
  rw [← same, numberExtent_eq]
  · dsimp only
    rw [length_take, Nat.min_eq_left (digitsExtent_le _ _)]
    omega
  · rw [same, length_take, Nat.min_eq_left (digitsExtent_le _ _)]

theorem noisy_of_starts {d : Char} (starts : (isNameStart d || d == '-') = true) : isNameChar d = true := by
  rcases (Bool.or_eq_true _ _).mp starts with name | minus
  · exact isNameChar_of_isNameStart name
  · rw [beq_iff_eq.mp minus]
    decide

section

variable {last : Option Token} {c : Char} {own after after' : List Char} {kind : Kind}

/-- A test that only characters of names pass. -/
theorem Calmer.head_named {test : Char → Bool} (calmer : Calmer c after after')
    (named : ∀ d, test d = true → isNameChar d = true) (fails : after.head?.any test = false) :
    after'.head?.any test = false := by
  refine calmer.head (fun d passes => ?_) fails
  have noisy := noisy_of_isNameChar (named d passes)
  exact ⟨noisy.1, fun brace => absurd brace noisy.2⟩

theorem readName_append (name : isNameStart c = true)
    (reads : readName c (own ++ after) = .token kind own.length) (some_ : after ≠ [])
    (calmer : Calmer c after after') : readName c (own ++ after') = .token kind own.length := by
  have start := nameExtent_ne_zero (own ++ after) (isNameChar_of_isNameStart name)
  generalize more : nameExtent false (c :: (own ++ after)) - 1 = n at reads
  have extent : nameExtent false (c :: (own ++ after)) = n + 1 := by omega
  rw [readName, more] at reads
  split at reads
  · rename_i url
    obtain ⟨rfl, closed⟩ := ofExtent_eq_token reads
    obtain ⟨closed, inside⟩ := Extent.add_eq_closed closed
    -- The name is the first part of the token and the group in parentheses the second.
    obtain ⟨front, group, rfl, rfl⟩ : ∃ front group, own = front ++ group ∧ front.length = n :=
      ⟨own.take n, own.drop n, (take_append_drop _ _).symm, by
        rw [length_take, Nat.min_eq_left inside]⟩
    rw [List.append_assoc, drop_left, length_append, Nat.add_sub_cancel_left] at closed
    have closed' := urlExtent_append closed after'
    rw [List.append_assoc, take_left, List.getElem?_append_right (Nat.le_refl _), Nat.sub_self] at url
    cases group with
    | nil => exact absurd rfl (urlExtent_closed closed)
    | cons d group =>
      have opens : d = '(' := by simpa using (Bool.and_eq_true _ _).mp url |>.2
      have named : nameExtent false ((c :: front) ++ (d :: group ++ after)) = (c :: front).length := by
        simpa using extent
      obtain ⟨body, _⟩ := nameBody_of_nameExtent named (by simp)
      have stop : nameExtent false (d :: (group ++ after')) = 0 := by
        rw [opens]
        exact nameExtent_stop (by decide) (absurd · (by decide))
      have extent' : nameExtent false (c :: (front ++ d :: group ++ after')) = front.length + 1 := by
        simpa [stop] using body.nameExtent_append (d :: group ++ after')
      rw [readName, extent', Nat.add_sub_cancel, List.append_assoc, take_left, drop_left,
        List.getElem?_append_right (Nat.le_refl _), Nat.sub_self]
      rw [if_pos (by simpa using url), closed']
      simp [Extent.add, ofExtent, Nat.add_comm]
  · rename_i url
    cases reads
    have named : nameExtent false ((c :: own) ++ after) = (c :: own).length := extent
    obtain ⟨body, ends⟩ := nameBody_of_nameExtent named some_
    have extent' : nameExtent false (c :: (own ++ after')) = own.length + 1 := by
      simpa [calmer.name_ends ends] using body.nameExtent_append after'
    rw [take_left, List.getElem?_append_right (Nat.le_refl _), Nat.sub_self] at url
    rw [readName, extent', Nat.add_sub_cancel, take_left, List.getElem?_append_right (Nat.le_refl _),
      Nat.sub_self]
    refine if_neg fun url' => url ?_
    simp only [Bool.and_eq_true, beq_iff_eq, ← List.head?_eq_getElem?] at url' ⊢
    exact ⟨url'.1, calmer.head_eq (by decide) (by decide) url'.2⟩

theorem mark_of_token {kind' : Kind} (reads : token kind' 0 = .token kind own.length) :
    kind = kind' ∧ own = [] := by
  rw [token.injEq] at reads
  exact ⟨reads.1.symm, eq_nil_of_length_eq_zero reads.2.symm⟩

theorem ne_true_of_named {test : Char → Bool} (named : ∀ d, test d = true → isNameChar d = true)
    (ends : nameExtent false after = 0) : ¬after.head?.any test = true := by
  intro passes
  cases after with
  | nil => cases passes
  | cons d after => exact nameExtent_ne_zero after (named d passes) ends

theorem read_slash_append (reads : read last '/' (own ++ after) = .token kind own.length)
    (line : (own ++ after).head? ≠ some '/') (calmer : Calmer '/' after after') :
    read last '/' (own ++ after') = .token kind own.length := by
  have line' : ((own ++ after).head? == some '/') = false := by simpa using line
  rw [read_slash, line'] at reads
  split at reads
  · rename_i opens
    obtain ⟨rfl, closed⟩ := ofExtent_eq_token reads
    cases own with
    | nil => exact absurd (Extent.add_eq_closed closed).2 (by decide)
    | cons d own =>
      have closed' := commentExtent_append (add_one_eq closed) after'
      rw [read_slash, if_pos (by simpa using opens)]
      simp only [cons_append, tail_cons, closed']
      rfl
  · rename_i opens
    rw [if_neg Bool.false_ne_true] at reads
    obtain ⟨rfl, rfl⟩ := mark_of_token reads
    simp only [nil_append, beq_iff_eq] at opens line ⊢
    have star := mt (calmer.head_eq (by decide) (by decide)) opens
    have slash := mt (calmer.head_eq (by decide) (by decide)) line
    simp [read_slash, star, slash]

theorem read_at_append (reads : read last '@' (own ++ after) = .token kind own.length)
    (some_ : after ≠ []) (calmer : Calmer '@' after after') :
    read last '@' (own ++ after') = .token kind own.length := by
  rw [read_at] at reads
  split at reads
  · rename_i hole
    rw [token.injEq] at reads
    have opens : (own ++ after).head? = some '\x7b' := by simpa using hole
    have named : nameExtent false (('@' :: own) ++ after) = ('@' :: own).length := by
      have := nameExtent_openHole opens
      simp only [cons_append, length_cons]
      omega
    obtain ⟨body, ends⟩ := nameBody_of_nameExtent named some_
    have inside : own.head? = some '\x7b' := by
      cases body with
      | openHole opens _ => exact opens
      | char named _ _ => exact absurd named (by decide)
    have extent := body.nameExtent_append after'
    rw [calmer.name_ends ends, cons_append] at extent
    rw [read_at, List.head?_append, inside, extent, ← reads.1]
    rfl
  · rename_i hole
    split at reads
    · rename_i starts
      rw [token.injEq] at reads
      obtain ⟨body, ends⟩ := nameBody_of_nameExtent reads.2 some_
      have extent := body.nameExtent_append after'
      rw [calmer.name_ends ends, Nat.add_zero] at extent
      cases own with
      | nil => exact absurd starts (ne_true_of_named (fun _ => noisy_of_starts) ends)
      | cons d own =>
        rw [read_at, if_neg (by simpa using hole), if_pos (by simpa using starts), extent, ← reads.1]
    · rename_i starts
      obtain ⟨rfl, rfl⟩ := mark_of_token reads
      simp only [nil_append, beq_iff_eq, Bool.not_eq_true] at hole starts ⊢
      -- A mark stays one: neither a hole nor a name begins behind it.
      have hole' : after'.head? ≠ some '\x7b' := by
        intro opens
        obtain ⟨rest', rfl⟩ := List.head?_eq_some_iff.mp opens
        obtain ⟨rest, rfl, _⟩ := calmer '\x7b' rest' rfl (by decide) fun _ => rfl
        exact hole rfl
      have starts' := calmer.head_named (fun _ => noisy_of_starts) starts
      simp [read_at, hole', starts']

theorem read_hash_append (reads : read last '#' (own ++ after) = .token kind own.length)
    (some_ : after ≠ []) (calmer : Calmer '#' after after') :
    read last '#' (own ++ after') = .token kind own.length := by
  rw [read_hash] at reads
  split at reads
  · rename_i starts
    rw [token.injEq] at reads
    obtain ⟨body, ends⟩ := nameBody_of_nameExtent reads.2 some_
    have extent := body.nameExtent_append after'
    rw [calmer.name_ends ends, Nat.add_zero] at extent
    cases own with
    | nil => exact absurd starts (ne_true_of_named (fun _ named => named) ends)
    | cons d own => rw [read_hash, if_pos (by simpa using starts), extent, ← reads.1]
  · rename_i starts
    obtain ⟨rfl, rfl⟩ := mark_of_token reads
    rw [nil_append, Bool.not_eq_true] at starts
    have starts' := calmer.head_named (fun _ named => named) starts
    simp [read_hash, starts']

theorem startsNumber_append (digits : digitsExtent false (own ++ after') = digitsExtent false (own ++ after)) :
    startsNumber (own ++ after') = startsNumber (own ++ after) := by
  rw [Bool.eq_iff_iff, startsNumber_iff, startsNumber_iff, digits]

theorem Calmer.no_number (calmer : Calmer c after after') (fails : startsNumber after = false) :
    startsNumber after' = false := by
  have ends : digitsExtent false after = 0 := by
    refine Classical.byContradiction fun digits => ?_
    rw [(startsNumber_iff after).mpr digits] at fails
    cases fails
  refine Bool.eq_false_iff.mpr fun starts => ?_
  exact (startsNumber_iff after').mp starts (calmer.digits_end ends)

theorem startsName_cons {d : Char} {rest : List Char} : startsName (d :: rest) =
    (isNameStart d || d == '-' || (d == '@' && rest.head? == some '\x7b')) := by
  cases rest <;> simp [startsName]

theorem nameExtent_of_startsName {cs : List Char} (starts : startsName cs = true) :
    nameExtent false cs ≠ 0 := by
  cases cs with
  | nil => cases starts
  | cons d rest =>
    rw [startsName_cons, Bool.or_eq_true, Bool.and_eq_true, beq_iff_eq, beq_iff_eq] at starts
    rcases starts with named | ⟨rfl, opens⟩
    · exact nameExtent_ne_zero rest (noisy_of_starts named)
    · rw [nameExtent_openHole opens]
      exact Nat.succ_ne_zero _

theorem startsNumber_of_startsName {cs : List Char} (starts : startsName cs = true) :
    startsNumber cs = false := by
  cases cs with
  | nil => rfl
  | cons d rest =>
    rw [startsName_cons, Bool.or_eq_true, Bool.or_eq_true, Bool.and_eq_true, beq_iff_eq, beq_iff_eq] at starts
    rcases starts with (name | rfl) | ⟨rfl, _⟩
    · have point : d ≠ '.' := by
        rintro rfl
        revert name
        decide
      simp [startsNumber, isDigit_of_isNameStart name, point]
    · rfl
    · rfl

theorem startsName_append (body : NameBody false own) (ends : nameExtent false after = 0)
    (starts : startsName (own ++ after) = true) : startsName (own ++ after') = true := by
  cases own with
  | nil => exact absurd ends (nameExtent_of_startsName starts)
  | cons d own =>
    rw [cons_append, startsName_cons] at starts ⊢
    by_cases hole : d = '@'
    · subst hole
      cases body with
      | openHole opens _ => simp [List.head?_append, opens]
      | char named => exact absurd named (by decide)
    · simpa [hole] using starts

theorem Calmer.no_name (calmer : Calmer c after after') (fails : startsName after = false) :
    startsName after' = false := by
  refine Bool.eq_false_iff.mpr fun starts => ?_
  cases after' with
  | nil => cases starts
  | cons d rest' =>
    rw [startsName_cons, Bool.or_eq_true, Bool.and_eq_true, beq_iff_eq, beq_iff_eq] at starts
    rcases starts with named | ⟨rfl, opens⟩
    · have noisy := noisy_of_isNameChar (noisy_of_starts named)
      obtain ⟨rest, rfl, _⟩ := calmer d rest' rfl noisy.1 fun brace => absurd brace noisy.2
      rw [startsName_cons, named] at fails
      cases fails
    · obtain ⟨rest, rfl, same⟩ := calmer '@' rest' rfl rfl nofun
      rw [startsName_cons, same _ opens rfl] at fails
      cases fails

theorem read_minus_append (reads : read last '-' (own ++ after) = .token kind own.length)
    (some_ : after ≠ []) (calmer : Calmer '-' after after') :
    read last '-' (own ++ after') = .token kind own.length := by
  rw [read_minus] at reads
  split at reads
  · rename_i signed
    rw [token.injEq] at reads
    obtain ⟨number, digits⟩ := numberExtent_append (Prod.ext reads.1 reads.2) calmer
    rw [read_minus, startsNumber_append digits, if_pos signed, number]
  · rename_i signed
    split at reads
    · rename_i starts
      rw [token.injEq] at reads
      have named : nameExtent false (('-' :: own) ++ after) = ('-' :: own).length := by
        have := nameExtent_ne_zero (own ++ after) (show isNameChar '-' = true by decide)
        simp only [cons_append, length_cons]
        omega
      obtain ⟨body, ends⟩ := nameBody_of_nameExtent named some_
      have extent := body.nameExtent_append after'
      rw [calmer.name_ends ends, cons_append] at extent
      cases body with
      | char _ _ body =>
        have starts' : startsName (own ++ after') = true := startsName_append body ends starts
        rw [read_minus, startsNumber_of_startsName starts', Bool.false_and, if_neg Bool.false_ne_true,
          if_pos starts', extent, ← reads.1]
        rfl
    · rename_i starts
      obtain ⟨rfl, rfl⟩ := mark_of_token reads
      rw [nil_append, Bool.not_eq_true] at signed starts
      -- A mark stays one: neither a number nor a name begins behind it.
      have signed' : (startsNumber after' && allowsSign last) = false := by
        rcases Bool.and_eq_false_iff.mp signed with number | sign
        · rw [calmer.no_number number, Bool.false_and]
        · rw [sign, Bool.and_false]
      simp [read_minus, signed', calmer.no_name starts]

theorem read_point_append (reads : read last '.' (own ++ after) = .token kind own.length)
    (calmer : Calmer '.' after after') : read last '.' (own ++ after') = .token kind own.length := by
  rw [read_point] at reads
  split at reads
  · rename_i digit
    have starts : startsNumber (('.' :: own) ++ after) = true := by simpa [startsNumber] using digit
    have some_ := numberExtent_ne_zero starts
    rw [token.injEq] at reads
    have whole : numberExtent (('.' :: own) ++ after) = (kind, ('.' :: own).length) := by
      refine Prod.ext reads.1 ?_
      simp only [cons_append, length_cons] at some_ ⊢
      omega
    obtain ⟨number, digits⟩ := numberExtent_append whole calmer
    rw [← startsNumber_append digits] at starts
    have digit' : (own ++ after').head?.any Char.isDigit = true := by simpa [startsNumber] using starts
    rw [cons_append] at number
    rw [read_point, if_pos digit', number]
    rfl
  · rename_i digit
    obtain ⟨rfl, rfl⟩ := mark_of_token reads
    rw [nil_append, Bool.not_eq_true] at digit
    have digit' := calmer.head_named (fun _ => isNameChar_of_isDigit) digit
    simp [read_point, digit']

theorem read_digit_append (digit : c.isDigit = true)
    (reads : read last c (own ++ after) = .token kind own.length) (calmer : Calmer c after after') :
    read last c (own ++ after') = .token kind own.length := by
  rw [read_digit digit, token.injEq] at reads
  have starts : startsNumber ((c :: own) ++ after) = true := by simp [startsNumber, digit]
  have some_ := numberExtent_ne_zero starts
  have whole : numberExtent ((c :: own) ++ after) = (kind, (c :: own).length) := by
    refine Prod.ext reads.1 ?_
    simp only [cons_append, length_cons] at some_ ⊢
    omega
  have number := (numberExtent_append whole calmer).1
  rw [cons_append] at number
  rw [read_digit digit, number]
  rfl

/-- A token is read again with a calmer text behind it. Blanks, and comments up to
the end of a line, are told by the character behind them. -/
theorem read_append (reads : read last c (own ++ after) = .token kind own.length) (some_ : after ≠ [])
    (blank : isBlank c = false) (line : c = '/' → (own ++ after).head? ≠ some '/')
    (calmer : Calmer c after after') : read last c (own ++ after') = .token kind own.length := by
  -- The cases follow the first character, in the order in which it is tried.
  by_cases slash : c = '/'
  · subst slash
    exact read_slash_append reads (line rfl) calmer
  by_cases quote : c = '"' ∨ c = '\''
  · rw [read_quote quote] at reads ⊢
    obtain ⟨rfl, closed⟩ := ofExtent_eq_token reads
    rw [stringExtent_append closed after', ofExtent_closed]
  by_cases mark : c = '@'
  · subst mark
    exact read_at_append reads some_ calmer
  by_cases hash : c = '#'
  · subst hash
    exact read_hash_append reads some_ calmer
  by_cases minus : c = '-'
  · subst minus
    exact read_minus_append reads some_ calmer
  by_cases point : c = '.'
  · subst point
    exact read_point_append reads calmer
  by_cases digit : c.isDigit = true
  · exact read_digit_append digit reads calmer
  by_cases name : isNameStart c = true
  · rw [read_name name blank] at reads ⊢
    exact readName_append name reads some_ calmer
  have solitary : isSolitary c = true := by
    simp_all [isSolitary]
  rw [read_solitary solitary] at reads ⊢
  exact reads

end

end LessCss.Lexeme
