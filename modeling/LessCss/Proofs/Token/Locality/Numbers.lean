import LessCss.Proofs.Token.Locality.Names
import LessCss.Proofs.Token.Reading

/-! Numbers in front of a text: where their digits and their unit end. -/

set_option autoImplicit false

namespace LessCss.Lexeme

open List

theorem Calmer.digits_end {first : Char} {after after' : List Char} {seen : Bool} (calmer : Calmer first after after')
    (ends : digitsExtent seen after = 0) : digitsExtent seen after' = 0 := by
  cases after' with
  | nil => rfl
  | cons d rest' =>
    rw [digitsExtent_cons]
    by_cases digit : d.isDigit = true
    · have noisy := noisy_of_isNameChar (isNameChar_of_isDigit digit)
      obtain ⟨rest, rfl, _⟩ := calmer d rest' rfl noisy.1 fun brace => absurd brace noisy.2
      rw [digitsExtent_cons, if_pos digit] at ends
      cases ends
    · rw [if_neg digit]
      split
      · rename_i point
        simp only [Bool.and_eq_true, beq_iff_eq, Option.any_eq_true] at point
        obtain ⟨⟨rfl, unseen⟩, e, next, digit'⟩ := point
        obtain ⟨rest, rfl, same⟩ := calmer '.' rest' rfl rfl nofun
        have next' := same e next (by simp [isNoisyPair, digit'])
        rw [digitsExtent_cons, if_neg digit, if_pos (by simp_all)] at ends
        cases ends
      · rfl

/-- Digits that have ended somewhere end in front of any text that does not go on with them. -/
theorem digitsExtent_append {seen : Bool} {own after : List Char}
    (whole : digitsExtent seen (own ++ after) = own.length) :
    ∃ seen', digitsExtent seen' after = 0 ∧
      ∀ after', digitsExtent seen' after' = 0 → digitsExtent seen (own ++ after') = own.length := by
  induction own generalizing seen with
  | nil => exact ⟨seen, whole, fun _ ends => ends⟩
  | cons c own ih =>
    rw [cons_append, digitsExtent_cons] at whole
    split at whole
    · rename_i digit
      obtain ⟨seen', ends, others⟩ := ih (Nat.succ.inj whole)
      refine ⟨seen', ends, fun after' ends' => ?_⟩
      rw [cons_append, digitsExtent_cons, if_pos digit, others after' ends']
      rfl
    · rename_i digit
      split at whole
      · rename_i point
        obtain ⟨seen', ends, others⟩ := ih (Nat.succ.inj whole)
        refine ⟨seen', ends, fun after' ends' => ?_⟩
        cases own with
        | nil =>
          -- A point stands before a digit, which then belongs to the number.
          cases after with
          | nil => simp at point
          | cons d after =>
            simp only [nil_append, List.head?_cons, Option.any_some, Bool.and_eq_true] at point
            rw [nil_append, digitsExtent_cons, if_pos point.2] at whole
            cases Nat.succ.inj whole
        | cons d own =>
          have point' : (c == '.' && !seen && (d :: own ++ after').head?.any Char.isDigit) = true := point
          rw [cons_append, digitsExtent_cons, if_neg digit, if_pos point', others after' ends']
          rfl
      · cases whole

theorem length_takeWhile_append {test : Char → Bool} {own after : List Char}
    (whole : ((own ++ after).takeWhile test).length = own.length) :
    (∀ c ∈ own, test c = true) ∧ after.head?.any test = false := by
  induction own with
  | nil =>
    refine ⟨nofun, ?_⟩
    cases after with
    | nil => rfl
    | cons d after =>
      cases passes : test d with
      | false => simpa using passes
      | true => simp [passes] at whole
  | cons c own ih =>
    rw [cons_append, takeWhile_cons] at whole
    split at whole
    · rename_i passes
      obtain ⟨each, ends⟩ := ih (Nat.succ.inj whole)
      exact ⟨forall_mem_cons.mpr ⟨passes, each⟩, ends⟩
    · cases whole

theorem takeWhile_append_of_head {test : Char → Bool} {own after : List Char}
    (each : ∀ c ∈ own, test c = true) (ends : after.head?.any test = false) :
    (own ++ after).takeWhile test = own := by
  rw [takeWhile_append_of_pos each]
  cases after with
  | nil => simp
  | cons d after =>
    have fails : test d = false := by simpa using ends
    simp [fails]

theorem unitExtent_zero {after : List Char} {kind : Kind} : unitExtent after = (kind, 0) ↔
    kind = .number ∧ after.head?.any (fun d => d == '%' || isAsciiLetter d) = false := by
  cases after with
  | nil => simp [unitExtent, eq_comm]
  | cons d after => grind [unitExtent]

theorem noisy_of_unit {d : Char} (unit : (d == '%' || isAsciiLetter d) = true) :
    isQuiet d = false ∧ d ≠ '\x7b' := by
  rcases (Bool.or_eq_true _ _).mp unit with percent | letter
  · rw [beq_iff_eq.mp percent]
    decide
  · exact noisy_of_isNameChar (isNameChar_of_isAsciiLetter letter)

theorem unitExtent_append {first : Char} {own after after' : List Char} {kind : Kind}
    (whole : unitExtent (own ++ after) = (kind, own.length)) (calmer : Calmer first after after') :
    unitExtent (own ++ after') = (kind, own.length) := by
  cases own with
  | nil =>
    have ends := unitExtent_zero.mp whole
    refine unitExtent_zero.mpr ⟨ends.1, calmer.head (fun d unit => ?_) ends.2⟩
    exact ⟨(noisy_of_unit unit).1, fun brace => absurd brace (noisy_of_unit unit).2⟩
  | cons c own =>
    simp only [cons_append, unitExtent] at whole ⊢
    split at whole
    · rename_i percent
      rw [if_pos percent]
      exact whole
    · rename_i percent
      rw [if_neg percent]
      split at whole
      · rename_i letter
        simp only [Prod.mk.injEq, length_cons] at whole
        have letters : ((own ++ after).takeWhile isAsciiLetter).length = own.length := by omega
        obtain ⟨each, ends⟩ := length_takeWhile_append letters
        have ends' := calmer.head (fun d letter => ?_) ends
        · rw [if_pos letter, takeWhile_append_of_head each ends', whole.1, length_cons, Nat.add_comm]
        · have noisy := noisy_of_isNameChar (isNameChar_of_isAsciiLetter letter)
          exact ⟨noisy.1, fun brace => absurd brace noisy.2⟩
      · simp at whole

theorem digitsExtent_le (seen : Bool) (cs : List Char) : digitsExtent seen cs ≤ cs.length := by
  fun_induction digitsExtent seen cs <;> simp <;> omega

theorem digitsExtent_unit {seen : Bool} {c : Char} (unit : (c == '%' || isAsciiLetter c) = true)
    (rest : List Char) : digitsExtent seen (c :: rest) = 0 := by
  have digit : c.isDigit = false := by
    rw [Bool.eq_false_iff, Ne, isDigit_iff]
    rintro ⟨above, below⟩
    simp only [isAsciiLetter, Bool.or_eq_true, isAlpha_iff, beq_iff_eq] at unit
    rcases unit with rfl | letter
    · exact absurd above (by decide)
    · omega
  have point : c ≠ '.' := by
    rintro rfl
    revert unit
    decide
  rw [digitsExtent_cons]
  simp [digit, point]

theorem exists_unit {own after : List Char} {kind : Kind} (whole : numberExtent (own ++ after) = (kind, own.length)) :
    ∃ digits unit, own = digits ++ unit ∧ digitsExtent false (digits ++ (unit ++ after)) = digits.length ∧
      unitExtent (unit ++ after) = (kind, unit.length) := by
  obtain ⟨digits, unit, split, number⟩ : ∃ digits unit, own ++ after = digits ++ unit ∧
      digitsExtent false (own ++ after) = digits.length := by
    refine ⟨_, _, (take_append_drop (digitsExtent false (own ++ after)) _).symm, ?_⟩
    rw [length_take]
    exact (Nat.min_eq_left (digitsExtent_le _ _)).symm
  rw [split] at whole number
  rw [numberExtent_eq number] at whole
  have length := congrArg Prod.snd whole
  dsimp only at length
  obtain ⟨own, rfl⟩ : digits <+: own :=
    prefix_of_prefix_length_le ⟨_, split.symm⟩ (prefix_append own after) (by omega)
  rw [List.append_assoc] at split
  obtain rfl := append_cancel_left split
  rw [length_append] at length whole
  exact ⟨digits, own, rfl, number, Prod.ext (Prod.mk.inj whole).1 (by dsimp only; omega)⟩

/-- A number ends where it has ended, and has the same digits. -/
theorem numberExtent_append {first : Char} {own after after' : List Char} {kind : Kind}
    (whole : numberExtent (own ++ after) = (kind, own.length)) (calmer : Calmer first after after') :
    numberExtent (own ++ after') = (kind, own.length) ∧
      digitsExtent false (own ++ after') = digitsExtent false (own ++ after) := by
  obtain ⟨digits, own, rfl, number, unit⟩ := exists_unit whole
  have unit' := unitExtent_append unit calmer
  obtain ⟨seen, ends, others⟩ := digitsExtent_append number
  have ends' : digitsExtent seen (own ++ after') = 0 := by
    cases own with
    | nil => exact calmer.digits_end ends
    | cons c own =>
      refine digitsExtent_unit ?_ (own ++ after')
      cases start : (c == '%' || isAsciiLetter c) with
      | true => rfl
      | false => simp [unitExtent, Bool.or_eq_false_iff.mp start] at unit
  rw [List.append_assoc, List.append_assoc, numberExtent_eq (others _ ends'), unit', length_append,
    number]
  exact ⟨rfl, others _ ends'⟩

end LessCss.Lexeme
