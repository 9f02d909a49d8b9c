import LessCss.Processor.Reader
import LessCss.Proofs.Processor.Keeps
import LessCss.Proofs.Value.Literals
import Mathlib.Computability.Language

/-! The pattern of numbers. Main statements: the reader of numbers accepts exactly the texts of the
pattern, and every numeric token that is scanned is such a text, with the unit that its kind tells,
so that it is a number wherever it is the first token of an expression. -/

set_option autoImplicit false

namespace LessCss

open List Quantity

open Computability

/-! ### Patterns -/

namespace Pattern

variable {holds : Char → Bool} {cs : List Char}

def one (holds : Char → Bool) : Language Char := {cs | ∃ c, holds c = true ∧ cs = [c]}

theorem mem_kstar_one : cs ∈ (one holds)∗ ↔ ∀ c ∈ cs, holds c = true := by
  rw [Language.mem_kstar]
  constructor
  · rintro ⟨words, rfl, each⟩ c member
    obtain ⟨word, found, inside⟩ := mem_flatten.mp member
    obtain ⟨d, fits, rfl⟩ := each word found
    rwa [mem_singleton.mp inside]
  · intro each
    refine ⟨cs.map fun c => [c], (flatMap_singleton' cs).symm, fun word found => ?_⟩
    obtain ⟨c, member, rfl⟩ := mem_map.mp found
    exact ⟨c, each c member, rfl⟩

theorem mem_some_one : cs ∈ one holds * (one holds)∗ ↔ cs ≠ [] ∧ ∀ c ∈ cs, holds c = true := by
  rw [Language.mem_mul]
  constructor
  · rintro ⟨_, ⟨c, fits, rfl⟩, more, each, rfl⟩
    exact ⟨cons_ne_nil c more, forall_mem_cons.mpr ⟨fits, mem_kstar_one.mp each⟩⟩
  · rintro ⟨some_, each⟩
    obtain ⟨c, more, rfl⟩ := exists_cons_of_ne_nil some_
    obtain ⟨fits, others⟩ := forall_mem_cons.mp each
    exact ⟨[c], ⟨c, fits, rfl⟩, more, mem_kstar_one.mpr others, rfl⟩

def digit : Language Char := one Char.isDigit

def letter : Language Char := one Char.isAlpha

def mark (c : Char) : Language Char := one (· == c)

theorem mem_mark {c : Char} : cs ∈ mark c ↔ cs = [c] := by
  constructor
  · rintro ⟨d, same, rfl⟩
    rw [beq_iff_eq.mp same]
  · rintro rfl
    exact ⟨c, beq_self_eq_true c, rfl⟩

def numeral : Language Char :=
  (1 + mark '-') * (digit * digit∗ * ((1 + mark '.') * digit∗) + mark '.' * (digit * digit∗))

def unit : Language Char := 1 + (mark '%' + letter * letter∗)

def number : Language Char := numeral * unit

theorem mem_unit : cs ∈ unit ↔ isUnitText cs = true := by
  rw [unit, Language.mem_add, Language.mem_add, Language.mem_one, mem_mark, letter, mem_some_one, isUnitText,
    Bool.or_eq_true, beq_iff_eq, all_eq_true]
  constructor
  · rintro (rfl | percent | ⟨_, each⟩)
    · exact .inr (forall_mem_nil _)
    · exact .inl percent
    · exact .inr each
  · rintro (percent | each)
    · exact .inr (.inl percent)
    · by_cases none_ : cs = []
      · exact .inl none_
      · exact .inr (.inr ⟨none_, each⟩)

open Decimal.Numeral (Unsigned)

theorem mem_unsigned :
    cs ∈ digit * digit∗ * ((1 + mark '.') * digit∗) + mark '.' * (digit * digit∗) ↔ Unsigned cs := by
  rw [Language.mem_add, Language.mem_mul, Language.mem_mul]
  constructor
  · rintro (⟨whole, front, _, behind, rfl⟩ | ⟨_, point, fraction, back, rfl⟩)
    · obtain ⟨some_, each⟩ := mem_some_one.mp front
      obtain ⟨point, either, fraction, back, rfl⟩ := Language.mem_mul.mp behind
      have each' := mem_kstar_one.mp back
      rw [Language.mem_add, Language.mem_one, mem_mark] at either
      rcases either with rfl | rfl
      · -- Digits behind digits, without a point between them, are digits again.
        refine .inl ⟨by simp [some_], fun c member => ?_⟩
        exact (mem_append.mp member).elim (each c) (each' c)
      · exact .inr ⟨whole, fraction, rfl, each, each', .inl some_⟩
    · obtain ⟨some_, each⟩ := mem_some_one.mp back
      rw [mem_mark.mp point]
      exact .inr ⟨[], fraction, rfl, forall_mem_nil _, each, .inr some_⟩
  · rintro (⟨some_, each⟩ | ⟨whole, fraction, rfl, each, each', some_⟩)
    · have nothing : [] ∈ (1 + mark '.') * digit∗ := ⟨[], .inl rfl, [], Language.nil_mem_kstar digit, rfl⟩
      exact .inl ⟨cs, mem_some_one.mpr ⟨some_, each⟩, [], nothing, append_nil cs⟩
    · have point : ['.'] ∈ mark '.' := mem_mark.mpr rfl
      -- Without digits in front of the point it is the other form, and there are digits behind the point.
      by_cases none_ : whole = []
      · subst none_
        exact .inr ⟨['.'], point, fraction, mem_some_one.mpr ⟨by simpa using some_, each'⟩, rfl⟩
      · have behind : '.' :: fraction ∈ (1 + mark '.') * digit∗ :=
          ⟨['.'], .inr point, fraction, mem_kstar_one.mpr each', rfl⟩
        exact .inl ⟨whole, mem_some_one.mpr ⟨none_, each⟩, _, behind, rfl⟩

theorem mem_numeral : cs ∈ numeral ↔ ∃ digits, Unsigned digits ∧ (cs = digits ∨ cs = '-' :: digits) := by
  rw [numeral, Language.mem_mul]
  constructor
  · rintro ⟨sign, either, digits, unsigned, rfl⟩
    rw [Language.mem_add, Language.mem_one, mem_mark] at either
    refine ⟨digits, mem_unsigned.mp unsigned, ?_⟩
    rcases either with rfl | rfl
    · exact .inl rfl
    · exact .inr rfl
  · rintro ⟨digits, unsigned, rfl | rfl⟩
    · exact ⟨[], .inl rfl, cs, mem_unsigned.mpr unsigned, rfl⟩
    · exact ⟨['-'], .inr (mem_mark.mpr rfl), digits, mem_unsigned.mpr unsigned, rfl⟩

end Pattern

/-! ### The reader of numbers -/

namespace Decimal.Numeral

theorem sign_cases (cs : List Char) :
    cs = (if cs.head? == some '-' then cs.tail else cs) ∨
      cs = '-' :: (if cs.head? == some '-' then cs.tail else cs) := by
  cases cs with
  | nil => exact .inl rfl
  | cons c rest =>
    by_cases minus : c = '-'
    · exact .inr (by simp [minus])
    · exact .inl (by simp [minus])

theorem exists_of_read? {cs unit : List Char} {numeral : Numeral} (read : read? cs = some (numeral, unit)) :
    ∃ spelled ∈ Pattern.numeral, cs = spelled ++ unit := by
  have signed := sign_cases cs
  rw [read?] at read
  dsimp only at read
  generalize (if cs.head? == some '-' then cs.tail else cs) = unsigned at read signed
  have digits (cs : List Char) : ∀ c ∈ cs.takeWhile Char.isDigit, c.isDigit = true :=
    all_eq_true.mp all_takeWhile
  have parted := takeWhile_append_dropWhile (p := Char.isDigit) (l := unsigned)
  -- Digits with a point among them, or digits alone; what is not taken is the unit.
  obtain ⟨spelled, shape, rfl⟩ : ∃ spelled, Unsigned spelled ∧ unsigned = spelled ++ unit := by
    split at read
    · rename_i rest behind
      split at read
      · cases read
      · rename_i some_
        cases read
        have parted' := takeWhile_append_dropWhile (p := Char.isDigit) (l := rest)
        refine ⟨unsigned.takeWhile Char.isDigit ++ '.' :: rest.takeWhile Char.isDigit,
          .inr ⟨_, _, rfl, digits _, digits _, by grind⟩, ?_⟩
        rw [List.append_assoc, cons_append, parted', ← behind, parted]
    · split at read
      · cases read
      · rename_i some_
        cases read
        exact ⟨unsigned.takeWhile Char.isDigit, .inl ⟨by simpa using some_, digits _⟩, parted.symm⟩
  rcases signed with rfl | rfl
  · exact ⟨spelled, Pattern.mem_numeral.mpr ⟨spelled, shape, .inl rfl⟩, rfl⟩
  · exact ⟨'-' :: spelled, Pattern.mem_numeral.mpr ⟨spelled, shape, .inr rfl⟩, rfl⟩

end Decimal.Numeral

namespace Quantity

variable {text : String} {quantity : Quantity}

theorem exists_of_read? (read : read? text = some quantity) :
    quantity.unit.toList ∈ Pattern.unit ∧
      ∃ spelled ∈ Pattern.numeral, text.toList = spelled ++ quantity.unit.toList := by
  rw [read?] at read
  split at read
  · rename_i numeral unit found
    split at read
    · rename_i whole
      cases read
      rw [String.toList_ofList]
      exact ⟨Pattern.mem_unit.mpr whole, Decimal.Numeral.exists_of_read? found⟩
    · cases read
  · cases read

theorem isSome_read?_iff (text : String) : (read? text).isSome = true ↔ text.toList ∈ Pattern.number := by
  rw [Option.isSome_iff_exists, Pattern.number, Language.mem_mul]
  constructor
  · rintro ⟨quantity, read⟩
    obtain ⟨unit, spelled, numeral, same⟩ := exists_of_read? read
    exact ⟨spelled, numeral, _, unit, same.symm⟩
  · rintro ⟨spelled, numeral, unit, unitText, same⟩
    obtain ⟨digits, unsigned, signed⟩ := Pattern.mem_numeral.mp numeral
    have whole := Pattern.mem_unit.mp unitText
    have signed' : text.toList = digits ++ unit ∨ text.toList = '-' :: (digits ++ unit) := by
      rw [← same]
      exact signed.imp (fun same => by rw [same]) fun same => by rw [same]; rfl
    obtain ⟨numeral, read⟩ := Decimal.Numeral.exists_read? unsigned (head?_of_isUnitText whole) signed'
    exact ⟨⟨numeral.value, String.ofList unit⟩, by rw [read?, read]; exact if_pos whole⟩

theorem tokenKind_cases (unit : quantity.unit.toList ∈ Pattern.unit) :
    quantity.tokenKind = .number ∧ quantity.unit = "" ∨ quantity.tokenKind = .percentage ∧ quantity.unit = "%" ∨
      quantity.tokenKind = .dimension ∧ quantity.unit.toList ∈ Pattern.letter * Pattern.letter∗ := by
  rw [Pattern.unit, Language.mem_add, Language.mem_add, Language.mem_one, Pattern.mem_mark] at unit
  rcases unit with none_ | percent | letters
  · have plain : quantity.unit = "" := String.toList_inj.mp none_
    exact .inl ⟨by simp [tokenKind, isPlain, plain], plain⟩
  · have percent : quantity.unit = "%" := String.toList_inj.mp percent
    exact .inr (.inl ⟨by simp [tokenKind, isPlain, isPercentage, percent], percent⟩)
  · obtain ⟨some_, each⟩ := Pattern.mem_some_one.mp letters
    exact .inr (.inr ⟨tokenKind_of_letters some_ each, letters⟩)

end Quantity

/-! ### Numeric tokens -/

/-- A numeric token at the front is read by itself, whatever follows. -/
theorem Setting.constant_of_isNumeric (setting : Setting) {token : Token} (numeric : token.kind.isNumeric = true)
    (rest : Tokens) (processor : Processor) :
    Processing.Keeps (setting.constant (token :: rest)) processor
      (.ok (.found (.ofNumeric token.text) rest rest.length.lt_succ_self)) := by
  have literal : setting.literal? token = pure (some (.ofNumeric token.text)) := by
    rw [literal?]
    revert numeric
    cases token.kind <;> simp [Kind.isNumeric]
  -- All that is tried before a literal begins with a token of another kind.
  have kind : token.kind ≠ .parenOpen ∧ token.kind ≠ .identifier ∧ token.kind ≠ .other := by
    revert numeric
    cases token.kind <;> simp [Kind.isNumeric]
  have noMark (text : String) : token.isMark text = false := by simp [Token.isMark, kind.2.2]
  rw [constant.eq_def]
  dsimp only
  rw [if_neg kind.1, noMark, if_neg Bool.false_ne_true]
  cases rest with
  | nil =>
    dsimp only
    rw [literal]
    rfl
  | cons next after =>
    dsimp only
    rw [if_neg (by simp [noMark, kind.2.1]), if_neg (by simp [noMark]), if_neg (by simp [noMark]), literal]
    rfl

/-- A text is read as a number exactly if it is spelled like one. Each numeric token that is scanned is, with the
unit that its kind tells, and it is written back with the same kind; so it is a number at the front of every
expression, and never a keyword. -/
theorem Scan.numeric_tokens_read_as_numbers :
    (∀ text, (read? text).isSome = true ↔ text.toList ∈ Pattern.number) ∧
      ∀ source text, ∀ token ∈ (Scan.ofText source text).tokens, token.kind.isNumeric = true →
        ∃ quantity, read? token.text = some quantity ∧
          (token.kind = .number ∧ quantity.unit = "" ∨ token.kind = .percentage ∧ quantity.unit = "%" ∨
            token.kind = .dimension ∧ quantity.unit.toList ∈ Pattern.letter * Pattern.letter∗) ∧
          (∀ place, ((Value.quantity quantity).toToken place).kind = token.kind) ∧
          ∀ (setting : Setting) (rest : Tokens) (processor : Processor),
            Processing.Keeps (setting.constant (token :: rest)) processor
              (.ok (.found (.quantity quantity) rest rest.length.lt_succ_self)) := by
  refine ⟨isSome_read?_iff, fun source text token member numeric => ?_⟩
  obtain ⟨quantity, read, kind⟩ := Scan.exists_quantity member numeric
  have units := tokenKind_cases (exists_of_read? read).1
  rw [kind] at units
  refine ⟨quantity, read, units, fun _ => kind, fun setting rest processor => ?_⟩
  have value : Value.ofNumeric token.text = .quantity quantity := by rw [Value.ofNumeric, read]
  have found := setting.constant_of_isNumeric numeric rest processor
  rwa [value] at found

theorem signedFraction_read_as_number :
    (⟨.dimension, "-.5em", .start "in"⟩ : Token) ∈ (Scan.ofText "in" "-.5em").tokens ∧
      ∃ quantity, read? "-.5em" = some quantity ∧ quantity.unit.toList ∈ Pattern.letter * Pattern.letter∗ := by
  have scanned : (Scan.ofText "in" "-.5em").tokens = [⟨.dimension, "-.5em", .start "in"⟩] := by decide +kernel
  have member : (⟨.dimension, "-.5em", .start "in"⟩ : Token) ∈ (Scan.ofText "in" "-.5em").tokens := by
    rw [scanned]
    exact mem_singleton_self _
  obtain ⟨quantity, read, units, _⟩ := Scan.numeric_tokens_read_as_numbers.2 "in" "-.5em" _ member rfl
  refine ⟨member, quantity, read, ?_⟩
  rcases units with ⟨number, _⟩ | ⟨percentage, _⟩ | ⟨_, letters⟩
  · cases number
  · cases percentage
  · exact letters

end LessCss
