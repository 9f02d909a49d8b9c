import LessCss.Function.Builtin
import Mathlib.Data.List.Forall2
import Mathlib.Data.List.TakeWhile

/-! The lists of arguments that a signature stands for. Main statement: arguments are accepted if and
only if each type in turn takes the longest piece of them that it may, and this is every list that can
be divided among the types exactly where no type that may be left out or repeated has a value in
common with the next one that may not. -/

set_option autoImplicit false

namespace LessCss

open List

/-! ### Types that have a value in common -/

namespace ArgumentType

/-- A value of the type that is one of the types it meets as well, if there is one. -/
def sample : ArgumentType → Value
  | .number | .percentage => .number 0 ""
  | .color => .color (.rgba 0 0 0 1)
  | .string | .unit => .keyword "px"
  | .boolean | .any => .boolean true
  | .url => .url "" none

def meets (a b : ArgumentType) : Bool := a.fits b.sample || b.fits a.sample

theorem fits_sample (type : ArgumentType) : type.fits type.sample = true := by
  cases type <;> decide +kernel

theorem meets_iff (a b : ArgumentType) : a.meets b = true ↔ ∃ value, a.fits value = true ∧ b.fits value = true := by
  constructor
  · intro both
    rcases (Bool.or_eq_true _ _).mp both with fits | fits
    · exact ⟨b.sample, fits, b.fits_sample⟩
    · exact ⟨a.sample, a.fits_sample, fits⟩
  · rintro ⟨value, first, second⟩
    -- Where the types have nothing in common no value fits both.
    cases a <;> cases b <;> first | decide +kernel | (cases value <;> simp_all [fits])

theorem fits_of_not_meets {a b : ArgumentType} {value : Value} (apart : a.meets b = false) (fits : a.fits value = true) :
    b.fits value = false := by
  rw [← Bool.not_eq_true] at apart ⊢
  exact fun both => apart ((meets_iff a b).mpr ⟨value, fits, both⟩)

end ArgumentType

/-! ### Pieces of a list of arguments -/

def Occurrence.Allows : Occurrence → Nat → Prop
  | .once, count => count = 1
  | .optional, count => count ≤ 1
  | .repeated, _ => True

namespace Formal

variable {type : ArgumentType} {piece : List Value}

/-- All values of the piece are of the type, and there are as many of them as may be. -/
def Takes (formal : Formal) (piece : List Value) : Prop :=
  (∀ value ∈ piece, formal.type.fits value = true) ∧ formal.occurrence.Allows piece.length

theorem takes_once_iff : Takes ⟨type, .once⟩ piece ↔ ∃ value, piece = [value] ∧ type.fits value = true := by
  constructor
  · rintro ⟨fits, count⟩
    obtain ⟨value, rfl⟩ := length_eq_one_iff.mp count
    exact ⟨value, rfl, fits value mem_cons_self⟩
  · rintro ⟨value, rfl, fits⟩
    exact ⟨by simpa using fits, rfl⟩

theorem takes_optional_iff : Takes ⟨type, .optional⟩ piece ↔
    piece = [] ∨ ∃ value, piece = [value] ∧ type.fits value = true := by
  constructor
  · rintro ⟨fits, count⟩
    rcases piece with _ | ⟨value, _ | ⟨second, others⟩⟩
    · exact .inl rfl
    · exact .inr ⟨value, rfl, fits value mem_cons_self⟩
    · exact absurd (show others.length + 1 + 1 ≤ 1 from count) (by omega)
  · rintro (rfl | ⟨value, rfl, fits⟩)
    · exact ⟨nofun, Nat.zero_le 1⟩
    · exact ⟨by simpa using fits, Nat.le_refl 1⟩

theorem takes_repeated_iff : Takes ⟨type, .repeated⟩ piece ↔ ∀ value ∈ piece, type.fits value = true :=
  and_iff_left trivial

end Formal

namespace Signature

open ArgumentType (fits_of_not_meets)

variable {signature rest : Signature} {formal : Formal} {type : ArgumentType} {value : Value} {arguments : List Value}

/-- The arguments can be divided into consecutive pieces, one for each type. -/
def Divides (signature : Signature) (arguments : List Value) : Prop :=
  ∃ pieces, List.Forall₂ Formal.Takes signature pieces ∧ pieces.flatten = arguments

/-- The arguments are divided into consecutive pieces, each of them the longest one that its type may
take from what is left. -/
def DividesLongest : Signature → List Value → Prop
  | [], arguments => arguments = []
  | formal :: rest, arguments => ∃ piece others, arguments = piece ++ others ∧ formal.Takes piece ∧
      (∀ longer, longer <+: arguments → formal.Takes longer → longer.length ≤ piece.length) ∧ DividesLongest rest others

theorem divides_nil_iff : Divides [] arguments ↔ arguments = [] := by
  constructor
  · rintro ⟨_, ⟨⟩, rfl⟩
    rfl
  · rintro rfl
    exact ⟨[], .nil, rfl⟩

theorem divides_cons_iff : Divides (formal :: rest) arguments ↔
    ∃ piece others, arguments = piece ++ others ∧ formal.Takes piece ∧ Divides rest others := by
  constructor
  · rintro ⟨pieces, taken, rfl⟩
    obtain ⟨piece, others, first, behind, rfl⟩ := forall₂_cons_left_iff.mp taken
    exact ⟨piece, others.flatten, rfl, first, others, behind, rfl⟩
  · rintro ⟨piece, others, rfl, first, pieces, behind, rfl⟩
    exact ⟨piece :: pieces, .cons first behind, rfl⟩

theorem DividesLongest.divides (longest : DividesLongest signature arguments) : Divides signature arguments := by
  induction signature generalizing arguments with
  | nil => exact divides_nil_iff.mpr longest
  | cons formal rest ih =>
    obtain ⟨piece, others, parts, takes, _, behind⟩ := longest
    exact divides_cons_iff.mpr ⟨piece, others, parts, takes, ih behind⟩

/-! ### The longest pieces -/

theorem dividesLongest_once_iff : DividesLongest (⟨type, .once⟩ :: rest) arguments ↔
    ∃ value others, arguments = value :: others ∧ type.fits value = true ∧ DividesLongest rest others := by
  constructor
  · rintro ⟨piece, others, rfl, takes, _, behind⟩
    obtain ⟨value, rfl, fits⟩ := Formal.takes_once_iff.mp takes
    exact ⟨value, others, rfl, fits, behind⟩
  · rintro ⟨value, others, rfl, fits, behind⟩
    refine ⟨[value], others, rfl, Formal.takes_once_iff.mpr ⟨value, rfl, fits⟩, ?_, behind⟩
    exact fun longer _ takes => Nat.le_of_eq takes.2

theorem dividesLongest_optional_iff : DividesLongest (⟨type, .optional⟩ :: rest) arguments ↔
    (∃ value others, arguments = value :: others ∧ type.fits value = true ∧ DividesLongest rest others) ∨
      (∀ value ∈ arguments.head?, type.fits value = false) ∧ DividesLongest rest arguments := by
  constructor
  · rintro ⟨piece, others, rfl, takes, longest, behind⟩
    rcases Formal.takes_optional_iff.mp takes with rfl | ⟨value, rfl, fits⟩
    · refine .inr ⟨fun value first => ?_, behind⟩
      -- A first value of the type would make a longer piece.
      cases fits : type.fits value with
      | false => rfl
      | true =>
        obtain ⟨tail, rfl⟩ := List.head?_eq_some_iff.mp first
        have one : Formal.Takes ⟨type, .optional⟩ [value] := Formal.takes_optional_iff.mpr (.inr ⟨value, rfl, fits⟩)
        exact absurd (longest [value] ⟨tail, rfl⟩ one) (by simp)
    · exact .inl ⟨value, others, rfl, fits, behind⟩
  · rintro (⟨value, others, rfl, fits, behind⟩ | ⟨other, behind⟩)
    · refine ⟨[value], others, rfl, Formal.takes_optional_iff.mpr (.inr ⟨value, rfl, fits⟩), ?_, behind⟩
      exact fun longer _ takes => takes.2
    · refine ⟨[], arguments, rfl, Formal.takes_optional_iff.mpr (.inl rfl), fun longer starts takes => ?_, behind⟩
      rcases Formal.takes_optional_iff.mp takes with rfl | ⟨value, rfl, fits⟩
      · exact Nat.le_refl 0
      · obtain ⟨tail, rfl⟩ := starts
        exact absurd fits (by simp [other value rfl])

theorem dividesLongest_repeated_iff : DividesLongest (⟨type, .repeated⟩ :: rest) arguments ↔
    DividesLongest rest (arguments.dropWhile type.fits) := by
  constructor
  · rintro ⟨piece, others, rfl, takes, longest, behind⟩
    have fits := Formal.takes_repeated_iff.mp takes
    rw [dropWhile_append_of_pos fits]
    cases others with
    | nil => exact behind
    | cons value others =>
      cases more : type.fits value with
      | false => rwa [dropWhile_cons_of_neg (by simp [more])]
      | true =>
        have all : Formal.Takes ⟨type, .repeated⟩ (piece ++ [value]) :=
          Formal.takes_repeated_iff.mpr (forall_mem_append.mpr ⟨fits, by simpa using more⟩)
        exact absurd (longest (piece ++ [value]) ⟨others, by simp⟩ all) (by simp)
  · intro behind
    refine ⟨arguments.takeWhile type.fits, _, takeWhile_append_dropWhile.symm, ?_, ?_, behind⟩
    · exact Formal.takes_repeated_iff.mpr fun value member => mem_takeWhile_imp member
    · rintro longer ⟨tail, rfl⟩ takes
      rw [takeWhile_append_of_pos (Formal.takes_repeated_iff.mp takes), length_append]
      exact Nat.le_add_right _ _

/-- Accepting takes the longest piece for each type. -/
theorem accepts_iff : signature.accepts arguments = true ↔ DividesLongest signature arguments := by
  induction signature generalizing arguments with
  | nil => exact List.isEmpty_iff
  | cons formal rest ih =>
    obtain ⟨type, occurrence⟩ := formal
    cases occurrence with
    | once =>
      rw [dividesLongest_once_iff]
      cases arguments with
      | nil => simp [accepts]
      | cons value others => simp [accepts, ih]
    | optional =>
      rw [dividesLongest_optional_iff]
      cases arguments with
      | nil => simp [accepts, ih]
      | cons value others => cases fits : type.fits value <;> simp [accepts, ih, fits]
    | repeated => rw [dividesLongest_repeated_iff, accepts, ih]

/-! ### Where the longest pieces are the only ones that matter -/

def required (signature : Signature) : List ArgumentType :=
  (signature.filter fun formal => formal.occurrence == .once).map Formal.type

/-- No type that may be left out or repeated has a value in common with the next one that has to occur. -/
def isCommitted : Signature → Bool
  | [] => true
  | formal :: rest =>
    (formal.occurrence == .once || (required rest).head?.all fun next => !formal.type.meets next) && isCommitted rest

theorem isCommitted_cons_iff : isCommitted (formal :: rest) = true ↔
    (formal.occurrence ≠ .once → ∀ next ∈ (required rest).head?, formal.type.meets next = false) ∧
      isCommitted rest = true := by
  rw [isCommitted, Bool.and_eq_true, Bool.or_eq_true, beq_iff_eq, or_iff_not_imp_left]
  cases (required rest).head? <;> simp

/-- A first value that is not of the next type that has to occur is not needed. -/
theorem Divides.tail (other : ∀ next ∈ (required rest).head?, next.fits value = false)
    (divides : Divides rest (value :: arguments)) : Divides rest arguments := by
  induction rest with
  | nil => cases divides_nil_iff.mp divides
  | cons formal rest ih =>
    obtain ⟨piece, others, parts, takes, behind⟩ := divides_cons_iff.mp divides
    obtain ⟨type, occurrence⟩ := formal
    -- The value went to a type that need not occur, or to one that can do with fewer.
    cases occurrence with
    | once =>
      obtain ⟨value', rfl, fits⟩ := Formal.takes_once_iff.mp takes
      obtain ⟨rfl, rfl⟩ := List.cons.inj parts
      exact absurd fits (by simp [other type rfl])
    | optional =>
      rcases Formal.takes_optional_iff.mp takes with rfl | ⟨value', rfl, fits⟩
      · subst parts
        exact divides_cons_iff.mpr ⟨[], arguments, rfl, takes, ih other behind⟩
      · obtain ⟨rfl, rfl⟩ := List.cons.inj parts
        exact divides_cons_iff.mpr ⟨[], arguments, rfl, Formal.takes_optional_iff.mpr (.inl rfl), behind⟩
    | repeated =>
      have fits := Formal.takes_repeated_iff.mp takes
      cases piece with
      | nil =>
        subst parts
        exact divides_cons_iff.mpr ⟨[], arguments, rfl, takes, ih other behind⟩
      | cons value' piece =>
        obtain ⟨rfl, same⟩ := List.cons.inj parts
        exact divides_cons_iff.mpr ⟨piece, others, same,
          Formal.takes_repeated_iff.mpr fun value member => fits value (mem_cons_of_mem _ member), behind⟩

theorem Divides.dropWhile (other : ∀ next ∈ (required rest).head?, type.meets next = false)
    (divides : Divides rest arguments) : Divides rest (arguments.dropWhile type.fits) := by
  induction arguments with
  | nil => exact divides
  | cons value arguments ih =>
    cases fits : type.fits value with
    | false => rwa [dropWhile_cons_of_neg (by simp [fits])]
    | true =>
      rw [dropWhile_cons_of_pos fits]
      exact ih (divides.tail fun next first => fits_of_not_meets (other next first) fits)

/-- A committed signature accepts whatever can be divided among its types. -/
theorem accepts_of_divides (committed : signature.isCommitted = true) (divides : Divides signature arguments) :
    signature.accepts arguments = true := by
  induction signature generalizing arguments with
  | nil => exact List.isEmpty_iff.mpr (divides_nil_iff.mp divides)
  | cons formal rest ih =>
    obtain ⟨apart, later⟩ := isCommitted_cons_iff.mp committed
    obtain ⟨piece, others, rfl, takes, behind⟩ := divides_cons_iff.mp divides
    obtain ⟨type, occurrence⟩ := formal
    cases occurrence with
    | once =>
      obtain ⟨value, rfl, fits⟩ := Formal.takes_once_iff.mp takes
      exact (Bool.and_eq_true _ _).mpr ⟨fits, ih later behind⟩
    | optional =>
      have other := apart (by simp)
      rcases Formal.takes_optional_iff.mp takes with rfl | ⟨value, rfl, fits⟩
      · rw [nil_append]
        cases others with
        | nil => exact ih later behind
        | cons value others =>
          -- The value that comes first may fit and be taken here; then those behind can do without it.
          rw [accepts]
          split
          · rename_i fits
            exact ih later (behind.tail fun next first => fits_of_not_meets (other next first) fits)
          · exact ih later behind
      · rw [singleton_append, accepts, if_pos fits]
        exact ih later behind
    | repeated =>
      rw [accepts, dropWhile_append_of_pos (Formal.takes_repeated_iff.mp takes)]
      exact ih later (behind.dropWhile (apart (by simp)))

/-! ### Where they are not -/

theorem length_required_le (accepted : signature.accepts arguments = true) :
    (required signature).length ≤ arguments.length := by
  induction signature generalizing arguments with
  | nil => exact Nat.zero_le _
  | cons formal rest ih =>
    obtain ⟨piece, others, rfl, takes, _, behind⟩ := accepts_iff.mp accepted
    have others_ := ih (accepts_iff.mpr behind)
    obtain ⟨type, occurrence⟩ := formal
    cases occurrence with
    | once =>
      obtain ⟨value, rfl, _⟩ := Formal.takes_once_iff.mp takes
      exact Nat.succ_le_succ others_
    | optional | repeated => exact Nat.le_trans others_ (by simp)

def Fills (signature : Signature) (arguments : List Value) : Prop :=
  List.Forall₂ (fun type value => ArgumentType.fits type value = true) (required signature) arguments

theorem Fills.divides (fills : Fills signature arguments) : Divides signature arguments := by
  induction signature generalizing arguments with
  | nil =>
    cases fills
    exact divides_nil_iff.mpr rfl
  | cons formal rest ih =>
    obtain ⟨type, occurrence⟩ := formal
    cases occurrence with
    | once =>
      obtain ⟨value, others, fits, behind, rfl⟩ := forall₂_cons_left_iff.mp fills
      exact divides_cons_iff.mpr ⟨[value], others, rfl, Formal.takes_once_iff.mpr ⟨value, rfl, fits⟩, ih behind⟩
    | optional => exact divides_cons_iff.mpr ⟨[], arguments, rfl, Formal.takes_optional_iff.mpr (.inl rfl), ih fills⟩
    | repeated => exact divides_cons_iff.mpr ⟨[], arguments, rfl, Formal.takes_repeated_iff.mpr nofun, ih fills⟩

/-- A type that need not occur takes nothing, or a list that is just long enough is too short for the
others. -/
theorem not_accepts_of_fills (skippable : formal.occurrence ≠ .once) (fills : Fills rest arguments)
    (taken : accepts rest arguments = true → ∃ value ∈ arguments.head?, formal.type.fits value = true) :
    accepts (formal :: rest) arguments = false := by
  rw [← Bool.not_eq_true]
  intro accepted
  obtain ⟨piece, others, rfl, takes, longest, behind⟩ := accepts_iff.mp accepted
  have behind := accepts_iff.mpr behind
  cases piece with
  | cons value piece =>
    have count : (required rest).length = (value :: piece ++ others).length := fills.length_eq
    have enough := length_required_le behind
    rw [length_append, length_cons] at count
    omega
  | nil =>
    obtain ⟨value, first, fits⟩ := taken behind
    obtain ⟨tail, rfl⟩ := List.head?_eq_some_iff.mp first
    have one : formal.Takes [value] := by
      refine ⟨by simpa using fits, ?_⟩
      cases same : formal.occurrence with
      | once => exact absurd same skippable
      | optional => exact Nat.le_refl 1
      | repeated => trivial
    exact absurd (longest [value] ⟨tail, rfl⟩ one) (by simp)

/-- Otherwise a list that can be divided among the types is refused. -/
theorem exists_refused (loose : signature.isCommitted ≠ true) :
    ∃ arguments, Fills signature arguments ∧ signature.accepts arguments = false := by
  induction signature with
  | nil => exact absurd rfl loose
  | cons formal rest ih =>
    rw [Ne, isCommitted_cons_iff, not_and_or] at loose
    obtain ⟨type, occurrence⟩ := formal
    by_cases once : occurrence = .once
    · subst once
      obtain ⟨arguments, fills, refused⟩ := ih (loose.resolve_left (by simp))
      refine ⟨type.sample :: arguments, .cons type.fits_sample fills, ?_⟩
      rw [accepts, refused, Bool.and_false]
    · have same : required (⟨type, occurrence⟩ :: rest) = required rest := by simp [required, once]
      rcases loose with near | loose
      · -- A value of both types comes first, and is taken by the wrong one.
        simp only [Classical.not_imp, not_forall, Bool.not_eq_false] at near
        obtain ⟨_, next, first, both⟩ := near
        obtain ⟨value, fits, fits'⟩ := (type.meets_iff next).mp both
        obtain ⟨more, types⟩ := List.head?_eq_some_iff.mp first
        have others : List.Forall₂ (fun type value => ArgumentType.fits type value = true) more
            (more.map ArgumentType.sample) :=
          forall₂_map_right_iff.mpr (forall₂_same.mpr fun type _ => type.fits_sample)
        have fills : Fills rest (value :: more.map ArgumentType.sample) := by
          rw [Fills, types]
          exact .cons fits' others
        exact ⟨_, by rwa [Fills, same], not_accepts_of_fills once fills fun _ => ⟨value, rfl, fits⟩⟩
      · obtain ⟨arguments, fills, refused⟩ := ih loose
        refine ⟨arguments, by rwa [Fills, same], not_accepts_of_fills once fills fun accepted => ?_⟩
        cases refused.symm.trans accepted

/-! ### Signatures as they are written -/

end Signature

def ArgumentType.code : ArgumentType → Char
  | .number => 'N'
  | .percentage => 'P'
  | .color => 'C'
  | .string => 'S'
  | .unit => 'U'
  | .boolean => 'B'
  | .url => 'Q'
  | .any => '.'

def Formal.codes (formal : Formal) : List Char :=
  match formal.occurrence with
  | .once => [formal.type.code]
  | .optional => [formal.type.code, '?']
  | .repeated => [formal.type.code, '*']

namespace Signature

def written (signature : Signature) : String := String.ofList (signature.flatMap Formal.codes)

theorem ofCodes_once {code : Char} {cs : List Char} (plain : ∀ mark ∈ cs.head?, mark ≠ '?' ∧ mark ≠ '*') :
    ofCodes (code :: cs) = ⟨.ofCode code, .once⟩ :: ofCodes cs := by
  cases cs with
  | nil => rfl
  | cons mark cs =>
    obtain ⟨other, other'⟩ := plain mark rfl
    rw [ofCodes]
    · rintro _ ⟨⟩
      exact other rfl
    · rintro _ ⟨⟩
      exact other' rfl

theorem read_written (signature : Signature) : read signature.written = signature := by
  rw [read, written, String.toList_ofList]
  induction signature with
  | nil => rfl
  | cons formal rest ih =>
    obtain ⟨type, occurrence⟩ := formal
    have same : ArgumentType.ofCode type.code = type := by cases type <;> rfl
    rw [flatMap_cons]
    cases occurrence with
    | once =>
      -- What follows is a type code or nothing, and never a mark.
      have plain : ∀ mark ∈ (rest.flatMap Formal.codes).head?, mark ≠ '?' ∧ mark ≠ '*' := by
        cases rest with
        | nil => nofun
        | cons next rest =>
          obtain ⟨type, occurrence⟩ := next
          have first : (Formal.codes ⟨type, occurrence⟩ ++ rest.flatMap Formal.codes).head? = some type.code := by
            cases occurrence <;> rfl
          rw [flatMap_cons, first]
          rintro _ ⟨⟩
          cases type <;> decide
      change ofCodes (type.code :: rest.flatMap Formal.codes) = _
      rw [ofCodes_once plain, same, ih]
    | optional =>
      change ofCodes (type.code :: '?' :: rest.flatMap Formal.codes) = _
      rw [ofCodes, same, ih]
    | repeated =>
      change ofCodes (type.code :: '*' :: rest.flatMap Formal.codes) = _
      rw [ofCodes, same, ih]

/-! ### The language of a signature -/

/-- For every signature as it is written: arguments are accepted if and only if they are divided among
the types with each type taking the longest piece that it may. All of these can be divided, and all that
can be divided are these exactly if no type that may be left out or repeated meets the next one that has
to occur. This is so for the built-in functions. -/
theorem accepted_divided :
    (∀ signature : Signature,
      (∀ arguments, (read signature.written).accepts arguments = true ↔ DividesLongest signature arguments) ∧
      (∀ arguments, (read signature.written).accepts arguments = true → Divides signature arguments) ∧
      ((∀ arguments, (read signature.written).accepts arguments = true ↔ Divides signature arguments) ↔
        signature.isCommitted = true)) ∧
    ∀ function ∈ Builtin.functions, ∀ arguments,
      (read function.2.1).accepts arguments = true ↔ Divides (read function.2.1) arguments := by
  have sound {signature : Signature} {arguments : List Value} (accepted : signature.accepts arguments = true) :
      Divides signature arguments :=
    (accepts_iff.mp accepted).divides
  have whole {signature : Signature} (committed : signature.isCommitted = true) (arguments : List Value) :
      signature.accepts arguments = true ↔ Divides signature arguments :=
    ⟨sound, accepts_of_divides committed⟩
  constructor
  · intro signature
    rw [read_written]
    refine ⟨fun _ => accepts_iff, fun _ => sound, fun all => ?_, whole⟩
    refine Decidable.byContradiction fun loose => ?_
    obtain ⟨arguments, fills, refused⟩ := exists_refused loose
    cases refused.symm.trans ((all arguments).mpr fills.divides)
  · intro function member
    have each : (Builtin.functions.all fun function => (read function.2.1).isCommitted) = true := by decide +kernel
    exact whole (all_eq_true.mp each function member)

/-- One number is refused where the first of two may be left out. -/
theorem lastNumber_refused : (read "N?N").accepts [.number 1 ""] = false ∧ Divides (read "N?N") [.number 1 ""] :=
  ⟨rfl, [[], [.number 1 ""]], .cons (Formal.takes_optional_iff.mpr (.inl rfl))
    (.cons (Formal.takes_once_iff.mpr ⟨_, rfl, rfl⟩) .nil), rfl⟩

end Signature

end LessCss
