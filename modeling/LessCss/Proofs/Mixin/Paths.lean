import LessCss.Proofs.Selector.Kept
import LessCss.Proofs.Statement.Forms

/-! Paths of definitions and of calls. Main statement: a name in front of parameters is
read as the same path as in front of arguments, so a call walks along the whole path of a
definition with its name. -/

set_option autoImplicit false

namespace LessCss

open List Fragment Token

open Tokens

namespace Fragment

def setsApart (token : Token) : Bool := token.isBlank || token.isMark ">"

/-- Tokens that consist of fragments and of what sets them apart. -/
inductive Spells : Tokens → List Fragment → Prop where
  | nil : Spells [] []
  | gap {token : Token} {rest : Tokens} {path : List Fragment} (between : setsApart token = true)
      (others : Spells rest path) : Spells (token :: rest) path
  | id {token : Token} {rest : Tokens} {path : List Fragment} (hash : token.kind = .hash)
      (others : Spells rest path) : Spells (token :: rest) (.id token.text :: path)
  | cls {point word : Token} {rest : Tokens} {path : List Fragment} (mark : point.isMark "." = true)
      (named : word.kind = .identifier) (others : Spells rest path) :
      Spells (point :: word :: rest) (.cls word.text :: path)

variable {tokens : Tokens} {path : List Fragment} {token : Token}

theorem kind_of_isMark {text : String} (mark : token.isMark text = true) : token.kind = .other ∧ token.text = text := by
  simpa [isMark] using mark

theorem setsApart_of_hash (hash : token.kind = .hash) : setsApart token = false := by
  simp [setsApart, isBlank, isMark, hash, Kind.isBlank]

theorem ne_hash_of_setsApart (apart : setsApart token = true) : token.kind ≠ .hash := by
  intro hash
  rw [setsApart_of_hash hash] at apart
  cases apart

theorem ne_hash_of_point (mark : token.isMark "." = true) : token.kind ≠ .hash := by
  rw [(kind_of_isMark mark).1]
  decide

theorem setsApart_of_point (mark : token.isMark "." = true) : setsApart token = false := by
  obtain ⟨kind, text⟩ := kind_of_isMark mark
  simp [setsApart, isBlank, isMark, kind, text, Kind.isBlank]

theorem ofBranch?_id (hash : token.kind = .hash) (rest : Tokens) :
    ofBranch? (token :: rest) = (ofBranch? rest).map (.id token.text :: ·) := by
  rw [ofBranch?.eq_def]
  exact if_pos hash

theorem ofBranch?_gap (apart : setsApart token = true) (rest : Tokens) : ofBranch? (token :: rest) = ofBranch? rest := by
  rw [ofBranch?.eq_def]
  exact (if_neg (ne_hash_of_setsApart apart)).trans (if_pos apart)

theorem ofBranch?_cls {word : Token} (mark : token.isMark "." = true) (named : word.kind = .identifier) (rest : Tokens) :
    ofBranch? (token :: word :: rest) = (ofBranch? rest).map (.cls word.text :: ·) := by
  have apart : ¬setsApart token = true := by
    rw [setsApart_of_point mark]
    decide
  rw [ofBranch?.eq_def]
  refine (if_neg (ne_hash_of_point mark)).trans ((if_neg apart).trans (if_pos ?_))
  rw [mark, named]
  rfl

theorem ofBranch?_eq_some_iff : ofBranch? tokens = some path ↔ Spells tokens path := by
  constructor
  · intro found
    fun_induction ofBranch? tokens generalizing path with
    | case1 =>
      cases found
      exact .nil
    | case2 token rest hash ih =>
      obtain ⟨path, read, rfl⟩ := Option.map_eq_some_iff.mp found
      exact .id hash (ih read)
    | case3 token rest hash gap ih => exact .gap gap (ih found)
    | case4 token hash gap word rest cls ih =>
      obtain ⟨path, read, rfl⟩ := Option.map_eq_some_iff.mp found
      rw [Bool.and_eq_true, beq_iff_eq] at cls
      exact .cls cls.1 cls.2 (ih read)
    | case5 => cases found
    | case6 => cases found
  · intro spells
    induction spells with
    | nil => rfl
    | gap between _ ih => rw [ofBranch?_gap between, ih]
    | id hash _ ih => rw [ofBranch?_id hash, ih]; rfl
    | cls mark named _ ih => rw [ofBranch?_cls mark named, ih]; rfl

def reach? (left : List Fragment) (branch : Tokens) : Option Nat :=
  (ofBranch? branch).bind fun fragments =>
    if !fragments.isEmpty && fragments.isPrefixOf left then some fragments.length else none

theorem reach?_eq_some_iff {left : List Fragment} {branch : Tokens} {count : Nat} : reach? left branch = some count ↔
    ∃ fragments, Spells branch fragments ∧ fragments ≠ [] ∧ fragments <+: left ∧ fragments.length = count := by
  simp only [reach?, Option.bind_eq_some_iff, ofBranch?_eq_some_iff, Option.ite_none_right_eq_some, Bool.and_eq_true,
    Bool.not_eq_true', isEmpty_eq_false_iff, isPrefixOf_iff_prefix, Option.some.injEq, and_assoc]

end Fragment

namespace MixinCall

theorem walk_eq (call : MixinCall) (selector : Tokens) (offset : Nat) : call.walk selector offset =
    (selector.branches.findSome? (reach? (call.path.drop offset))).map (offset + ·) := by
  unfold walk
  induction selector.branches with
  | nil => rfl
  | cons branch rest ih =>
    rw [List.findSome?_cons, List.findSome?_cons, ih, reach?]
    cases ofBranch? branch with
    | none => rfl
    | some fragments =>
      cases fragments with
      | nil => rfl
      | cons first others =>
        dsimp only [Option.bind_some]
        rw [isEmpty_cons, Bool.not_false, Bool.true_and]
        cases (first :: others).isPrefixOf (call.path.drop offset) <;> rfl

end MixinCall

/-! ### Names of definitions and of calls -/

namespace Fragment

/-- Tokens that write a path and nothing else: a fragment stands at both ends. -/
structure Writes (tokens : Tokens) (path : List Fragment) : Prop where
  spells : Spells tokens path
  filled : path ≠ []
  front : ∀ token, tokens.head? = some token → setsApart token = false
  back : ∀ token, tokens.getLast? = some token → setsApart token = false

variable {tokens : Tokens} {path : List Fragment}

/-- What a path is written with opens nothing, closes nothing and separates nothing. -/
theorem Spells.kinds (spells : Spells tokens path) : ∀ token ∈ tokens, token.kind = .hash ∨ token.kind = .identifier ∨
    token.isMark "." = true ∨ setsApart token = true := by
  induction spells with
  | nil => exact forall_mem_nil _
  | gap between _ ih => exact forall_mem_cons.mpr ⟨.inr (.inr (.inr between)), ih⟩
  | id hash _ ih => exact forall_mem_cons.mpr ⟨.inl hash, ih⟩
  | cls mark named _ ih =>
    exact forall_mem_cons.mpr ⟨.inr (.inr (.inl mark)), forall_mem_cons.mpr ⟨.inr (.inl named), ih⟩⟩

theorem plain_of_kinds {token : Token} (kinds : token.kind = .hash ∨ token.kind = .identifier ∨
    token.isMark "." = true ∨ setsApart token = true) :
    token.kind.opens = false ∧ token.kind.closes = false ∧ separates "," token = false := by
  unfold setsApart isBlank isMark Kind.isBlank at kinds
  unfold Kind.opens Kind.closes separates
  cases kind : token.kind <;> simp_all
  rcases kinds with text | text <;> simp [text]

theorem uncut_of_plain {separator : String} (plain : ∀ token ∈ tokens, token.kind.opens = false ∧
    token.kind.closes = false ∧ separates separator token = false) (depth : Nat) :
    depthAfter depth tokens = depth ∧ Uncut separator depth tokens := by
  induction tokens with
  | nil => exact ⟨rfl, trivial⟩
  | cons token rest ih =>
    obtain ⟨⟨opens, closes, mark⟩, others⟩ := forall_mem_cons.mp plain
    have same : token.kind.depthAfter depth = depth := by simp [Kind.depthAfter, opens, closes]
    obtain ⟨after, uncut⟩ := ih others
    refine ⟨?_, by rw [mark, Bool.and_false], by rwa [same]⟩
    change depthAfter (token.kind.depthAfter depth) rest = depth
    rw [same, after]

namespace Writes

theorem isPart (writes : Writes tokens path) : IsPart "," tokens := by
  have solid {token : Token} (apart : setsApart token = false) : token.isBlank = false := (Bool.or_eq_false_iff.mp apart).1
  have front (token : Token) (first : tokens.head? = some token) := solid (writes.front token first)
  have back (token : Token) (last : tokens.getLast? = some token) := solid (writes.back token last)
  obtain ⟨closed, uncut⟩ := uncut_of_plain (fun token member => plain_of_kinds (writes.spells.kinds token member)) 0
  refine ⟨trim_eq_self front back, ?_, closed, uncut⟩
  rintro rfl
  cases writes.spells
  exact writes.filled rfl

theorem branches_eq (writes : Writes tokens path) : branches tokens = [tokens] := by
  have alone := branches_joinBranches (forall_mem_singleton.mpr writes.isPart)
  rwa [joinBranches_singleton] at alone

end Writes

end Fragment

namespace MixinCall

open Fragment (Spells Writes)

variable {tokens : Tokens} {path : List Fragment}

theorem walk_of_writes {call : MixinCall} (writes : Writes tokens call.path) : call.walk tokens 0 = some call.path.length := by
  have whole : reach? call.path tokens = some call.path.length :=
    reach?_eq_some_iff.mpr ⟨_, writes.spells, writes.filled, prefix_rfl, rfl⟩
  rw [walk_eq, writes.branches_eq, drop_zero, List.findSome?_singleton, whole, Option.map_some, Nat.zero_add]

theorem readPath_point (started : Bool) {point word : Token} (mark : point.isMark "." = true)
    (named : word.kind = .identifier) (rest : Tokens) : readPath started (point :: word :: rest) =
      (point :: word :: (readPath true rest).1, .cls word.text :: (readPath true rest).2.1,
        (readPath true rest).2.2) := by
  refine readPath_class (ne_hash_of_point mark) ?_ (by rw [mark, named]; rfl) rest
  rw [show (point.isBlank || point.isMark ">") = false from setsApart_of_point mark, Bool.and_false]
  decide

theorem readPath_of_spells (spells : Spells tokens path) : readPath true tokens = (tokens, path, []) := by
  induction spells with
  | nil => rfl
  | gap between _ ih =>
    rw [readPath_on (ne_hash_of_setsApart between) ((Bool.true_and _).trans between), ih]
  | id hash _ ih => rw [readPath_hash hash, ih]
  | cls mark named _ ih => rw [readPath_point true mark named, ih]

theorem readPath_of_writes (writes : Writes tokens path) : readPath false tokens = (tokens, path, []) := by
  cases writes.spells with
  | nil => exact absurd rfl writes.filled
  | gap between _ =>
    rw [writes.front _ rfl] at between
    cases between
  | id hash others => rw [readPath_hash hash, readPath_of_spells others]
  | cls mark named others => rw [readPath_point false mark named, readPath_of_spells others]

/-- What may follow the arguments of a call: nothing, or the mark that makes declarations important. -/
inductive Marks : Tokens → Bool → Prop where
  | absent : Marks [] false
  | present {gap gap' : Tokens} {mark word : Token} (blank : Blank gap) (blank' : Blank gap')
      (bang : mark.isMark "!" = true) (named : word.kind = .identifier) (important : word.text = "important") :
      Marks (gap ++ mark :: (gap' ++ [word])) true

theorem Marks.readImportant? {mark : Tokens} {important : Bool} (marks : Marks mark important) :
    readImportant? mark = some important := by
  cases marks with
  | absent => rfl
  | @present gap gap' mark word blank blank' bang named important =>
    obtain ⟨kind, text⟩ := kind_of_isMark bang
    have solid : mark.isBlank = false := by rw [isBlank, kind]; rfl
    have solid' : word.isBlank = false := by rw [isBlank, named]; rfl
    have first : trimLeft (gap ++ mark :: (gap' ++ [word])) = mark :: (gap' ++ [word]) := by
      rw [trimLeft, dropWhile_append_of_pos blank, dropWhile_cons_of_neg (by simp [solid])]
    have second : trimLeft (gap' ++ [word]) = [word] := by
      rw [trimLeft, dropWhile_append_of_pos blank', dropWhile_cons_of_neg (by simp [solid'])]
    rw [MixinCall.readImportant?, first]
    dsimp only
    rw [if_pos text, second]
    dsimp only
    rw [important]
    rfl

theorem Marks.getLast_not_blank {mark : Tokens} {important : Bool} (marks : Marks mark important) {close : Token}
    (closes : close.kind = .parenClose) {token : Token} (last : (close :: mark).getLast? = some token) :
    token.isBlank = false := by
  cases marks with
  | absent =>
    have same : close = token := by simpa using last
    rw [← same, isBlank, closes]
    rfl
  | @present gap gap' mark word _ _ _ named _ =>
    have split : close :: (gap ++ mark :: (gap' ++ [word])) = (close :: (gap ++ mark :: gap')) ++ [word] := by simp
    rw [split, List.getLast?_concat] at last
    rw [← Option.some.inj last, isBlank, named]
    rfl

/-- A path with arguments behind it is a call. -/
theorem read?_of_writes {arguments mark : Tokens} {important : Bool} {opening closing : Token}
    (writes : Writes tokens path) (opens : opening.kind = .parenOpen) (closes : closing.kind = .parenClose)
    (balanced : opened? 0 arguments = some 0) (marks : Marks mark important) :
    read? (tokens ++ opening :: (arguments ++ closing :: mark)) =
      some ⟨tokens, path, (readArguments arguments).1, (readArguments arguments).2, important⟩ := by
  -- Neither the path nor the mark leaves a blank at the borders.
  have trimmed : trim (tokens ++ opening :: (arguments ++ closing :: mark)) =
      tokens ++ opening :: (arguments ++ closing :: mark) := by
    apply trim_eq_self
    · intro token first
      refine head_of_trim writes.isPart.trimmed ?_
      cases tokens with
      | nil => exact absurd rfl writes.isPart.ne_nil
      | cons => exact first
    · intro token last
      have split : tokens ++ opening :: (arguments ++ closing :: mark) =
          (tokens ++ opening :: arguments) ++ closing :: mark := by simp
      rw [split, List.getLast?_append, List.getLast?_cons, Option.some_or, ← List.getLast?_cons] at last
      exact marks.getLast_not_blank closes last
  have group : takeGroup? 0 (arguments ++ closing :: mark) = some (arguments, mark) := by
    rw [takeGroup?_append balanced, takeGroup?, if_pos closes, if_pos rfl, Option.map_some, append_nil]
  have front : headIs (opening :: (arguments ++ closing :: mark)) .parenOpen = true := by
    simp [headIs, headKind?, opens]
  rw [read?, trimmed, readPath_before (.inr opens), readPath_of_writes writes]
  dsimp only
  rw [if_neg (by simpa using writes.filled), nil_append, readGroup?, if_pos front, tail_cons, group]
  simp [marks.readImportant?, writes.isPart.trimmed]

end MixinCall

namespace Selector

open Fragment (Spells Writes)

variable {tokens seen : Tokens} {path : List Fragment} {selector : Selector}

theorem readFrom_plain {token : Token} (colon : token.kind ≠ .colon) (paren : token.kind ≠ .parenOpen)
    (free : token.kind = .identifier → seen.head?.any isBlank = false) (rest : Tokens) :
    readFrom seen selector (token :: rest) = readFrom (token :: seen) selector rest := by
  apply readFrom_step
  · simp [colon]
  · simp [paren]
  · intro opens
    simp only [opensGuard, Bool.and_eq_true, beq_iff_eq] at opens
    rw [free opens.1.1.1] at opens
    cases opens.1.2

/-- A path stays in the selector. The word `when` stands behind a point there, so it begins no guard. -/
theorem readFrom_of_spells (spells : Spells tokens path) (rest : Tokens) :
    readFrom seen selector (tokens ++ rest) = readFrom (tokens.reverse ++ seen) selector rest := by
  induction spells generalizing seen with
  | nil => rfl
  | @gap token _ _ between _ ih =>
    have kind : token.kind ≠ .colon ∧ token.kind ≠ .parenOpen ∧ token.kind ≠ .identifier := by
      unfold setsApart isBlank isMark Kind.isBlank at between
      cases kind : token.kind <;> simp_all
    rw [cons_append, readFrom_plain kind.1 kind.2.1 (absurd · kind.2.2), ih]
    simp
  | id hash _ ih =>
    rw [cons_append, readFrom_plain (by simp [hash]) (by simp [hash]) (by simp [hash]), ih]
    simp
  | @cls point word _ _ mark named _ ih =>
    obtain ⟨kind, _⟩ := kind_of_isMark mark
    have solid : point.isBlank = false := by rw [isBlank, kind]; rfl
    rw [cons_append, cons_append, readFrom_plain (by simp [kind]) (by simp [kind]) (by simp [kind]),
      readFrom_plain (by simp [named]) (by simp [named]) (by simp [solid]), ih]
    simp

theorem endsInName_append (ends : endsInName seen = true) (before : Tokens) : endsInName (seen ++ before) = true := by
  cases seen with
  | nil => cases ends
  | cons last rest =>
    cases rest with
    | nil =>
      have hash : last.kind = .hash := by simpa [endsInName] using ends
      simp [endsInName, hash]
    | cons => exact ends

theorem endsInName_of_spells (spells : Spells tokens path) (some_ : tokens ≠ [])
    (back : ∀ token, tokens.getLast? = some token → setsApart token = false) :
    endsInName tokens.reverse = true := by
  -- The name is seen at the end, so each case first asks whether it is the last one.
  induction spells with
  | nil => exact absurd rfl some_
  | @gap token rest _ between _ ih =>
    cases rest with
    | nil =>
      rw [back token rfl] at between
      cases between
    | cons next rest =>
      rw [reverse_cons]
      exact endsInName_append (ih (cons_ne_nil _ _) fun last found => back last (by simpa using found)) _
  | @id token rest _ hash _ ih =>
    cases rest with
    | nil => simp [endsInName, hash]
    | cons next rest =>
      rw [reverse_cons]
      exact endsInName_append (ih (cons_ne_nil _ _) fun last found => back last (by simpa using found)) _
  | @cls point word rest _ mark named _ ih =>
    cases rest with
    | nil => simp [endsInName, mark, named]
    | cons next rest =>
      rw [reverse_cons, reverse_cons, List.append_assoc]
      exact endsInName_append (ih (cons_ne_nil _ _) fun last found => back last (by simpa using found)) _

/-- A path with a parameter list behind it is a definition. -/
theorem read_of_writes {params : Tokens} {list : ParameterList} {opening closing : Token}
    (writes : Writes tokens path) (opens : opening.kind = .parenOpen) (closes : closing.kind = .parenClose)
    (balanced : opened? 0 params = some 0) (accepted : ParameterList.read? params = some list) :
    read (tokens ++ opening :: (params ++ [closing])) = ⟨tokens, some list, [], []⟩ := by
  have group : takeGroup (params ++ [closing]) = (params, []) := by
    rw [takeGroup, takeGroup?_append balanced, takeGroup?, if_pos closes, if_pos rfl, Option.map_some, append_nil]
    rfl
  -- The parenthesis stands behind a name, and no parameters were read before it.
  have name := endsInName_of_spells writes.spells writes.isPart.ne_nil writes.back
  rw [read, readFrom_of_spells writes.spells, append_nil, readFrom, if_neg (by simp [opens]),
    if_pos (by simp [opens, name, empty])]
  dsimp only
  rw [group]
  dsimp only
  rw [accepted]
  simp [readFrom, empty, writes.isPart.trimmed]

end Selector

namespace Fragment

/-- A name with parameters in parentheses is a definition, and with arguments in parentheses, marked
as important or not, a call, if the parentheses inside match; and the call walks along the whole
name of the definition. -/
theorem definition_matches_call {name params arguments mark : Tokens} {path : List Fragment} {list : ParameterList}
    {important : Bool} {opening closing opening' closing' : Token} (writes : Writes name path)
    (opens : opening.kind = .parenOpen) (closes : closing.kind = .parenClose) (opens' : opening'.kind = .parenOpen)
    (closes' : closing'.kind = .parenClose) (balanced : opened? 0 params = some 0)
    (accepted : ParameterList.read? params = some list) (balanced' : opened? 0 arguments = some 0)
    (marks : MixinCall.Marks mark important) :
    Selector.read (name ++ opening :: (params ++ [closing])) = ⟨name, some list, [], []⟩ ∧
    ∃ call, MixinCall.read? (name ++ opening' :: (arguments ++ closing' :: mark)) = some call ∧
      call.path = path ∧ (call.arguments, call.named) = MixinCall.readArguments arguments ∧
      call.important = important ∧
      call.walk (Selector.read (name ++ opening :: (params ++ [closing]))).tokens 0 = some call.path.length := by
  have definition := Selector.read_of_writes writes opens closes balanced accepted
  -- The tokens of the definition are those of the name, and the call has the path that they write.
  refine ⟨definition, _, MixinCall.read?_of_writes writes opens' closes' balanced' marks, rfl, rfl, rfl, ?_⟩
  rw [definition]
  exact MixinCall.walk_of_writes writes

/-- Class names that are words of the language elsewhere, with parentheses in a fallback and in an argument. -/
theorem reservedWords_match : ∃ name params list arguments mark call,
    name = (Scan.ofText "in" "#ns > .when.extend").tokens ∧
    params = (Scan.ofText "in" "@a; @b: f(1, (2))").tokens ∧
    arguments = (Scan.ofText "in" "(1 + 2), f(3); 4").tokens ∧
    Writes name [.id "#ns", .cls "when", .cls "extend"] ∧ opened? 0 params = some 0 ∧
    ParameterList.read? params = some list ∧ opened? 0 arguments = some 0 ∧ MixinCall.Marks mark true ∧
    Selector.read (name ++ .synthetic .parenOpen "(" :: (params ++ [.synthetic .parenClose ")"])) =
      ⟨name, some list, [], []⟩ ∧
    MixinCall.read? (name ++ .synthetic .parenOpen "(" :: (arguments ++ .synthetic .parenClose ")" :: mark)) = some call ∧
    call.important = true ∧ call.arguments.map Tokens.text = ["(1 + 2), f(3)", "4"] ∧ call.walk name 0 = some 3 := by
  have checked : ((ParameterList.read? (Scan.ofText "in" "@a; @b: f(1, (2))").tokens).isSome &&
      opened? 0 (Scan.ofText "in" "@a; @b: f(1, (2))").tokens == some 0 &&
      opened? 0 (Scan.ofText "in" "(1 + 2), f(3); 4").tokens == some 0 &&
      ((MixinCall.readArguments (Scan.ofText "in" "(1 + 2), f(3); 4").tokens).1.map Tokens.text ==
        ["(1 + 2), f(3)", "4"]) &&
      ofBranch? (Scan.ofText "in" "#ns > .when.extend").tokens == some [.id "#ns", .cls "when", .cls "extend"] &&
      !(Scan.ofText "in" "#ns > .when.extend").tokens.head?.any setsApart &&
      !(Scan.ofText "in" "#ns > .when.extend").tokens.getLast?.any setsApart) = true := by
    decide +kernel
  simp only [Bool.and_eq_true, beq_iff_eq, Bool.not_eq_true'] at checked
  obtain ⟨⟨⟨⟨⟨⟨isList, balanced⟩, balanced'⟩, values⟩, spelled⟩, front⟩, back⟩ := checked
  obtain ⟨list, accepted⟩ := Option.isSome_iff_exists.mp isList
  have writes : Writes (Scan.ofText "in" "#ns > .when.extend").tokens [.id "#ns", .cls "when", .cls "extend"] :=
    ⟨ofBranch?_eq_some_iff.mp spelled, cons_ne_nil _ _, fun token first => by rwa [first] at front,
      fun token last => by rwa [last] at back⟩
  have marks := @MixinCall.Marks.present [.synthetic .whitespace " "] [] (.synthetic .other "!")
    (.synthetic .identifier "important") (forall_mem_singleton.mpr rfl) (forall_mem_nil _) rfl rfl rfl
  obtain ⟨definition, call, read, path, passed, important, walked⟩ :=
    @definition_matches_call _ _ _ _ _ _ _ (.synthetic .parenOpen "(") (.synthetic .parenClose ")")
      (.synthetic .parenOpen "(") (.synthetic .parenClose ")") writes rfl rfl rfl rfl balanced accepted balanced' marks
  rw [definition, path] at walked
  rw [← passed] at values
  exact ⟨_, _, list, _, _, call, rfl, rfl, rfl, writes, balanced, accepted, balanced', marks, definition, read, important,
    values, walked⟩

end Fragment

end LessCss
