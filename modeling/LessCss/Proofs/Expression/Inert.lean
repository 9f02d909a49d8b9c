import LessCss.Proofs.Evaluator.References
import LessCss.Proofs.Expression.Steps
import LessCss.Proofs.Spacing.Nodes
import LessCss.Proofs.Value.Literals

/-! Values in which nothing is computed but variables: what stands for their tokens one by
one, which tokens are written as they stand, and what is read back from a group. -/

set_option autoImplicit false

namespace LessCss

open List Token Tokens Value

/-! ### Texts -/

namespace Css

def RendersAs (tokens others : Tokens) : Prop :=
  ∀ written pending, renderFrom written pending tokens = renderFrom written pending others

theorem RendersAs.refl (tokens : Tokens) : RendersAs tokens tokens := fun _ _ => rfl

theorem RendersAs.trans {first second third : Tokens} (same : RendersAs first second) (same' : RendersAs second third) :
    RendersAs first third :=
  fun written pending => (same written pending).trans (same' written pending)

theorem RendersAs.cons {token token' : Token} {rest rest' : Tokens} (solid : token.isBlank = false)
    (solid' : token'.isBlank = false) (text : token.text = token'.text) (same : RendersAs rest rest') :
    RendersAs (token :: rest) (token' :: rest') := by
  intro written pending
  rw [renderFrom, renderFrom, solid, solid', text, same written, same true, same]

theorem RendersAs.append {tokens others : Tokens} (same : RendersAs tokens others) (front : Tokens) :
    RendersAs (front ++ tokens) (front ++ others) := by
  induction front with
  | nil => exact same
  | cons token front ih =>
    intro written pending
    rw [cons_append, cons_append, renderFrom, renderFrom, ih written, ih true, ih]

end Css

/-! ### Values of literals -/

theorem Value.isLiteral_tokenKind (value : Value) : value.tokenKind.isLiteral = true := by
  cases literal : value.tokenKind.isLiteral with
  | true => rfl
  | false => exact absurd rfl (value.tokenKind_ne literal)

theorem Value.isBlank_toToken (value : Value) (at_ : Token) : (value.toToken at_).isBlank = false :=
  (Kind.solid_of_isLiteral value.isLiteral_tokenKind).1

/-- What a literal is written as is a name, or a literal that is read in the same way. -/
theorem Token.tokenKind_value {token : Token} (literal : token.kind.isLiteral = true) :
    token.value.tokenKind = .identifier ∨ token.value.tokenKind = token.kind ∨
      token.value.tokenKind.isNumeric = true ∧ token.kind.isNumeric = true := by
  -- The kind of number may change, but it stays a number, or is a name where the text is none.
  have numeric (text : String) : (ofNumeric text).tokenKind = .identifier ∨
      (ofNumeric text).tokenKind.isNumeric = true := by
    rw [ofNumeric]
    split
    · refine .inr ?_
      rw [tokenKind, Quantity.tokenKind]
      repeat' split
      all_goals rfl
    · exact .inl rfl
  unfold value
  cases kind : token.kind with
  | identifier => exact .inl (ofIdentifier_text token.text).2
  | number | percentage | dimension => exact (numeric token.text).imp_right fun number => .inr ⟨number, rfl⟩
  | url => exact .inr (.inl rfl)
  | string =>
    dsimp only
    rw [ofStringLiteral]
    generalize Text.unquote token.text = parts
    obtain ⟨inner, quote⟩ := parts
    cases quote with
    | none => exact .inl rfl
    | some quote => exact .inr (.inl rfl)
  | hash => exact (tokenKind_ofHash token.text).symm.imp_right .inl
  | _ =>
    rw [kind] at literal
    cases literal

/-- A literal that is written as it stands, and is read again, is written as it stands. -/
theorem Token.css_toToken {token : Token} (literal : token.kind.isLiteral = true) (printed : token.value.css = token.text)
    (at_ : Token) : (token.value.toToken at_).value.css = (token.value.toToken at_).text := by
  have text : (token.value.toToken at_).text = token.text := printed
  have kind : (token.value.toToken at_).kind = token.value.tokenKind := rfl
  rw [text]
  rcases tokenKind_value literal with name | same | ⟨numeric, numeric'⟩
  · have value : (token.value.toToken at_).value = .ofIdentifier token.text := by
      rw [value, kind, name, text]
    rw [value, (ofIdentifier_text token.text).1]
  · have value : (token.value.toToken at_).value = token.value := by
      rw [value, kind, same, text]
      rfl
    rw [value, printed]
  · rw [value_of_isNumeric (kind ▸ numeric), text, ← value_of_isNumeric numeric', printed]

theorem Token.unmarked_toToken {token : Token} (printed : token.value.css = token.text) (unmarked : ¬Text.Marked token.text)
    (at_ : Token) : ¬Text.Marked (token.value.toToken at_).text := by
  change ¬Text.Marked token.value.css
  rwa [printed]

namespace Environment

/-- What stands for a token by itself: a variable is evaluated, and the holes of any other token are filled. -/
def piece (env : Environment) (grouped : Bool) (token : Token) : Except Error Tokens :=
  if token.kind = .atKeyword then env.evaluateItems grouped none [token]
  else (env.interpolateToken grouped token).map ([·])

def pieces (env : Environment) (grouped : Bool) : Tokens → Except Error Tokens
  | [] => .ok []
  | token :: rest => do return (← env.piece grouped token) ++ (← env.pieces grouped rest)

/-- Tokens in which no expression has another text than the one it is written with. -/
inductive Inert (env : Environment) (grouped : Bool) : Tokens → Prop where
  | nil : Inert env grouped []
  | blank {token : Token} {rest : Tokens} (blank : token.isBlank = true) (others : Inert env grouped rest) :
      Inert env grouped (token :: rest)
  /-- Once it is filled, the literal is written as it stands. No operator and no parenthesis follows it. -/
  | literal {token : Token} {rest : Tokens} (kind : token.kind.isLiteral = true)
      (unmarked : token.kind.isFilled = false → ¬Text.Marked token.text)
      (printed : Returns (env.interpolateToken grouped token) fun filled => filled.value.css = filled.text)
      (alone : rest.headIs .parenOpen = false) (stop : rest.operator? = none) (others : Inert env grouped rest) :
      Inert env grouped (token :: rest)
  /-- The variable writes something that does not end with an opening parenthesis. -/
  | reference {token : Token} {rest : Tokens} (kind : token.kind = .atKeyword)
      (ends : Returns (env.evaluateItems grouped none [token]) fun written =>
        written.getLast?.any (·.kind != .parenOpen) = true)
      (stop : rest.operator? = none) (others : Inert env grouped rest) : Inert env grouped (token :: rest)
  | mark {token : Token} {rest : Tokens} (plain : token.kind.isPlain = true)
      (idle : token.kind = .other → token.text ∉ ["-", "%", "@", "~"]) (unmarked : ¬Text.Marked token.text)
      (others : Inert env grouped rest) : Inert env grouped (token :: rest)
  /-- A function that is not known keeps its parenthesis, and no blank stands behind that. -/
  | call {name opening : Token} {rest : Tokens} (kind : name.kind = .identifier)
      (unknown : env.library.contains name.text = false) (now : deferredFunctions.contains name.text.toLower = false)
      (opens : opening.kind = .parenOpen) (unmarked : ¬Text.Marked opening.text)
      (tight : rest.head?.any isBlank = false) (others : Inert env grouped rest) :
      Inert env grouped (name :: opening :: rest)
  /-- The group of a function that is computed later is copied. -/
  | deferred {name opening : Token} {inside group rest : Tokens} (kind : name.kind = .identifier)
      (unknown : env.library.contains name.text = false) (later : deferredFunctions.contains name.text.toLower = true)
      (opens : opening.kind = .parenOpen) (span : spanGroup 0 inside = (group, rest))
      (copied : ∀ token ∈ name :: opening :: group, token.kind ≠ .atKeyword ∧ ¬Text.Marked token.text)
      (others : Inert env grouped rest) : Inert env grouped (name :: opening :: inside)
  /-- Parentheses that enclose more than one literal. -/
  | group {opening : Token} {rest : Tokens} (opens : opening.kind = .parenOpen) (unmarked : ¬Text.Marked opening.text)
      (closed : (takeGroup? 0 rest).isSome = true) (tight : rest.head?.any isBlank = false)
      (constant : rest.headIs .atKeyword = false)
      (more : ∀ token inner, rest = token :: inner → token.kind.isLiteral = true →
        ¬Text.Marked token.text ∧ (trimLeft inner).headIs .parenClose = false)
      (others : Inert env grouped rest) : Inert env grouped (opening :: rest)

variable {env : Environment} {grouped : Bool}

/-! ### Pieces -/

theorem pieces_cons {token : Token} {rest first others : Tokens} (here : env.piece grouped token = .ok first)
    (behind : env.pieces grouped rest = .ok others) : env.pieces grouped (token :: rest) = .ok (first ++ others) := by
  rw [pieces, here, behind]
  rfl

theorem exists_of_pieces_cons {token : Token} {rest shown : Tokens}
    (done : env.pieces grouped (token :: rest) = .ok shown) : ∃ first others, env.piece grouped token = .ok first ∧
      env.pieces grouped rest = .ok others ∧ shown = first ++ others := by
  rw [pieces] at done
  cases here : env.piece grouped token with
  | error error =>
    rw [here] at done
    cases done
  | ok first =>
    cases behind : env.pieces grouped rest with
    | error error =>
      rw [here, behind] at done
      cases done
    | ok others =>
      rw [here, behind] at done
      cases done
      exact ⟨first, others, rfl, rfl, rfl⟩

theorem exists_of_piece {token : Token} {first : Tokens} (other : token.kind ≠ .atKeyword)
    (done : env.piece grouped token = .ok first) :
    ∃ filled, env.interpolateToken grouped token = .ok filled ∧ first = [filled] ∧ filled.kind = token.kind := by
  rw [piece, if_neg other] at done
  cases fill : env.interpolateToken grouped token with
  | error error =>
    rw [fill] at done
    cases done
  | ok filled =>
    rw [fill] at done
    cases done
    exact ⟨filled, rfl, rfl, kind_interpolateToken grouped token filled fill⟩

theorem piece_of_unmarked {token : Token} (other : token.kind ≠ .atKeyword) (unmarked : ¬Text.Marked token.text) :
    env.piece grouped token = .ok [token] := by
  rw [piece, if_neg other, interpolateToken_of_unmarked env grouped unmarked]
  rfl

theorem pieces_of_resolved {tokens : Tokens} (resolved : Tokens.Resolved tokens) :
    env.pieces grouped tokens = tokens.mapM (env.interpolateToken grouped) := by
  induction tokens with
  | nil => rfl
  | cons token rest ih =>
    obtain ⟨other, others⟩ := forall_mem_cons.mp resolved
    rw [pieces, piece, if_neg other, ih others, mapM_cons]
    cases env.interpolateToken grouped token <;> rfl

theorem pieces_append {front back before after : Tokens} (here : env.pieces grouped front = .ok before)
    (behind : env.pieces grouped back = .ok after) : env.pieces grouped (front ++ back) = .ok (before ++ after) := by
  induction front generalizing before with
  | nil =>
    cases here
    exact behind
  | cons token front ih =>
    obtain ⟨first, others, here', rest, rfl⟩ := exists_of_pieces_cons here
    rw [List.append_assoc]
    exact pieces_cons here' (ih rest)

theorem exists_of_pieces_append {front back shown : Tokens} (done : env.pieces grouped (front ++ back) = .ok shown) :
    ∃ before after, env.pieces grouped front = .ok before ∧ env.pieces grouped back = .ok after ∧
      shown = before ++ after := by
  induction front generalizing shown with
  | nil => exact ⟨[], shown, rfl, done, rfl⟩
  | cons token front ih =>
    obtain ⟨first, others, here, rest, rfl⟩ := exists_of_pieces_cons done
    obtain ⟨before, after, here', behind, rfl⟩ := ih rest
    exact ⟨first ++ before, after, pieces_cons here here', behind, (List.append_assoc ..).symm⟩

theorem blank_of_pieces {before blanks : Tokens} (blank : before.Blank) (done : env.pieces grouped before = .ok blanks) :
    Tokens.Blank blanks ∧ (blanks = [] ↔ before = []) := by
  induction before generalizing blanks with
  | nil =>
    cases done
    exact ⟨forall_mem_nil _, Iff.rfl⟩
  | cons token before ih =>
    obtain ⟨first, others⟩ := forall_mem_cons.mp blank
    obtain ⟨piece, blanks', here, behind, rfl⟩ := exists_of_pieces_cons done
    have other : token.kind ≠ .atKeyword := by
      intro reference
      rw [isBlank, reference] at first
      cases first
    obtain ⟨filled, _, rfl, kind⟩ := exists_of_piece other here
    have blank' : filled.isBlank = true := by rwa [isBlank, kind]
    exact ⟨forall_mem_cons.mpr ⟨blank', (ih others behind).1⟩, by simp⟩

theorem pieces_of_copied {tokens : Tokens} (copied : ∀ token ∈ tokens, token.kind ≠ .atKeyword ∧ ¬Text.Marked token.text) :
    env.pieces grouped tokens = .ok tokens := by
  rw [pieces_of_resolved fun token member => (copied token member).1]
  exact mapM_interpolateToken_of_unmarked env grouped fun token member => (copied token member).2

theorem Inert.tail_of_blank {token : Token} {rest : Tokens} (inert : env.Inert grouped (token :: rest))
    (blank : token.isBlank = true) : env.Inert grouped rest := by
  have not_ {kind : Kind} (same : token.kind = kind) (solid : kind.isBlank = false) : False := by
    rw [isBlank, same, solid] at blank
    cases blank
  cases inert with
  | blank _ others => exact others
  | literal kind => exact (not_ rfl (Kind.solid_of_isLiteral kind).1).elim
  | reference kind => exact (not_ kind rfl).elim
  | mark plain =>
    simp only [Kind.isPlain, Bool.and_eq_true, Bool.not_eq_true'] at plain
    exact (not_ rfl plain.2).elim
  | call kind => exact (not_ kind rfl).elim
  | deferred kind => exact (not_ kind rfl).elim
  | group opens => exact (not_ opens rfl).elim

theorem Inert.of_blank {before rest : Tokens} (inert : env.Inert grouped (before ++ rest)) (blank : before.Blank) :
    env.Inert grouped rest := by
  induction before with
  | nil => exact inert
  | cons token before ih =>
    obtain ⟨first, others⟩ := forall_mem_cons.mp blank
    exact ih (inert.tail_of_blank first) others

theorem Inert.of_unmarked {token : Token} {rest : Tokens} (kind : token.kind.isLiteral = true)
    (unmarked : ¬Text.Marked token.text) (printed : token.value.css = token.text)
    (alone : rest.headIs .parenOpen = false) (stop : rest.operator? = none) (others : env.Inert grouped rest) : env.Inert grouped (token :: rest) := by
  refine .literal kind (fun _ => unmarked) ?_ alone stop others
  rw [interpolateToken_of_unmarked env grouped unmarked]
  exact returns_ok printed

theorem Inert.of_literal {token : Token} {rest : Tokens} (inert : env.Inert grouped (token :: rest))
    (kind : token.kind.isLiteral = true) (alone : rest.headIs .parenOpen = false) :
    rest.operator? = none ∧ env.Inert grouped rest := by
  have not_ {kind' : Kind} (same : token.kind = kind') (no : kind'.isLiteral = false) : False := by
    rw [same, no] at kind
    cases kind
  have called {opening : Token} {inner : Tokens} (same : rest = opening :: inner) (opens : opening.kind = .parenOpen) :
      False := by
    simp [same, headIs, headKind?, opens] at alone
  cases inert with
  | blank blank => exact absurd blank (by rw [isBlank, (Kind.solid_of_isLiteral kind).1]; decide)
  | literal _ _ _ _ stop others => exact ⟨stop, others⟩
  | reference reference => exact (not_ reference rfl).elim
  | mark plain => simp [Kind.isPlain, kind] at plain
  | call _ _ _ opens => exact (called rfl opens).elim
  | deferred _ _ _ opens => exact (called rfl opens).elim
  | group opens => exact (not_ opens rfl).elim

/-! ### Groups -/

structure InertGroup (env : Environment) (grouped : Bool) (rest : Tokens) : Prop where
  closed : (rest.takeGroup? 0).isSome = true
  tight : rest.head?.any isBlank = false
  constant : rest.headIs .atKeyword = false
  more (token : Token) (inner : Tokens) (same : rest = token :: inner) (literal : token.kind.isLiteral = true) :
    ¬Text.Marked token.text ∧ inner.trimLeft.headIs .parenClose = false
  others : env.Inert grouped rest

theorem Inert.of_parenOpen {opening : Token} {rest : Tokens} (inert : env.Inert grouped (opening :: rest))
    (opens : opening.kind = .parenOpen) : ¬Text.Marked opening.text ∧ env.InertGroup grouped rest := by
  have not_ {kind : Kind} (same : opening.kind = kind) (no : kind ≠ .parenOpen) : False :=
    no (same.symm.trans opens)
  cases inert with
  | blank blank =>
    rw [isBlank, opens] at blank
    cases blank
  | literal kind => exact absurd opens (Kind.solid_of_isLiteral kind).2.2
  | reference reference => exact (not_ reference (by decide)).elim
  | mark plain => simp [Kind.isPlain, opens] at plain
  | call kind => exact (not_ kind (by decide)).elim
  | deferred kind => exact (not_ kind (by decide)).elim
  | group _ unmarked closed tight constant more others => exact ⟨unmarked, closed, tight, constant, more, others⟩

/-- The same tokens, up to a literal in front, or behind opening parentheses there, that was read and
put back. -/
inductive Reread : Tokens → Tokens → Prop where
  | refl (tokens : Tokens) : Reread tokens tokens
  | literal {token : Token} {rest : Tokens} (at_ : Token) (kind : token.kind.isLiteral = true)
      (unmarked : ¬Text.Marked token.text) (printed : token.value.css = token.text)
      (alone : rest.headIs .parenOpen = false) : Reread (token :: rest) (token.value.toToken at_ :: rest)
  | group {opening : Token} {rest rest' : Tokens} (opens : opening.kind = .parenOpen) (inside : Reread rest rest') :
      Reread (opening :: rest) (opening :: rest')

namespace Reread

variable {tokens others : Tokens}

section

variable (reread : Reread tokens others)

include reread

theorem length_eq : others.length = tokens.length := by
  induction reread with
  | refl => rfl
  | literal => rfl
  | group _ _ ih => rw [length_cons, length_cons, ih]

theorem head_isBlank : others.head?.any isBlank = tokens.head?.any isBlank := by
  cases reread with
  | refl => rfl
  | literal at_ kind => exact (isBlank_toToken _ at_).trans (Kind.solid_of_isLiteral kind).1.symm
  | group => rfl

theorem headIs_atKeyword : others.headIs .atKeyword = tokens.headIs .atKeyword := by
  have apart {token : Token} {rest : Tokens} (literal : token.kind.isLiteral = true) :
      headIs (token :: rest) .atKeyword = false := by
    refine Bool.eq_false_iff.mpr fun same => ?_
    have kind : token.kind = .atKeyword := by simpa [headIs, headKind?] using same
    rw [kind] at literal
    cases literal
  cases reread with
  | refl => rfl
  | literal at_ kind => rw [apart kind, apart (isLiteral_tokenKind _)]
  | group => rfl

theorem isSome_takeGroup? (depth : Nat) :
    (others.takeGroup? depth).isSome = (tokens.takeGroup? depth).isSome := by
  have skips {token : Token} (literal : token.kind.isLiteral = true) (depth : Nat) (rest : Tokens) :
      (takeGroup? depth (token :: rest)).isSome = (rest.takeGroup? depth).isSome := by
    have close : token.kind ≠ .parenClose := by
      intro kind
      rw [kind] at literal
      cases literal
    rw [takeGroup?, if_neg close, if_neg (Kind.solid_of_isLiteral literal).2.2, Option.isSome_map]
  have enters {opening : Token} (opens : opening.kind = .parenOpen) (depth : Nat) (rest : Tokens) :
      (takeGroup? depth (opening :: rest)).isSome = (rest.takeGroup? (depth + 1)).isSome := by
    rw [takeGroup?, if_neg (by rw [opens]; decide), if_pos opens, Option.isSome_map]
  induction reread generalizing depth with
  | refl => rfl
  | literal at_ kind => rw [skips kind, skips (isLiteral_tokenKind _)]
  | group opens inside ih => rw [enters opens, enters opens, ih]

theorem inert (inert : env.Inert grouped tokens) : env.Inert grouped others := by
  induction reread with
  | refl => exact inert
  | literal at_ kind unmarked printed alone =>
    obtain ⟨stop, others⟩ := inert.of_literal kind alone
    have unmarked' := unmarked_toToken printed unmarked at_
    exact .of_unmarked (isLiteral_tokenKind _) unmarked' (css_toToken kind printed at_) alone stop others
  | group opens inside ih =>
    obtain ⟨unmarked, closed, tight, constant, more, others⟩ := inert.of_parenOpen opens
    -- All that a group asks for is told by kinds, which stay, and by the literal in front.
    refine .group opens unmarked (by rw [inside.isSome_takeGroup?, closed]) (by rw [inside.head_isBlank, tight])
      (by rw [inside.headIs_atKeyword, constant]) (fun token inner same literal => ?_) (ih others)
    cases inside with
    | refl => exact more token inner same literal
    | literal at_ kind unmarked printed =>
      cases same
      exact ⟨unmarked_toToken printed unmarked at_, (more _ _ rfl kind).2⟩
    | group opens' =>
      cases same
      exact absurd opens' (Kind.solid_of_isLiteral literal).2.2

theorem pieces {shown : Tokens} (done : env.pieces grouped tokens = .ok shown) :
    ∃ shown', env.pieces grouped others = .ok shown' ∧ Css.RendersAs shown' shown := by
  induction reread generalizing shown with
  | refl => exact ⟨shown, done, .refl shown⟩
  | @literal token rest at_ kind unmarked printed alone =>
    have reference {token : Token} (kind : token.kind.isLiteral = true) : token.kind ≠ .atKeyword := by
      intro same
      rw [same] at kind
      cases kind
    have unmarked' := unmarked_toToken printed unmarked at_
    obtain ⟨first, others, here, behind, rfl⟩ := exists_of_pieces_cons done
    rw [piece_of_unmarked (reference kind) unmarked] at here
    cases here
    have again : env.piece grouped (token.value.toToken at_) = .ok [token.value.toToken at_] :=
      piece_of_unmarked (reference (isLiteral_tokenKind _)) unmarked'
    refine ⟨_, pieces_cons again behind, ?_⟩
    exact .cons (isBlank_toToken _ at_) (Kind.solid_of_isLiteral kind).1 printed (.refl others)
  | group opens inside ih =>
    obtain ⟨first, others, here, behind, rfl⟩ := exists_of_pieces_cons done
    obtain ⟨others', behind', same⟩ := ih behind
    exact ⟨first ++ others', pieces_cons here behind', same.append first⟩

end

end Reread

theorem literal?_of_filled {token filled : Token} (kind : token.kind.isLiteral = true)
    (unmarked : token.kind.isFilled = false → ¬Text.Marked token.text)
    (fill : env.interpolateToken grouped token = .ok filled) : env.literal? grouped token = .ok (some filled.value) := by
  -- Of the literals only names, strings and urls are filled; all others have no hole.
  cases holes : token.kind.isFilled with
  | false =>
    rw [interpolateToken_of_unmarked env grouped (unmarked holes)] at fill
    cases fill
    exact literal?_of_unmarked kind fun filled => absurd (filled.symm.trans holes) (by decide)
  | true =>
    rw [interpolateToken] at fill
    cases text : env.interpolate grouped token token.text with
    | error error =>
      rw [text] at fill
      cases fill
    | ok text' =>
      rw [text] at fill
      cases fill
      unfold literal? value
      dsimp only
      cases same : token.kind with
      | identifier | string | url =>
        dsimp only
        rw [text]
        rfl
      | _ =>
        rw [same] at holes
        cases holes

theorem statement_of_unknown {name opening : Token} (kind : name.kind = .identifier)
    (unknown : env.library.contains name.text = false) (opens : opening.kind = .parenOpen) (rest : Tokens) :
    env.statement grouped (name :: opening :: rest) = .ok (.unread (name :: opening :: rest)) := by
  have solid : name.isBlank = false := by rw [isBlank, kind]; rfl
  have constant : env.constant grouped (name :: opening :: rest) = .ok (.unread (name :: opening :: rest)) := by
    rw [constant.eq_def]
    dsimp only
    rw [if_neg (by rw [kind]; decide), if_neg (by simp [isMark, kind]), if_pos (by simp [opens, kind]),
      if_pos (by simp [kind, unknown])]
  obtain ⟨_, read⟩ := statement_of_absent (trimLeft_cons_of_solid solid _) constant
  exact read

/-- A group stays, up to a literal in front that is put back. -/
theorem statement_of_group {opening : Token} {rest : Tokens} (opens : opening.kind = .parenOpen)
    (inert : env.Inert grouped (opening :: rest)) : ∃ rest', Reread rest rest' ∧ ∀ grouped', ∃ bounded,
      env.statement grouped' (opening :: rest) = .ok (.absent (opening :: rest') bounded) := by
  induction rest generalizing opening with
  | nil => cases (inert.of_parenOpen opens).2.closed
  | cons first inner ih =>
    obtain ⟨_, closed, tight, constant, more, others⟩ := inert.of_parenOpen opens
    have solid : opening.isBlank = false := by rw [isBlank, opens]; rfl
    have start := trimLeft_cons_of_solid solid (first :: inner)
    have absent {rest' : Tokens} {bounded : rest'.length ≤ (first :: inner).length}
        (read : env.statement true (first :: inner) = .ok (.absent rest' bounded)) (grouped' : Bool) :
        ∃ bounded', env.statement grouped' (opening :: first :: inner) = .ok (.absent (opening :: rest') bounded') := by
      obtain ⟨_, constant⟩ := constant_of_group_absent opens closed read
      exact statement_of_absent start constant
    cases others with
    | blank blank =>
      rw [List.head?_cons, Option.any_some, blank] at tight
      cases tight
    | literal kind _ printed alone stop =>
      -- The literal is read as an expression, and put back since the group goes on behind it.
      obtain ⟨unmarked, goesOn⟩ := more first inner rfl kind
      obtain ⟨_, read⟩ := statement_of_alone (literal?_of_unmarked kind fun _ => unmarked) (fun _ => alone) stop
      refine ⟨first.value.toToken opening :: inner, .literal opening kind unmarked ?_ alone, fun grouped' => ?_⟩
      · exact printed first (interpolateToken_of_unmarked env grouped unmarked)
      · obtain ⟨_, constant⟩ := constant_of_group_more opens closed read goesOn
        exact statement_of_absent start constant
    | reference reference => simp [headIs, headKind?, reference] at constant
    | mark plain idle => exact ⟨first :: inner, .refl _, absent (statement_of_plain plain idle inner)⟩
    | call kind unknown _ opens' => exact ⟨_, .refl _, absent (statement_of_unknown kind unknown opens' _)⟩
    | deferred kind unknown _ opens' => exact ⟨_, .refl _, absent (statement_of_unknown kind unknown opens' _)⟩
    | group opens' unmarked closed' tight' constant' more' others' =>
      obtain ⟨rest', reread, read⟩ := ih opens' (.group opens' unmarked closed' tight' constant' more' others')
      obtain ⟨_, read⟩ := read true
      exact ⟨first :: rest', .group opens' reread, absent read⟩

end Environment

end LessCss
