import LessCss.Function.Builtin
import LessCss.Proofs.Expression.Inert
import LessCss.Proofs.Processor.Termination

/-! Inert values keep their text. A value without variables, calls and arithmetic is not
evaluated item by item; only its holes are filled. Main statement: on inert values both
ways give the same text, and a variable among inert tokens does not change how the
others are printed. -/

set_option autoImplicit false

namespace LessCss

open List Css Tokens

theorem Tokens.closes_of_spanGroup {depth : Nat} {tokens group rest : Tokens} (span : spanGroup depth tokens = (group, rest)) :
    rest = [] ∨ ∃ before closing, group = before ++ [closing] ∧ closing.kind = .parenClose := by
  have longer {token : Token} {group rest : Tokens}
      (ends : rest = [] ∨ ∃ before closing, group = before ++ [closing] ∧ closing.kind = .parenClose) :
      rest = [] ∨ ∃ before closing, token :: group = before ++ [closing] ∧ closing.kind = .parenClose := by
    refine ends.imp_right ?_
    rintro ⟨before, closing, rfl, closes⟩
    exact ⟨token :: before, closing, rfl, closes⟩
  induction tokens generalizing depth group with
  | nil =>
    cases span
    exact .inl rfl
  | cons token tokens ih =>
    rw [spanGroup] at span
    split at span
    · rename_i closes
      split at span
      · cases span
        exact .inr ⟨[], token, rfl, closes⟩
      · cases span
        exact longer (ih rfl)
    · cases span
      exact longer (ih rfl)

namespace Environment

variable {env : Environment} {grouped : Bool}

theorem substitute_of_resolved {tokens : Tokens} (resolved : Tokens.Resolved tokens) :
    env.substitute grouped tokens = .ok tokens := by
  induction tokens with
  | nil => rfl
  | cons token rest ih =>
    obtain ⟨other, others⟩ := forall_mem_cons.mp resolved
    rw [substitute_cons, if_neg other, ih others]
    rfl

/-! ### Turns -/

/-- What one turn does with the first token that is no blank: it carries tokens over, the last one of
this kind, and goes on with the rest. What is carried over has the texts of the pieces in front. -/
structure Turn (env : Environment) (grouped : Bool) (first : Token) (others shown carried : Tokens) (kind : Kind)
    (rest shown' : Tokens) : Prop where
  evaluates {last : Option Kind} {tokens : Tokens} (start : tokens.trimLeft = first :: others) :
    env.evaluateItems grouped last tokens =
      (env.evaluateItems grouped (some kind) rest).map fun written => gap last tokens ++ (carried ++ written)
  shorter : rest.length ≤ others.length
  tight : kind = .parenOpen → rest.head?.any Token.isBlank = false
  inert : env.Inert grouped rest
  pieces : env.pieces grouped rest = .ok shown'
  renders {out : Tokens} (same : Css.RendersAs out shown') : Css.RendersAs (carried ++ out) shown

section Turns

variable {token : Token} {rest others : Tokens}

theorem turn_literal {filled : Token} (kind : token.kind.isLiteral = true)
    (unmarked : token.kind.isFilled = false → ¬Text.Marked token.text)
    (fill : env.interpolateToken grouped token = .ok filled) (printed : filled.value.css = filled.text)
    (alone : rest.headIs .parenOpen = false) (stop : rest.operator? = none) (inert : env.Inert grouped rest)
    (behind : env.pieces grouped rest = .ok others) :
    env.Turn grouped token rest (filled :: others) [filled.value.toToken token] filled.value.tokenKind rest others := by
  obtain ⟨_, read⟩ := statement_of_alone (literal?_of_filled kind unmarked fill) (fun _ => alone) stop
  have kind' : filled.kind = token.kind := kind_interpolateToken grouped token filled fill
  have solid : filled.isBlank = false := by rw [Token.isBlank, kind']; exact (Kind.solid_of_isLiteral kind).1
  exact {
    evaluates := fun start => evaluateItems_of_found start read
    shorter := Nat.le_refl _
    tight := fun opens => absurd opens (Kind.solid_of_isLiteral filled.value.isLiteral_tokenKind).2.2
    inert := inert
    pieces := behind
    renders := fun same => .cons (Value.isBlank_toToken _ token) solid printed same }

/-- A variable writes what it writes by itself. -/
theorem turn_reference {written : Tokens} {final : Token} (kind : token.kind = .atKeyword)
    (done : env.evaluateItems grouped none [token] = .ok written) (ends : written.getLast? = some final)
    (other : final.kind ≠ .parenOpen) (stop : rest.operator? = none) (inert : env.Inert grouped rest)
    (behind : env.pieces grouped rest = .ok others) :
    env.Turn grouped token rest (written ++ others) written final.kind rest others := by
  have solid : token.isBlank = false := by rw [Token.isBlank, kind]; rfl
  have noName : token.kind ≠ .identifier := by rw [kind]; decide
  have noParen : token.kind ≠ .parenOpen := by rw [kind]; decide
  have noMark (mark : token.kind = .other) : token.text ∉ ["-", "%", "@", "~"] :=
    absurd (kind.symm.trans mark) (by decide)
  have start' := trimLeft_cons_of_solid solid []
  refine ⟨fun {last tokens} start => ?_, Nat.le_refl _, fun opens => absurd opens other, inert, behind,
    fun same => same.append written⟩
  -- What is read for the variable does not depend on what follows: an error, a value, or tokens to copy.
  cases read : env.literal? grouped token with
  | error error =>
    have failed : env.constant grouped [token] = .error error := by
      rw [constant_of_token [] noParen noMark fun name => absurd name noName, read]
      rfl
    rw [evaluateItems_of_error start' (statement_of_error start' failed)] at done
    cases done
  | ok value? =>
    cases value? with
    | some value =>
      obtain ⟨_, found⟩ := statement_of_alone read (fun name => absurd name noName) stop
      obtain ⟨_, found'⟩ := statement_of_alone read (fun name => absurd name noName)
        (show operator? [] = none from rfl)
      rw [evaluateItems_of_found start' found', evaluateItems_of_nil rfl, gap_of_solid solid] at done
      cases done
      cases ends
      exact evaluateItems_of_found start found
    | none =>
      have absent (rest : Tokens) : env.statement grouped (token :: rest) = .ok (.unread (token :: rest)) :=
        statement_of_none read solid noParen noMark noName rest
      have carry_ (rest : Tokens) :
          env.carry grouped token rest = (env.resolve grouped token).map fun value => .all value rest := by
        rw [carry, kind]
      cases resolved : env.resolve grouped token with
      | error error =>
        rw [evaluateItems_of_absent start' (absent []), carry_, resolved] at done
        cases done
      | ok value =>
        have carries (rest : Tokens) : env.carry grouped token rest = .ok (.all value rest) := by
          rw [carry_, resolved]
          rfl
        rw [evaluateItems_of_absent start' (absent []), carries, gap_of_solid solid] at done
        change (env.evaluateItems grouped _ []).map _ = _ at done
        rw [evaluateItems_of_nil rfl] at done
        have same : value = written := by
          simpa [Upto.all] using Except.ok.inj done
        subst same
        exact evaluateItems_of_carried start (absent rest) (carries rest) ends

theorem turn_mark (plain : token.kind.isPlain = true) (idle : token.kind = .other → token.text ∉ ["-", "%", "@", "~"])
    (inert : env.Inert grouped rest) (behind : env.pieces grouped rest = .ok others) :
    env.Turn grouped token rest (token :: others) [token] token.kind rest others where
  evaluates start := evaluateItems_of_plain start plain idle
  shorter := Nat.le_refl _
  tight opens := by
    rw [opens] at plain
    cases plain
  inert := inert
  pieces := behind
  renders same := same.append [token]

theorem turn_call {name opening filled : Token} (kind : name.kind = .identifier)
    (unknown : env.library.contains name.text = false) (now : deferredFunctions.contains name.text.toLower = false)
    (opens : opening.kind = .parenOpen) (fill : env.interpolateToken grouped name = .ok filled)
    (tight : rest.head?.any Token.isBlank = false) (inert : env.Inert grouped rest)
    (behind : env.pieces grouped rest = .ok others) :
    env.Turn grouped name (opening :: rest) (filled :: opening :: others) [filled, opening] .parenOpen rest others where
  evaluates start := by
    have carries : env.carry grouped name (opening :: rest) =
        .ok ⟨[filled, opening], rest, length_le_cons opening rest⟩ := by
      rw [carry, kind]
      dsimp only
      rw [carryIdentifier, if_neg (by simp [opens]), if_neg (by rw [now]; decide), fill]
      rfl
    rw [← opens]
    exact evaluateItems_of_carried start (statement_of_unknown kind unknown opens rest) carries rfl
  shorter := Nat.le_succ _
  tight _ := tight
  inert := inert
  pieces := behind
  renders same := same.append [filled, opening]

theorem turn_deferred {name opening : Token} {inside group : Tokens} (kind : name.kind = .identifier)
    (unknown : env.library.contains name.text = false) (later : deferredFunctions.contains name.text.toLower = true)
    (opens : opening.kind = .parenOpen) (span : spanGroup 0 inside = (group, rest))
    (copied : ∀ token ∈ group, token.kind ≠ .atKeyword) (inert : env.Inert grouped rest)
    (behind : env.pieces grouped rest = .ok others) : ∃ kind, env.Turn grouped name (opening :: inside)
      (name :: opening :: (group ++ others)) (name :: opening :: group) kind rest others := by
  obtain ⟨final, last⟩ : ∃ final, (name :: opening :: group).getLast? = some final := ⟨_, List.getLast?_cons_cons⟩
  refine ⟨final.kind, ?_⟩
  have length : inside.length = group.length + rest.length := by
    rw [← spanGroup_append 0 inside, span, length_append]
  exact {
    evaluates := fun start => by
      -- No statement begins here, so name and group are carried over, and nothing in the group is a reference.
      have carries : ∃ bounded, env.carry grouped name (opening :: inside) =
          .ok ⟨name :: opening :: group, rest, bounded⟩ := by
        obtain ⟨rfl, rfl⟩ := Prod.mk.inj span
        refine ⟨length_spanGroup_le_cons opening inside, ?_⟩
        rw [carry, kind]
        dsimp only
        rw [carryIdentifier, if_neg (by simp [opens]), if_pos later, substitute_of_resolved copied]
        rfl
      obtain ⟨_, carries⟩ := carries
      exact evaluateItems_of_carried start (statement_of_unknown kind unknown opens inside) carries last
    shorter := by
      rw [length_cons, length]
      omega
    tight := fun open_ => by
      -- The group ends in a closing parenthesis, unless the text ends first.
      rcases closes_of_spanGroup span with rfl | ⟨before, closing, rfl, closes⟩
      · rfl
      · have same : some closing = some final := by
          rw [← last]
          exact (List.getLast?_concat (l := name :: opening :: before)).symm
        cases same
        cases closes.symm.trans open_
    inert := inert
    pieces := behind
    renders := fun same => same.append (name :: opening :: group) }

theorem turn_group {opening : Token} (opens : opening.kind = .parenOpen) (inert : env.Inert grouped (opening :: rest))
    (behind : env.pieces grouped rest = .ok others) :
    ∃ rest' others', env.Turn grouped opening rest (opening :: others) [opening] .parenOpen rest' others' := by
  obtain ⟨rest', reread, read⟩ := statement_of_group opens inert
  obtain ⟨_, read⟩ := read grouped
  obtain ⟨_, group⟩ := inert.of_parenOpen opens
  obtain ⟨others', behind', same'⟩ := reread.pieces behind
  refine ⟨rest', others', ?_⟩
  exact {
    evaluates := fun start => by
      have carries : env.carry grouped opening rest' = .ok (.all [opening] rest') := by rw [carry, opens]
      rw [← opens]
      exact evaluateItems_of_carried start read carries rfl
    shorter := Nat.le_of_eq reread.length_eq
    tight := fun _ => by rw [reread.head_isBlank, group.tight]
    inert := reread.inert group.others
    pieces := behind'
    renders := fun same => (same.trans same').append [opening] }

end Turns

theorem turn_of_inert {first : Token} {others shown : Tokens} (inert : env.Inert grouped (first :: others))
    (solid : first.isBlank = false) (done : env.pieces grouped (first :: others) = .ok shown) :
    ∃ carried kind rest shown', env.Turn grouped first others shown carried kind rest shown' := by
  obtain ⟨piece, shown', here, behind, rfl⟩ := exists_of_pieces_cons done
  cases inert with
  | blank blank =>
    rw [blank] at solid
    cases solid
  | literal kind unmarked printed alone stop inert' =>
    obtain ⟨filled, fill, rfl, _⟩ := exists_of_piece (by rintro same; rw [same] at kind; cases kind) here
    exact ⟨_, _, _, _, turn_literal kind unmarked fill (printed filled fill) alone stop inert' behind⟩
  | reference kind ends stop inert' =>
    rw [Environment.piece, if_pos kind] at here
    obtain ⟨final, last, other⟩ := (Option.any_eq_true _ _).mp (ends piece here)
    exact ⟨_, _, _, _, turn_reference kind here last (bne_iff_ne.mp other) stop inert' behind⟩
  | mark plain idle unmarked inert' =>
    rw [piece_of_unmarked (by rintro same; rw [same] at plain; cases plain) unmarked] at here
    cases here
    exact ⟨_, _, _, _, turn_mark plain idle inert' behind⟩
  | call kind unknown now opens unmarked tight inert' =>
    obtain ⟨filled, fill, rfl, _⟩ := exists_of_piece (by rw [kind]; decide) here
    obtain ⟨_, others, here', behind', rfl⟩ := exists_of_pieces_cons behind
    rw [piece_of_unmarked (by rw [opens]; decide) unmarked] at here'
    cases here'
    exact ⟨_, _, _, _, turn_call kind unknown now opens fill tight inert' behind'⟩
  | @deferred _ opening inside group rest kind unknown later opens span copied inert' =>
    -- What is shown was found token by token and is cut here where the group ends.
    have inside_ : inside = group ++ rest := by rw [← spanGroup_append 0 inside, span]
    have front : first :: opening :: inside = (first :: opening :: group) ++ rest := by rw [inside_]; rfl
    obtain ⟨before, others', here', behind', shown⟩ := exists_of_pieces_append (front ▸ done)
    rw [pieces_of_copied copied] at here'
    cases here'
    have resolved (token : Token) (member : token ∈ group) : token.kind ≠ .atKeyword :=
      (copied token (mem_cons_of_mem _ (mem_cons_of_mem _ member))).1
    obtain ⟨kind', turn⟩ := turn_deferred kind unknown later opens span resolved inert' behind'
    rw [shown]
    exact ⟨_, _, _, _, turn⟩
  | group opens unmarked closed tight constant more inert' =>
    rw [piece_of_unmarked (by rw [opens]; decide) unmarked] at here
    cases here
    exact ⟨_, _, turn_group opens (.group opens unmarked closed tight constant more inert') behind⟩

/-! ### Items -/

/-- The gap in front of an item is printed as the blanks there are. -/
theorem renderFrom_gap {last : Option Kind} {before blanks tokens out shown : Tokens} {first : Token} {others : Tokens}
    (blank : before.Blank) (blank' : blanks.Blank) (same' : blanks = [] ↔ before = []) (solid : first.isBlank = false)
    (spelled : tokens = before ++ first :: others)
    (tight : last = some .parenOpen → tokens.head?.any Token.isBlank = false) (same : Css.RendersAs out shown)
    {written pending : Bool} (start : last = none → written = false ∧ pending = false) :
    renderFrom written pending (gap last tokens ++ out) = renderFrom written pending (blanks ++ shown) := by
  cases before with
  | nil =>
    cases same'.mpr rfl
    rw [spelled, nil_append, gap_of_solid solid, nil_append, nil_append, same written pending]
  | cons token before =>
    have head : tokens.head?.any Token.isBlank = true := by
      rw [spelled]
      exact blank token mem_cons_self
    have some_ : blanks ≠ [] := fun none_ => cons_ne_nil _ _ (same'.mp none_)
    cases last with
    | none =>
      -- In front of all that is written no gap is left, and blanks are not printed there either.
      obtain ⟨rfl, rfl⟩ := start rfl
      have gap_ : gap none tokens = [] := by simp [gap]
      rw [gap_, nil_append, same, renderFrom_gaps _ _ blank' some_]
    | some kind =>
      have other : kind ≠ .parenOpen := by
        rintro rfl
        rw [tight rfl] at head
        cases head
      have gap_ : gap (some kind) tokens = [Token.space] := by simp [gap, head, other]
      rw [gap_, renderFrom_gaps _ _ blank' some_, renderFrom_gaps _ _ (forall_mem_singleton.mpr rfl)
        (cons_ne_nil _ _), same]

/-- Inert tokens are evaluated to what is printed as their pieces. -/
theorem evaluateItems_of_inert {last : Option Kind} {tokens shown : Tokens} (inert : env.Inert grouped tokens)
    (done : env.pieces grouped tokens = .ok shown)
    (tight : last = some .parenOpen → tokens.head?.any Token.isBlank = false) :
    ∃ out, env.evaluateItems grouped last tokens = .ok out ∧
      ∀ written pending, (last = none → written = false ∧ pending = false) →
        renderFrom written pending out = renderFrom written pending shown := by
  -- Each turn leaves fewer tokens, and something is written before all of them.
  induction length : tokens.length using Nat.strongRecOn generalizing last tokens shown with
  | ind size ih =>
  obtain ⟨before, blank, spelled⟩ := tokens.exists_trimLeft
  obtain ⟨blanks, others', here, behind, rfl⟩ := exists_of_pieces_append (spelled ▸ done)
  obtain ⟨blank', same'⟩ := blank_of_pieces blank here
  cases start : tokens.trimLeft with
  | nil =>
    rw [start] at behind
    cases behind
    refine ⟨[], evaluateItems_of_nil start, fun written pending _ => ?_⟩
    rw [append_nil, renderFrom_of_blank blank']
    rfl
  | cons first others =>
    have solid := isBlank_of_trimLeft start
    rw [start] at behind spelled
    have inert' : env.Inert grouped (first :: others) := (spelled ▸ inert).of_blank blank
    obtain ⟨carried, kind, rest, shown', turn⟩ := turn_of_inert inert' solid behind
    have fewer : rest.length < size := by
      have := turn.shorter
      rw [← length, spelled, length_append, length_cons]
      omega
    obtain ⟨out, evaluated, renders⟩ := ih rest.length fewer turn.inert turn.pieces
      (fun opens => turn.tight (Option.some.inj opens)) rfl
    have same : Css.RendersAs (carried ++ out) others' :=
      turn.renders fun written pending => renders written pending fun none_ => nomatch none_
    refine ⟨gap last tokens ++ (carried ++ out), ?_, fun written pending begins => ?_⟩
    · rw [turn.evaluates start, evaluated]
      rfl
    · exact renderFrom_gap blank blank' same' solid spelled tight same begins

theorem render_of_inert {tokens shown : Tokens} (inert : env.Inert grouped tokens)
    (done : env.pieces grouped tokens = .ok shown) :
    ∃ out, env.evaluateItems grouped none tokens = .ok out ∧ render out = render shown := by
  obtain ⟨out, evaluated, same⟩ := evaluateItems_of_inert inert done
    fun opens : none = some Kind.parenOpen => nomatch opens
  exact ⟨out, evaluated, congrArg String.join (same false false fun _ => ⟨rfl, rfl⟩)⟩

end Environment

namespace Scope

/-- Inert tokens in which nothing is computed are written as the item-wise evaluation would write them. A
variable among them is written out, and the others are printed as without it. -/
theorem inert_values_print_alike (library : Library) (scope : Scope) {processor : Processor} {tokens shown : Tokens}
    (inert : Environment.Inert ⟨library, scope.definition? library processor.evaluating⟩ (processor.parens != 0) tokens)
    (nothing : tokens.computes library = false)
    (kept : Processing.Keeps ((scope.setting library).value tokens) processor (.ok shown)) :
    (∃ out, Processing.Keeps ((scope.setting library).items none tokens) processor (.ok out) ∧
      render out = render shown) ∧
    ∀ front reference back written, tokens = front ++ back → reference.kind = .atKeyword →
      Processing.Keeps ((scope.setting library).value [reference]) processor (.ok written) →
      Environment.Inert ⟨library, scope.definition? library processor.evaluating⟩ (processor.parens != 0)
        (front ++ reference :: back) →
      ∃ out before after, Processing.Keeps ((scope.setting library).value (front ++ reference :: back)) processor (.ok out) ∧
        shown = before ++ after ∧ before.length = front.length ∧
        render out = render (before ++ written ++ after) := by
  have handles := handles_setting library scope processor.evaluating
  have filled : tokens.mapM (Environment.interpolateToken ⟨library, scope.definition? library processor.evaluating⟩
      (processor.parens != 0)) = .ok shown := by
    have evaluated := (handles.value processor.parens tokens).unique kept
    rwa [Environment.evaluate, if_neg (by rw [nothing]; decide)] at evaluated
  have resolved := Environment.resolved_of_computes nothing
  rw [← Environment.pieces_of_resolved resolved] at filled
  refine ⟨?_, ?_⟩
  · obtain ⟨out, evaluated, same⟩ := Environment.render_of_inert inert filled
    have items := handles.items processor.parens none tokens
    rw [evaluated] at items
    exact ⟨out, items, same⟩
  · rintro front reference back written rfl kind value inert'
    obtain ⟨before, after, here, behind, rfl⟩ := Environment.exists_of_pieces_append filled
    have piece : Environment.piece ⟨library, scope.definition? library processor.evaluating⟩ (processor.parens != 0)
        reference = .ok written := by
      rw [Environment.piece, if_pos kind, ← Environment.evaluate_of_reference mem_cons_self kind]
      exact (handles.value processor.parens [reference]).unique value
    have all := Environment.pieces_append here (Environment.pieces_cons piece behind)
    obtain ⟨out, evaluated, same⟩ := Environment.render_of_inert inert' all
    have kept' := handles.value processor.parens (front ++ reference :: back)
    rw [Environment.evaluate_of_reference (mem_append_right front mem_cons_self) kind, evaluated] at kept'
    refine ⟨out, before, after, kept', rfl, ?_, ?_⟩
    · rw [Environment.pieces_of_resolved fun token member => resolved token (mem_append_left _ member)] at here
      exact returns_mapM_length front before here
    · rw [same, List.append_assoc]

def sized : Scope := [⟨[("@w", [.space, .synthetic .dimension "600px"])]⟩]

def query : Tokens :=
  [.synthetic .identifier "screen", .space, .synthetic .identifier "and", .space, .synthetic .parenOpen "(",
    .synthetic .identifier "min-width", .synthetic .colon ":", .space, .synthetic .dimension "30em",
    .synthetic .parenClose ")", .synthetic .other ",", .space]

def captions (label : String) : Tokens :=
  [.space, .synthetic .string label, .space, .synthetic .identifier "calc", .synthetic .parenOpen "(",
    .synthetic .dimension "1px", .synthetic .parenClose ")", .space, .synthetic .identifier "feature",
    .synthetic .parenOpen "(", .synthetic .number "2", .synthetic .parenClose ")"]

theorem unmarked_of_not_mem {text : String} (plain : '@' ∉ text.toList) : ¬Text.Marked text :=
  fun marked => plain marked.at_mem

theorem inert_query {env : Environment} {grouped : Bool} {rest : Tokens} (others : env.Inert grouped rest) :
    env.Inert grouped (query ++ rest) := by
  refine .of_unmarked rfl (unmarked_of_not_mem (by decide)) (by decide +kernel) rfl rfl (.blank rfl ?_)
  refine .of_unmarked rfl (unmarked_of_not_mem (by decide)) (by decide +kernel) rfl rfl (.blank rfl ?_)
  refine .group rfl (unmarked_of_not_mem (by decide)) rfl rfl rfl ?_ ?_
  · rintro token inner ⟨⟩ _
    exact ⟨unmarked_of_not_mem (by decide), rfl⟩
  refine .of_unmarked rfl (unmarked_of_not_mem (by decide)) (by decide +kernel) rfl rfl ?_
  refine .mark rfl (by decide) (unmarked_of_not_mem (by decide)) (.blank rfl ?_)
  refine .of_unmarked rfl (unmarked_of_not_mem (by decide)) (by decide +kernel) rfl rfl ?_
  refine .mark rfl (by decide) (unmarked_of_not_mem (by decide)) ?_
  exact .mark rfl (by decide) (unmarked_of_not_mem (by decide)) (.blank rfl others)

theorem inert_captions : Environment.Inert ⟨.builtin, sized.definition? .builtin []⟩ false (captions "'a@\x7bw\x7d'") := by
  refine .blank rfl (.literal rfl (fun unfilled => nomatch unfilled) ?_ rfl rfl (.blank rfl ?_))
  · have checked : (Environment.interpolateToken ⟨.builtin, sized.definition? .builtin []⟩ false
        (.synthetic .string "'a@\x7bw\x7d'")).toOption.all (fun filled => filled.value.css == filled.text) = true := by
      decide +kernel
    intro filled done
    rw [done] at checked
    exact beq_iff_eq.mp checked
  refine .deferred rfl (by decide +kernel) (by decide +kernel) rfl rfl ?_ (.blank rfl ?_)
  · intro token member
    have each : ([.synthetic .identifier "calc", .synthetic .parenOpen "(", .synthetic .dimension "1px",
        .synthetic .parenClose ")"] : Tokens).all (fun token => token.kind != .atKeyword && !token.text.toList.contains '@') =
          true := by
      decide +kernel
    have one := all_eq_true.mp each token member
    simp only [Bool.and_eq_true, bne_iff_ne, Bool.not_eq_true', contains_eq_mem, decide_eq_false_iff_not] at one
    exact ⟨one.1, unmarked_of_not_mem one.2⟩
  refine .call rfl (by decide +kernel) (by decide +kernel) rfl (unmarked_of_not_mem (by decide)) rfl ?_
  refine .of_unmarked rfl (unmarked_of_not_mem (by decide)) (by decide +kernel) rfl rfl ?_
  exact .mark rfl (by decide) (unmarked_of_not_mem (by decide)) .nil

theorem query_prints_alike : ∃ shown,
    Processing.Keeps ((sized.setting .builtin).value (query ++ captions "'a@\x7bw\x7d'")) .fresh (.ok shown) ∧
    (∃ out, Processing.Keeps ((sized.setting .builtin).items none (query ++ captions "'a@\x7bw\x7d'")) .fresh (.ok out) ∧
      render out = render shown) ∧
    ∃ out, Processing.Keeps ((sized.setting .builtin).value
        (query ++ .synthetic .atKeyword "@w" :: captions "'a@\x7bw\x7d'")) .fresh (.ok out) ∧
      render shown = "screen and (min-width: 30em), 'a600px' calc(1px) feature(2)" ∧
      render out = "screen and (min-width: 30em), 600px 'a600px' calc(1px) feature(2)" := by
  have kept : Processing.Keeps ((sized.setting .builtin).value (query ++ captions "'a@\x7bw\x7d'")) .fresh
      (.ok (query ++ captions "'a600px'")) :=
    keeps_value_of_run .builtin sized (by decide +kernel)
  have width : Processing.Keeps ((sized.setting .builtin).value [.synthetic .atKeyword "@w"]) .fresh
      (.ok [.synthetic .dimension "600px"]) :=
    keeps_value_of_run .builtin sized (by decide +kernel)
  have referring : Environment.Inert ⟨.builtin, sized.definition? .builtin []⟩ false
      (query ++ .synthetic .atKeyword "@w" :: captions "'a@\x7bw\x7d'") := by
    refine inert_query (.reference rfl ?_ rfl inert_captions)
    have checked : (Environment.evaluateItems ⟨.builtin, sized.definition? .builtin []⟩ false none
        [.synthetic .atKeyword "@w"]).toOption.all (fun out => out.getLast?.any (·.kind != .parenOpen)) = true := by
      decide +kernel
    intro out done
    rw [done] at checked
    exact checked
  obtain ⟨items, printed⟩ := inert_values_print_alike .builtin sized (inert_query inert_captions) (by decide +kernel) kept
  obtain ⟨out, before, after, kept', same, length, text⟩ :=
    printed query (.synthetic .atKeyword "@w") (captions "'a@\x7bw\x7d'") _ rfl rfl width referring
  obtain ⟨rfl, rfl⟩ := append_inj same length.symm
  exact ⟨_, kept, items, out, kept', by decide +kernel, text.trans (by decide +kernel)⟩

def feature : Tokens := [.synthetic .parenOpen "(", .synthetic .identifier "color", .synthetic .parenClose ")"]

/-- Evaluated item by item, a name loses the parentheses around it, so it is printed without them as soon
as a variable stands behind it. -/
theorem feature_loses_parentheses : feature.computes .builtin = false ∧
    Processing.Keeps ((sized.setting .builtin).value feature) .fresh (.ok feature) ∧
    Processing.Keeps ((sized.setting .builtin).items none feature) .fresh (.ok [.synthetic .identifier "color"]) ∧
    Processing.Keeps ((sized.setting .builtin).value (feature ++ [.space, .synthetic .atKeyword "@w"])) .fresh
      (.ok [.synthetic .identifier "color", .space, .synthetic .dimension "600px"]) := by
  refine ⟨by decide +kernel, keeps_value_of_run .builtin sized (by decide +kernel), ?_,
    keeps_value_of_run .builtin sized (by decide +kernel)⟩
  exact ((handles_setting .builtin sized []).items 0 none feature).of_run (by decide +kernel)

end Scope

end LessCss
