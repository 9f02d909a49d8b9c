import LessCss.Proofs.Evaluation.Flattening
import LessCss.Proofs.Yields
import LessCss.Proofs.Selector.Kept
import LessCss.Proofs.Sheet.Run

/-! Sheets of rulesets that lie side by side. Main statement: in such a sheet without
at-keywords, the heads and statements are stretches of the tokens that were read,
and a sign may stand in front of each statement. -/

set_option autoImplicit false

namespace LessCss

open List Lexeme

open Tokens

def Tokens.headsFree (outside : Bool) (depth : Nat) : Tokens → Bool
  | [] => true
  | token :: rest =>
    !(outside && token.kind == .colon && Selector.opensExtend rest) &&
      if token.kind = .braceClose then headsFree true 0 rest
      else if depth == 0 && token.kind == .braceOpen then headsFree false 0 rest
      else headsFree outside (token.kind.depthAfter depth) rest

theorem Tokens.headsFree_through {outside : Bool} {depth end_ : Nat} {tokens rest : Tokens}
    (goes : through depth tokens = some end_) (free : headsFree outside depth (tokens ++ rest) = true) :
    (outside = true → Selector.noExtend tokens = true) ∧ headsFree outside end_ rest = true := by
  induction tokens generalizing depth with
  | nil =>
    cases goes
    exact ⟨fun _ => rfl, free⟩
  | cons token tokens ih =>
    rw [through] at goes
    split at goes
    · cases goes
    · rename_i on
      simp only [Bool.or_eq_true, Bool.and_eq_true, decide_eq_true_eq, beq_iff_eq, not_or, not_and] at on
      rw [cons_append, headsFree, if_neg on.1, if_neg (by simp; grind), Bool.and_eq_true, Bool.not_eq_true'] at free
      obtain ⟨front, back⟩ := ih goes free.2
      refine ⟨fun out => ?_, back⟩
      rw [Selector.noExtend, front out, Bool.and_true, Bool.not_eq_true', Bool.eq_false_iff]
      intro both
      rw [Bool.and_eq_true] at both
      simp [out, both.1, Selector.opensExtend_front both.2] at free

namespace Sheet

def Flat (sheet : Sheet) : Prop :=
  (∀ ruleset ∈ sheet.rulesets, ruleset.nested = []) ∧ ∀ item ∈ sheet.items, item.isRuleset = true

theorem mem_modify {rulesets : Array Ruleset} {id : Nat} {change : Ruleset → Ruleset} {ruleset : Ruleset}
    (member : ruleset ∈ rulesets.modify id change) :
    ∃ before ∈ rulesets, ruleset = before ∨ ruleset = change before := by
  obtain ⟨i, bound, same⟩ := Array.mem_iff_getElem.mp member
  rw [Array.getElem_modify] at same
  rw [Array.size_modify] at bound
  refine ⟨rulesets[i], Array.getElem_mem bound, ?_⟩
  split at same
  · exact .inr same.symm
  · exact .inl same.symm

theorem mem_of_modify {rulesets : Array Ruleset} (id : Nat) (change : Ruleset → Ruleset) {ruleset : Ruleset}
    (member : ruleset ∈ rulesets) : ∃ after ∈ rulesets.modify id change, after = ruleset ∨ after = change ruleset := by
  obtain ⟨i, bound, rfl⟩ := Array.mem_iff_getElem.mp member
  have bound' : i < (rulesets.modify id change).size := by rwa [Array.size_modify]
  refine ⟨_, Array.getElem_mem bound', ?_⟩
  rw [Array.getElem_modify]
  split
  · exact .inr rfl
  · exact .inl rfl

theorem flat_of_addStatement {sheet : Sheet} {id : Nat} {statement : Tokens}
    (flat : (sheet.addStatement id statement).Flat) : sheet.Flat := by
  refine ⟨fun ruleset member => ?_, flat.2⟩
  obtain ⟨after, inside, same⟩ :=
    mem_of_modify id (fun r => { r with statements := r.statements ++ [statement] }) member
  have none_ : after.nested = [] := flat.1 after inside
  rcases same with rfl | rfl
  · exact none_
  · exact none_

theorem flat_of_addRoot {sheet : Sheet} {selector : Selector} {kind : RulesetKind}
    (flat : (sheet.addRoot selector kind).Flat) : sheet.Flat :=
  ⟨fun ruleset member => flat.1 ruleset (Array.mem_push.mpr (.inl member)),
    fun item member => flat.2 item (mem_append_left _ member)⟩

theorem not_flat_addNested {sheet : Sheet} (parent : sheet.Id) (selector : Selector) (kind : RulesetKind) :
    ¬(sheet.addNested parent selector kind).Flat := by
  intro flat
  have bound : parent.val < (sheet.addNested parent selector kind).rulesets.size := by
    rw [size_addNested]
    exact Nat.lt_succ_of_lt parent.isLt
  have none_ := flat.1 _ (Array.getElem_mem bound)
  simp [addNested, Array.getElem_modify, Ruleset.hold] at none_

theorem not_flat_addCall {sheet : Sheet} (statement : Tokens) :
    ¬(sheet.addItem (.call statement) fun _ => Item.noConfusion).Flat := by
  intro flat
  have isRuleset := flat.2 (.call statement) (mem_append_right _ (mem_singleton.mpr rfl))
  cases isRuleset

end Sheet

/-- A stretch of the tokens that were read, with something behind it, which a statement goes over. -/
structure Piece (all past piece : Tokens) : Prop where
  found : ∃ rest, rest ≠ [] ∧ all = past ++ piece ++ rest
  trimmed : trim piece = piece
  whole : through 0 piece = some 0

structure Ruleset.Stems (all : Tokens) (ruleset : Ruleset) : Prop where
  kind : ruleset.kind = .plain
  head : ∃ past head, Piece all past head ∧ Selector.noExtend head = true ∧ ruleset.selector = Selector.read head
  statements : ∀ statement ∈ ruleset.statements, ∃ past, Piece all past statement ∧
    allowsSign (lastSeen none past) = true

/-- The rulesets of a sheet stem from the tokens, and lie side by side in their order. -/
structure Sheet.Stems (all : Tokens) (sheet : Sheet) : Prop where
  items : sheet.items = (List.range sheet.rulesets.size).map .ruleset
  rulesets : ∀ ruleset ∈ sheet.rulesets, ruleset.Stems all

namespace Sheet.Stems

variable {all : Tokens} {sheet : Sheet}

theorem addRoot (stems : sheet.Stems all) {past head : Tokens} (piece : Piece all past head)
    (extends_ : Selector.noExtend head = true) : (sheet.addRoot (Selector.read head) .plain).Stems all where
  items := by
    rw [size_addRoot, range_succ, map_append, ← stems.items]
    rfl
  rulesets ruleset member := by
    rcases Array.mem_push.mp member with old | rfl
    · exact stems.rulesets ruleset old
    · exact ⟨rfl, ⟨past, head, piece, extends_, rfl⟩, nofun⟩

theorem addStatement (stems : sheet.Stems all) {past statement : Tokens} (piece : Piece all past statement)
    (sign : allowsSign (lastSeen none past) = true) (id : Nat) : (sheet.addStatement id statement).Stems all where
  items := by
    have size : (sheet.addStatement id statement).rulesets.size = sheet.rulesets.size := size_modify _ _ _ _
    rw [size, ← stems.items]
    rfl
  rulesets ruleset member := by
    have changed : ruleset ∈ sheet.rulesets.modify id fun r => { r with statements := r.statements ++ [statement] } :=
      member
    obtain ⟨before, inside, rfl | rfl⟩ := mem_modify changed
    · exact stems.rulesets _ inside
    · obtain ⟨kind, head, statements⟩ := stems.rulesets before inside
      refine ⟨kind, head, fun other member => ?_⟩
      rcases mem_append.mp member with old | new
      · exact statements other old
      · cases mem_singleton.mp new
        exact ⟨past, piece, sign⟩

end Sheet.Stems

/-! ### Runs -/

def Phase.seen : Phase → Tokens
  | .between => []
  | .within _ seen _ => seen

def Phase.Holds (held : Tokens) : Phase → Prop
  | .between => held = []
  | .within _ seen depth => held = seen.reverse ∧ through 0 held = some depth

namespace Draft

/-- The sheet stems from the tokens read so far, and a sign may stand in front of a statement. -/
structure Stands (all : Tokens) (draft : Draft) (phase : Phase) (rest : Tokens) : Prop where
  stems : draft.sheet.Stems all
  place : ∃ past held, all = past ++ held ++ rest ∧ phase.Holds held ∧
    headsFree draft.path.isEmpty 0 (held ++ rest) = true ∧
    (draft.path = [] ∨ draft.path.length = 1 ∧ allowsSign (lastSeen none past) = true)

variable {all seen rest : Tokens} {draft draft' : Draft} {first token : Token} {log log' : Log}

theorem allowsSign_blank {last : Option Token} {past before : Tokens} (blank : Blank before)
    (solid : ∀ token ∈ before, token.kind ≠ .comment) (sign : allowsSign (lastSeen last past) = true) :
    allowsSign (lastSeen last (past ++ before)) = true := by
  rcases eq_nil_or_concat before with rfl | ⟨before, token, rfl⟩
  · rwa [append_nil]
  · have white : token.kind = .whitespace := by
      have := blank token (by simp)
      simpa [Token.isBlank, Kind.isBlank, solid token (by simp)] using this
    rw [lastSeen, concat_eq_append, ← List.append_assoc, foldl_append]
    change allowsSign (Scan.lastSeen _ token) = true
    rw [Scan.lastSeen, if_neg (by rw [white]; decide), allowsSign, white]

theorem exists_piece {past held : Tokens} (same : all = past ++ held ++ rest) (some_ : rest ≠ [])
    (goes : through 0 held = some 0) : ∃ before, Blank before ∧ (∀ token ∈ before, token ∈ held) ∧
      Piece all (past ++ before) (trim held) := by
  obtain ⟨before, after, blank, blank', split⟩ := exists_trim held
  refine ⟨before, blank, fun token member => by rw [split]; simp [member], ⟨after ++ rest, by simp [some_], ?_⟩,
    trim_trim held, through_trim goes⟩
  rw [same]
  conv => lhs; rw [split]
  simp

/-- A statement that ends becomes part of the sheet, if the sheet stays flat. -/
theorem stems_of_endStatement (stands : draft.sheet.Flat → draft.Stands all (.within first seen 0) rest)
    (some_ : rest ≠ [] ∨ draft'.path = []) (plain : ∀ token ∈ seen, token.kind ≠ .atKeyword ∧ token.kind ≠ .comment)
    (ended : (draft.endStatement (statementOf seen)).run log = .ok draft' log') (flat : draft'.sheet.Flat) :
    draft.sheet.Flat ∧ draft'.path = draft.path ∧ draft'.sheet.Stems all := by
  have plain' (token : Token) (member : token ∈ statementOf seen) : token.kind ≠ .atKeyword :=
    (plain token (mem_reverse.mp (mem_of_mem_trim member))).1
  by_cases empty : statementOf seen = []
  · rw [empty] at ended
    cases ended
    exact ⟨flat, rfl, (stands flat).stems⟩
  · obtain ⟨sheet, path, inside⟩ := draft
    -- Outside of rulesets a statement is a call, and a flat sheet has none.
    cases path with
    | nil =>
      rw [endStatement_outside empty plain'] at ended
      split at ended
      · cases ended
        exact absurd flat (Sheet.not_flat_addCall _)
      · cases ended
    | cons id path =>
      rw [endStatement_inside empty plain'] at ended
      cases ended
      have flat' := Sheet.flat_of_addStatement flat
      obtain ⟨stems, past, held, same, ⟨rfl, goes⟩, _, sign⟩ := stands flat'
      obtain ⟨before, blank, member, piece⟩ := exists_piece same (some_.resolve_right (cons_ne_nil _ _)) goes
      have sign' := (sign.resolve_left (cons_ne_nil _ _)).2
      refine ⟨flat', rfl, stems.addStatement piece (allowsSign_blank blank (fun token inside => ?_) sign') id⟩
      exact (plain token (mem_reverse.mp (member token inside))).2

theorem lastSeen_concat {last : Option Token} (past : Tokens) (solid : token.kind ≠ .comment) :
    lastSeen last (past ++ [token]) = some token := by
  rw [lastSeen, foldl_append]
  exact if_neg solid

theorem noExtend_trim {tokens : Tokens} (extends_ : Selector.noExtend tokens = true) :
    Selector.noExtend (trim tokens) = true := by
  obtain ⟨before, after, _, _, same⟩ := exists_trim tokens
  rw [same, List.append_assoc] at extends_
  exact Selector.noExtend_front (Selector.noExtend_append before extends_)

/-- A block that is opened becomes part of the sheet, if the sheet stays flat. -/
theorem stands_of_openBlock (stands : draft.sheet.Flat → draft.Stands all (.within first seen 0) (token :: rest))
    (opens : token.kind = .braceOpen) (plain : ∀ token ∈ seen, token.kind ≠ .atKeyword)
    (opened : draft.openBlock first (statementOf seen) = .ok draft') (flat : draft'.sheet.Flat) :
    draft'.Stands all .between rest := by
  have plain' (token : Token) (member : token ∈ statementOf seen) : token.kind ≠ .atKeyword :=
    plain token (mem_reverse.mp (mem_of_mem_trim member))
  rw [openBlock_of_plain plain'] at opened
  split at opened
  · cases opened
  · cases opened
    obtain ⟨sheet, path, inside⟩ := draft
    cases path with
    | cons id path => exact absurd flat (Sheet.not_flat_addNested _ _ _)
    | nil =>
      obtain ⟨stems, past, held, same, ⟨rfl, goes⟩, free, _⟩ := stands (Sheet.flat_of_addRoot flat)
      obtain ⟨before, _, _, piece⟩ := exists_piece same (cons_ne_nil _ _) goes
      obtain ⟨extends_, free'⟩ := headsFree_through goes free
      rw [headsFree, if_neg (by simp [opens]), if_pos (by simp [opens]), Bool.and_eq_true] at free'
      refine ⟨stems.addRoot piece (noExtend_trim (extends_ rfl)), past ++ seen.reverse ++ [token], [], ?_, rfl, free'.2,
        .inr ⟨rfl, ?_⟩⟩
      · rw [same]
        simp
      · rw [lastSeen_concat _ (by rw [opens]; decide), allowsSign, opens]

theorem Stands.blank (stands : draft.Stands all .between (token :: rest)) (white : token.kind = .whitespace) :
    draft.Stands all .between rest := by
  obtain ⟨stems, past, held, same, rfl, free, sign⟩ := stands
  rw [nil_append, headsFree, if_neg (by simp [white]), if_neg (by simp [white]), Bool.and_eq_true, white] at free
  refine ⟨stems, past ++ [token], [], by simp [same], rfl, free.2, sign.imp_right fun short => ⟨short.1, ?_⟩⟩
  rw [lastSeen_concat _ (by rw [white]; decide), allowsSign, white]

theorem Stands.on {depth : Nat} (stands : draft.Stands all (.within first seen depth) (token :: rest))
    (on : through depth [token] = some (token.kind.depthAfter depth)) :
    draft.Stands all (.within first (token :: seen) (token.kind.depthAfter depth)) rest := by
  obtain ⟨stems, past, held, same, ⟨rfl, goes⟩, free, sign⟩ := stands
  refine ⟨stems, past, seen.reverse ++ [token], by simp [same], ⟨by simp, ?_⟩, by simpa using free, sign⟩
  rw [through_append, goes]
  exact on

theorem Stands.ended (stands : draft.Stands all (.within first seen 0) (token :: rest))
    (ends : token.kind = .delimiter) (stems : draft'.sheet.Stems all) (path : draft'.path = draft.path) :
    draft'.Stands all .between rest := by
  obtain ⟨_, past, held, same, ⟨rfl, goes⟩, free, sign⟩ := stands
  have free' := (headsFree_through goes free).2
  rw [headsFree, if_neg (by simp [ends]), if_neg (by simp [ends]), Bool.and_eq_true, ends, ← path] at free'
  refine ⟨stems, past ++ seen.reverse ++ [token], [], by simp [same], rfl, free'.2, ?_⟩
  rw [path]
  refine sign.imp_right fun short => ⟨short.1, ?_⟩
  rw [lastSeen_concat _ (by rw [ends]; decide), allowsSign, ends]

theorem sheet_close (draft : Draft) : draft.close.sheet = draft.sheet := by
  obtain ⟨sheet, path, inside⟩ := draft
  cases path <;> rfl

/-- Behind the closing brace of a ruleset no ruleset is open. -/
theorem Stands.close {past : Tokens} {outside : Bool} (stems : draft.sheet.Stems all)
    (short : draft.path = [] ∨ draft.path.length = 1) (same : all = past ++ token :: rest)
    (free : headsFree outside 0 (token :: rest) = true) (closes : token.kind = .braceClose) :
    draft.close.Stands all .between rest := by
  rw [headsFree, if_pos closes, Bool.and_eq_true] at free
  have none_ : draft.close.path = [] := by
    obtain ⟨sheet, path, inside⟩ := draft
    rcases path with _ | ⟨id, _ | ⟨other, path⟩⟩
    · rfl
    · rfl
    · simp at short
  refine ⟨by rw [sheet_close]; exact stems, past ++ [token], [], by simp [same], rfl, ?_, .inl none_⟩
  rw [none_]
  exact free.2

/-- A sheet that is flat in the end stems from the tokens, if it does so up to some place. -/
theorem stems_of_run {place : Position} {phase : Phase} {sheet : Sheet}
    (stands : draft.sheet.Flat → draft.Stands all phase rest)
    (plain : ∀ token ∈ rest, token.kind ≠ .atKeyword ∧ token.kind ≠ .comment)
    (plain' : ∀ token ∈ phase.seen, token.kind ≠ .atKeyword ∧ token.kind ≠ .comment)
    (done : (draft.run (.ok place) phase rest).run log = .ok sheet log') (flat : sheet.Flat) : sheet.Stems all := by
  have none_ (token : Token) (member : token ∈ Phase.between.seen) :
      token.kind ≠ .atKeyword ∧ token.kind ≠ .comment := nomatch member
  -- Flatness is known of the last sheet only, and goes back from there step by step.
  induction rest generalizing draft phase log with
  | nil =>
    rw [run_nil] at done
    cases phase with
    | between =>
      rw [finish_between] at done
      split at done
      · cases done
        exact (stands flat).stems
      · cases done
    | within first seen depth =>
      rw [finish_within] at done
      split at done
      · rename_i outside
        subst outside
        obtain ⟨draft', log'', ended, done⟩ := Logged.exists_of_bind done
        rw [finish_between] at done
        split at done
        · rename_i empty
          cases done
          exact (stems_of_endStatement stands (.inr (by simpa using empty)) plain' ended flat).2.2
        · cases done
      · cases done
  | cons token rest ih =>
    obtain ⟨⟨noKeyword, noComment⟩, others⟩ := forall_mem_cons.mp plain
    -- The steps inside a statement; one that starts with this token is already inside.
    have within {draft : Draft} {first : Token} {seen : Tokens} {depth : Nat} {log : Log}
        (stands : draft.sheet.Flat → draft.Stands all (.within first seen depth) (token :: rest))
        (plain' : ∀ token ∈ seen, token.kind ≠ .atKeyword ∧ token.kind ≠ .comment)
        (done : (draft.run (.ok place) (.within first seen depth) (token :: rest)).run log = .ok sheet log') :
        sheet.Stems all := by
      by_cases closes : token.kind = .braceClose
      · rw [run_leave closes] at done
        split at done
        · rename_i outside
          subst outside
          obtain ⟨draft', log'', ended, done⟩ := Logged.exists_of_bind done
          rw [run_close closes] at done
          split at done
          · cases done
          · refine ih (fun flat => ?_) others none_ done
            rw [sheet_close] at flat
            obtain ⟨flat', path, stems⟩ := stems_of_endStatement stands (.inl (cons_ne_nil _ _)) plain' ended flat
            obtain ⟨_, past, held, same, ⟨rfl, goes⟩, free, sign⟩ := stands flat'
            exact .close stems (by rw [path]; exact sign.imp_right And.left) same (headsFree_through goes free).2 closes
        · cases done
      · by_cases ends : depth = 0 ∧ token.kind = .delimiter
        · obtain ⟨rfl, ends⟩ := ends
          rw [run_delimiter ends] at done
          obtain ⟨draft', log'', ended, done⟩ := Logged.exists_of_bind done
          refine ih (fun flat => ?_) others none_ done
          obtain ⟨flat', path, stems⟩ := stems_of_endStatement stands (.inl (cons_ne_nil _ _)) plain' ended flat
          exact (stands flat').ended ends stems path
        · by_cases opens : depth = 0 ∧ token.kind = .braceOpen
          · obtain ⟨rfl, opens⟩ := opens
            rw [run_open opens] at done
            obtain ⟨draft', opened, done⟩ := Logged.exists_of_ofExcept done
            exact ih (stands_of_openBlock stands opens (fun token member => (plain' token member).1) opened) others
              none_ done
          · have on : through depth [token] = some (token.kind.depthAfter depth) := by
              rw [through, if_neg (by simp; grind)]
              rfl
            rw [run_on on noComment] at done
            exact ih (fun flat => (stands flat).on on) others
              (forall_mem_cons.mpr ⟨⟨noKeyword, noComment⟩, plain'⟩) done
    cases phase with
    | within first seen depth => exact within stands plain' done
    | between =>
      by_cases blank : token.isBlank = true
      · have white : token.kind = .whitespace := by
          simpa [Token.isBlank, Kind.isBlank, noComment] using blank
        rw [run_blank blank] at done
        exact ih (fun flat => (stands flat).blank white) others none_ done
      · by_cases closes : token.kind = .braceClose
        · rw [run_close closes] at done
          split at done
          · cases done
          · refine ih (fun flat => ?_) others none_ done
            rw [sheet_close] at flat
            obtain ⟨stems, past, held, same, rfl, free, sign⟩ := stands flat
            exact .close stems (sign.imp_right And.left) same free closes
        · rw [run_start (by simpa using blank) closes] at done
          refine within (fun flat => ?_) none_ done
          obtain ⟨stems, past, held, same, rfl, free, sign⟩ := stands flat
          exact ⟨stems, past, [], same, ⟨rfl, rfl⟩, free, sign⟩

theorem exists_ending {ending : Except Error Position} {phase : Phase} {sheet : Sheet}
    (done : (draft.run ending phase rest).run log = .ok sheet log') : ∃ place, ending = .ok place := by
  induction rest generalizing draft phase log with
  | nil =>
    rw [run] at done
    obtain ⟨place, found, _⟩ := Logged.exists_of_ofExcept done
    exact ⟨place, found⟩
  | cons token rest ih =>
    rw [run] at done
    obtain ⟨⟨draft', phase'⟩, log'', _, done⟩ := Logged.exists_of_bind done
    exact ih done

end Draft

namespace Sheet

variable {source text : String} {sheet : Sheet} (read : (Sheet.read source text).outcome.1 = .ok sheet)

include read

theorem exists_ending_of_read : ∃ place, (Scan.ofText source text).ending = .ok place := by
  obtain ⟨log, done⟩ := Logged.exists_of_outcome read
  exact Draft.exists_ending done

/-- A flat sheet without at-keywords stems from the tokens of its text. -/
theorem stems_of_read
    (plain : ∀ token ∈ (Scan.ofText source text).tokens, token.kind ≠ .atKeyword ∧ token.kind ≠ .comment)
    (free : headsFree true 0 (Scan.ofText source text).tokens = true) (flat : sheet.Flat) :
    sheet.Stems (Scan.ofText source text).tokens := by
  obtain ⟨place, ending⟩ := exists_ending_of_read read
  obtain ⟨log, done⟩ := Logged.exists_of_outcome read
  rw [Sheet.read, ofScan, ending] at done
  have none_ (token : Token) (member : token ∈ Phase.between.seen) :
      token.kind ≠ .atKeyword ∧ token.kind ≠ .comment := nomatch member
  refine Draft.stems_of_run (fun _ => ?_) plain none_ done flat
  exact ⟨⟨rfl, fun _ member => absurd member (Array.not_mem_empty _)⟩, [], [], rfl, rfl, free, .inl rfl⟩

end Sheet

end LessCss
