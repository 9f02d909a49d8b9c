import LessCss.Proofs.Css.Layout

/-! Reading what is printed. Main statement: the tokens of a layout are read as a sheet
whose rulesets follow its blocks one by one. -/

set_option autoImplicit false

namespace LessCss

open List

open Tokens

namespace Tokens

variable {tokens others : Tokens}

theorem kind_of_canonical {token other : Token} (same : token.canonical = other.canonical) : token.kind = other.kind :=
  show token.canonical.kind = other.canonical.kind from congrArg Token.kind same

theorem kinds_of_canonical (same : tokens.canonical = others.canonical)
    (each : ∀ token ∈ others, token.kind ≠ .comment ∧ token.kind ≠ .atKeyword) :
    ∀ token ∈ tokens, token.kind ≠ .comment ∧ token.kind ≠ .atKeyword := by
  intro token member
  have inside : token.canonical ∈ others.canonical := same ▸ mem_map_of_mem member
  obtain ⟨other, found, alike⟩ := mem_map.mp inside
  exact kind_of_canonical alike ▸ each other found

theorem head_of_canonical (same : tokens.canonical = others.canonical) {other : Token} (found : others.head? = some other) :
    ∃ token, tokens.head? = some token ∧ token.isBlank = other.isBlank := by
  obtain ⟨rest, rfl⟩ := List.head?_eq_some_iff.mp found
  obtain ⟨token, _, rfl, alike, _⟩ := map_eq_cons_iff.mp same
  exact ⟨token, rfl, congrArg Kind.isBlank (kind_of_canonical alike)⟩

theorem trim_concat_blank {token : Token} (blank : token.isBlank = true) (tokens : Tokens) :
    trim (tokens ++ [token]) = trim tokens := by
  have right (tokens : Tokens) : trimRight (tokens ++ [token]) = trimRight tokens := by
    rw [trimRight, trimRight, reverse_append, reverse_singleton, singleton_append,
      dropWhile_cons_of_pos blank]
  rw [trim, trim, trimLeft, trimLeft, dropWhile_append]
  split
  · rename_i empty
    rw [List.isEmpty_iff.mp empty, dropWhile_cons_of_pos blank]
    rfl
  · exact right _

theorem trim_ne_nil {token : Token} (found : tokens.head? = some token) (solid : token.isBlank = false) :
    trim tokens ≠ [] := by
  intro empty
  rw [blank_of_trim empty token (mem_of_head? found)] at solid
  cases solid

end Tokens

namespace Draft

structure Has (draft : Draft) (done : List Ruleset) (current : Option Ruleset) : Prop where
  rulesets : draft.sheet.rulesets.toList = done ++ current.toList
  items : draft.sheet.items = (List.range draft.sheet.rulesets.size).map .ruleset
  path : draft.path = (current.map fun _ => done.length).toList

variable {draft : Draft} {done : List Ruleset} {ruleset : Ruleset} {place : Position}

theorem Has.enter (has : draft.Has done none) (selector : Selector) :
    (draft.enter selector .plain).Has done (some (Sheet.newRuleset selector .plain none)) := by
  obtain ⟨sheet, path, inside⟩ := draft
  obtain ⟨rulesets, items, path'⟩ := has
  obtain rfl : path = [] := path'
  have size : sheet.rulesets.size = done.length := by
    simpa using congrArg List.length rulesets
  refine ⟨?_, ?_, congrArg (fun size => [size]) size⟩
  · change (sheet.rulesets.push _).toList = _
    rw [Array.toList_push, rulesets, Option.toList_none, append_nil]
    rfl
  · change sheet.items ++ [.ruleset sheet.rulesets.size] = (List.range (sheet.rulesets.push _).size).map _
    rw [Array.size_push, range_succ, map_append, items]
    rfl

theorem modify_last (done : List Ruleset) (ruleset : Ruleset) (change : Ruleset → Ruleset) :
    (done ++ [ruleset]).modify done.length change = done ++ [change ruleset] := by
  induction done with
  | nil => rfl
  | cons first rest ih => simp [ih]

theorem Has.endStatement (has : draft.Has done (some ruleset)) {statement : Tokens} (some_ : statement ≠ [])
    (plain : ∀ token ∈ statement, token.kind ≠ .atKeyword) : ∃ draft', draft.endStatement statement = pure draft' ∧
      draft'.Has done (some { ruleset with statements := ruleset.statements ++ [statement] }) := by
  obtain ⟨sheet, path, inside⟩ := draft
  obtain ⟨rulesets, items, path'⟩ := has
  obtain rfl : path = [done.length] := path'
  refine ⟨_, endStatement_inside some_ plain, ?_, ?_, rfl⟩
  · change (sheet.rulesets.modify _ _).toList = _
    rw [Array.toList_modify, rulesets]
    exact modify_last done ruleset _
  · change sheet.items = (List.range (sheet.rulesets.modify _ _).size).map _
    rw [Array.size_modify]
    exact items

theorem Has.close (has : draft.Has done (some ruleset)) :
    draft.path.isEmpty = false ∧ draft.close.Has (done ++ [ruleset]) none := by
  obtain ⟨sheet, path, inside⟩ := draft
  obtain ⟨rulesets, items, path'⟩ := has
  obtain rfl : path = [done.length] := path'
  refine ⟨rfl, ?_, items, rfl⟩
  rw [Option.toList_none, append_nil]
  exact rulesets

theorem run_between {own rest : Tokens} {first : Token} (head : own.head? = some first) (solid : first.isBlank = false)
    (goes : through 0 own = some 0) (noComment : ∀ token ∈ own, token.kind ≠ .comment) :
    draft.run (.ok place) .between (own ++ rest) = draft.run (.ok place) (.within first own.reverse 0) rest := by
  obtain ⟨others, rfl⟩ := List.head?_eq_some_iff.mp head
  have other : first.kind ≠ .braceClose := by
    intro closes
    rw [through, if_pos (by simp [closes])] at goes
    cases goes
  rw [cons_append, run_start solid other, ← cons_append, run_through goes noComment, append_nil]

end Draft

def Token.Clean (token : Token) : Prop := token.Proper ∧ '@' ∉ token.text.toList

namespace Css

variable {library : Library}

/-! ### Lines -/

theorem Sturdy.kinds {tokens : Tokens} (sturdy : Sturdy tokens) :
    ∀ token ∈ tokens, token.kind ≠ .comment ∧ token.kind ≠ .atKeyword := fun token member =>
  ⟨(sturdy.plain token member).1, (sturdy.reads [] rfl).not_atKeyword member (sturdy.plain token member).2⟩

theorem Line.mem_tail {line : Line} {token : Token} (member : token ∈ line.tail) :
    token ∈ line.value ∨ token.kind = .whitespace ∨ token ∈ importantMark := by
  have space (blanks : String) : (gap blanks).kind = .whitespace := rfl
  unfold Line.tail at member
  split at member
  · split at member
    · rcases mem_cons.mp member with rfl | mark
      · exact .inr (.inl rfl)
      · exact .inr (.inr mark)
    · cases mem_singleton.mp member
      exact .inr (.inl rfl)
  · split at member
    · simp only [cons_append, mem_cons, mem_append] at member
      rcases member with rfl | inside | rfl | mark
      · exact .inr (.inl rfl)
      · exact .inl inside
      · exact .inr (.inl rfl)
      · exact .inr (.inr mark)
    · simp only [append_nil, mem_cons] at member
      rcases member with rfl | inside
      · exact .inr (.inl rfl)
      · exact .inl inside

theorem Line.Fair.kinds {line : Line} (fair : line.Fair library) :
    ∀ token ∈ line.tokens, token.kind ≠ .comment ∧ token.kind ≠ .atKeyword := by
  have mark : ∀ token ∈ importantMark, token.kind ≠ .comment ∧ token.kind ≠ .atKeyword := by decide
  intro token member
  rcases mem_append.mp member with own | tail
  · obtain ⟨solid, plain⟩ := fair.plain token own
    exact ⟨(kind_of_not_blank solid).2, (fair.property []).not_atKeyword own plain⟩
  · rcases mem_cons.mp tail with rfl | tail
    · exact ⟨nofun, nofun⟩
    · rcases Line.mem_tail tail with inside | white | inside
      · exact fair.value.kinds token inside
      · rw [white]
        exact ⟨nofun, nofun⟩
      · exact mark token inside

theorem through_gap (depth : Nat) (blanks : String) (tokens : Tokens) :
    through depth (gap blanks :: tokens) = through depth tokens := by
  rw [through, if_neg (by simp [gap, Token.synthetic])]
  rfl

theorem Line.Fair.whole_tokens {line : Line} (fair : line.Fair library) : through 0 line.tokens = some 0 := by
  have tail : through 0 line.tail = some 0 := by
    unfold Line.tail
    split
    · split <;> rfl
    · rw [cons_append, through_gap, through_append, fair.value.whole]
      split <;> rfl
  rw [Line.tokens, through_append, fair.whole]
  exact tail

theorem Line.Fair.head_tokens {line : Line} (fair : line.Fair library) :
    ∃ token, line.tokens.head? = some token ∧ token.isBlank = false := by
  obtain ⟨token, rest, same⟩ := exists_cons_of_ne_nil fair.filled
  refine ⟨token, by rw [Line.tokens, same]; rfl, (fair.plain token ?_).1⟩
  rw [same]
  exact mem_cons_self

end Css

namespace Draft

open Css

variable {draft : Draft} {done : List Ruleset} {ruleset : Ruleset} {library : Library} {tokens : Tokens}

/-- Lines become the statements of the ruleset that is open. -/
theorem run_lines {lines : List Line} (fair : ∀ line ∈ lines, line.Fair library)
    (same : tokens.canonical = (linesTokens lines).canonical) (clean : ∀ token ∈ tokens, token.Clean)
    (has : draft.Has done (some ruleset)) (place : Position) (rest : Tokens) : ∃ (draft' : Draft) (statements : List Tokens),
      draft.run (.ok place) .between (tokens ++ rest) = draft'.run (.ok place) .between rest ∧
      draft'.Has done (some { ruleset with statements := ruleset.statements ++ statements }) ∧
      statements.map canonical = lines.map (fun line => (trim line.tokens).canonical) ∧
      ∀ statement ∈ statements, ∀ token ∈ statement, token.Clean := by
  induction lines generalizing tokens draft ruleset with
  | nil =>
    obtain rfl := map_eq_nil_iff.mp same
    exact ⟨draft, [], rfl, by rw [append_nil]; exact has, rfl, nofun⟩
  | cons line lines ih =>
    obtain ⟨first, others⟩ := forall_mem_cons.mp fair
    have split : linesTokens (line :: lines) = gap "\n  " :: (line.tokens ++ markOf ';' :: linesTokens lines) := by
      simp [linesTokens]
    rw [split] at same
    -- The tokens are cut where those of the line are: at its gap, its own tokens and its semicolon.
    obtain ⟨blank, behind, rfl, blankSame, same⟩ := map_eq_cons_iff.mp same
    obtain ⟨own, behind, rfl, ownSame, same⟩ := map_eq_append_iff.mp (same.trans map_append)
    obtain ⟨semicolon, behind, rfl, semicolonSame, same⟩ := map_eq_cons_iff.mp same
    have cleanOwn (token : Token) (member : token ∈ own) : token.Clean := clean token (by simp [member])
    have white : blank.isBlank = true := congrArg Kind.isBlank (kind_of_canonical blankSame)
    have goes : through 0 own = some 0 := by
      rw [← through_canonical, show canonical own = canonical line.tokens from ownSame, through_canonical]
      exact first.whole_tokens
    have kinds := kinds_of_canonical ownSame first.kinds
    obtain ⟨_, found, solid'⟩ := first.head_tokens
    obtain ⟨token, head, solid⟩ := head_of_canonical ownSame found
    rw [solid'] at solid
    obtain ⟨draft₁, ended, has₁⟩ := has.endStatement (trim_ne_nil head solid) fun token member =>
      (kinds token (mem_of_mem_trim member)).2
    obtain ⟨draft₂, statements, run₂, has₂, looks, clean₂⟩ :=
      ih others same (fun token member => clean token (by simp [member])) has₁
    refine ⟨draft₂, trim own :: statements, ?_, ?_, ?_, ?_⟩
    · rw [cons_append, List.append_assoc, run_blank white,
        run_between head solid goes fun token member => (kinds token member).1, cons_append,
        run_delimiter (kind_of_canonical semicolonSame), statementOf, reverse_reverse, ended, pure_bind]
      exact run₂
    · rw [List.append_assoc] at has₂
      exact has₂
    · rw [map_cons, map_cons, looks, canonical_trim, show canonical own = canonical line.tokens from ownSame,
        ← canonical_trim]
    · exact forall_mem_cons.mpr ⟨fun token member => cleanOwn token (mem_of_mem_trim member), clean₂⟩

end Draft

/-! ### Heads -/

namespace Selector

theorem mem_takeGroup {tokens : Tokens} {token : Token}
    (member : token ∈ (takeGroup tokens).1 ∨ token ∈ (takeGroup tokens).2) : token ∈ tokens := by
  unfold takeGroup at member
  cases found : takeGroup? 0 tokens with
  | none => simpa [found] using member
  | some group =>
    obtain ⟨close, _, same⟩ := exists_of_takeGroup? (show takeGroup? 0 tokens = some (group.1, group.2) from found)
    rw [found, Option.getD_some] at member
    rw [same]
    rcases member with inside | inside <;> simp [inside]

theorem mem_readFrom {seen input : Tokens} {selector : Selector} {token : Token}
    (member : token ∈ (readFrom seen selector input).tokens) :
    token ∈ seen ∨ token ∈ input ∨ token.kind = .parenClose ∧ token.text = ")" := by
  fun_induction readFrom seen selector input with
  | case1 => exact .inl (mem_reverse.mp (mem_of_mem_trim member))
  | case2 seen selector first rest _ group ih =>
    refine (ih member).imp_right (Or.imp_left fun inside => ?_)
    exact mem_cons_of_mem _ (mem_of_mem_drop (mem_takeGroup (.inr inside)))
  | case3 seen selector first rest _ _ group list _ ih =>
    refine (ih member).imp_right (Or.imp_left fun inside => ?_)
    exact mem_cons_of_mem _ (mem_takeGroup (.inr inside))
  | case4 seen selector first rest _ _ group _ close ih =>
    -- A group that is no list of parameters gets a closing parenthesis of its own.
    rcases ih member with inside | inside | inside
    · simp only [cons_append, mem_cons, mem_append, mem_reverse] at inside
      rcases inside with rfl | inside | rfl | inside
      · exact .inr (.inr ⟨rfl, rfl⟩)
      · exact .inr (.inl (mem_cons_of_mem _ (mem_takeGroup (.inl inside))))
      · exact .inr (.inl mem_cons_self)
      · exact .inl inside
    · exact .inr (.inl (mem_cons_of_mem _ (mem_takeGroup (.inr inside))))
    · exact .inr (.inr inside)
  | case5 => exact .inl (mem_reverse.mp (mem_of_mem_trim member))
  | case6 seen selector first rest _ _ _ ih =>
    rcases ih member with inside | inside | inside
    · rcases mem_cons.mp inside with rfl | inside
      · exact .inr (.inl mem_cons_self)
      · exact .inl inside
    · exact .inr (.inl (mem_cons_of_mem _ inside))
    · exact .inr (.inr inside)

end Selector

namespace Css

variable {list : List Tokens}

theorem through_joinBranches (each : ∀ branch ∈ list, through 0 branch = some 0) :
    through 0 (joinBranches list) = some 0 := by
  induction list with
  | nil => rfl
  | cons first rest ih =>
    obtain ⟨one, others⟩ := forall_mem_cons.mp each
    cases rest with
    | nil => rwa [joinBranches_singleton]
    | cons second rest =>
      rw [joinBranches_cons_cons, through_append, one]
      exact ih others

theorem getLast_joinBranches {token : Token} (filled : ∀ branch ∈ list, branch ≠ [])
    (found : (joinBranches list).getLast? = some token) : ∃ branch ∈ list, branch.getLast? = some token := by
  induction list with
  | nil => cases found
  | cons first rest ih =>
    obtain ⟨_, others⟩ := forall_mem_cons.mp filled
    cases rest with
    | nil =>
      rw [joinBranches_singleton] at found
      exact ⟨first, mem_cons_self, found⟩
    | cons second rest =>
      have some_ : joinBranches (second :: rest) ≠ [] := by
        obtain ⟨behind, joined⟩ := exists_joinBranches second rest
        rw [joined]
        simp [(forall_mem_cons.mp others).1]
      have behind : (joinBranches (second :: rest)).getLast? = some token := by
        obtain ⟨token', others', same⟩ := exists_cons_of_ne_nil some_
        rw [joinBranches_cons_cons, same] at found
        rw [same]
        simpa using found
      obtain ⟨branch, member, last⟩ := ih others behind
      exact ⟨branch, mem_cons_of_mem _ member, last⟩

section

variable (each : ∀ branch ∈ list, FairBranch branch)

include each

theorem trim_joinBranches : trim (joinBranches list) = joinBranches list := by
  refine trim_eq_self (fun token found => ?_) fun token found => ?_
  · cases list with
    | nil => cases found
    | cons first rest =>
      have one := each first mem_cons_self
      obtain ⟨others, joined⟩ := exists_joinBranches first rest
      obtain ⟨token', rest', same⟩ := exists_cons_of_ne_nil one.part.ne_nil
      rw [joined, same] at found
      exact head_of_trim one.trimmed (by rw [same]; exact found)
  · obtain ⟨branch, member, last⟩ := getLast_joinBranches (fun branch member => (each branch member).part.ne_nil) found
    exact getLast_of_trim (each branch member).trimmed last

theorem kinds_joinBranches : ∀ token ∈ joinBranches list, token.kind ≠ .comment ∧ token.kind ≠ .atKeyword := by
  intro token member
  rcases mem_joinBranches member with rfl | rfl | ⟨branch, found, inside⟩
  · exact ⟨nofun, nofun⟩
  · exact ⟨nofun, nofun⟩
  · exact (each branch found).kinds token inside

theorem proper_joinBranches : Proper (joinBranches list) := by
  intro token member
  rcases mem_joinBranches member with rfl | rfl | ⟨branch, found, inside⟩
  · exact nofun
  · exact fun _ => rfl
  · exact ((each branch found).reads [] rfl).proper token inside

theorem parens_joinBranches : ∀ token ∈ joinBranches list, token.kind = .parenClose → token.text = ")" := by
  intro token member closes
  rcases mem_joinBranches member with rfl | rfl | ⟨branch, found, inside⟩
  · cases closes
  · cases closes
  · have mark : token.kind = Lexeme.markKind ')' := closes
    exact ((each branch found).reads [] rfl).text_of_mark inside mark (.inr rfl)

/-- The head of a block is a selector and nothing else. -/
theorem read_joinBranches {head : Tokens}
    (same : head.canonical = (joinBranches list).canonical) (clean : ∀ token ∈ head, token.Clean) :
    ∃ tokens : Tokens, Selector.read head = { Selector.empty with tokens := tokens } ∧
      tokens.canonical = (joinBranches list).canonical ∧ ∀ token ∈ tokens, token.Clean := by
  have proper := proper_joinBranches each
  have proper' : Proper head := fun token member => (clean token member).1
  have kept : Selector.Kept false false head :=
    (Selector.kept_joinBranches fun branch member => (each branch member).kept).of_canonical same proper proper'
      fun token member => (kinds_joinBranches each token member).2
  have parens : ∀ token ∈ head, token.kind = .parenClose → token.text = ")" := by
    intro token member closes
    have inside : token.canonical ∈ (joinBranches list).canonical := same ▸ mem_map_of_mem member
    obtain ⟨other, found, alike⟩ := mem_map.mp inside
    have kind : other.kind = .parenClose := (kind_of_canonical alike).trans closes
    have text := congrArg Token.text alike
    rw [Token.text_canonical (by rw [kind]; decide), Token.text_canonical (by rw [closes]; decide)] at text
    rw [← text]
    exact parens_joinBranches each other found kind
  have extends_ : Selector.noExtend head = true := by
    rw [← Selector.noExtend_canonical proper', same, Selector.noExtend_canonical proper]
    exact Selector.noExtend_joinBranches fun branch member => (each branch member).extends_
  have guards : Selector.noGuard head = true := by
    rw [← Selector.noGuard_canonical, same, Selector.noGuard_canonical]
    refine all_eq_true.mpr fun token member => ?_
    rcases mem_joinBranches member with rfl | rfl | ⟨branch, found, inside⟩
    · rfl
    · rfl
    · exact all_eq_true.mp (each branch found).guards token inside
  -- Nothing in the head is a guard, an extension or a list of parameters, so it is kept as it is.
  obtain ⟨own, ownSame, read⟩ := Selector.readFrom_of_kept kept parens extends_ guards
    (show Selector.empty.parameters = none from rfl) (show Selector.endsInName [] = false from rfl) rfl
  refine ⟨trim own, read, ?_, fun token member => ?_⟩
  · rw [canonical_trim, ownSame, same, ← canonical_trim, trim_joinBranches each]
  · have inside : token ∈ (Selector.readFrom [] .empty head).tokens := by
      rw [read]
      exact member
    rcases Selector.mem_readFrom inside with none_ | inside | ⟨kind, text⟩
    · cases none_
    · exact clean token inside
    · refine ⟨fun white => ?_, by rw [text]; decide⟩
      rw [kind] at white
      cases white

end

end Css

structure Ruleset.Follows (ruleset : Ruleset) (block : Css.Block) : Prop where
  kind : ruleset.kind = .plain
  nested : ruleset.nested = []
  head : ruleset.selector = { Selector.empty with tokens := ruleset.selector.tokens }
  selector : ruleset.selector.tokens.canonical = (joinBranches block.branches).canonical
  statements : ruleset.statements.map canonical = block.lines.map fun line => (trim line.tokens).canonical
  clean : (∀ token ∈ ruleset.selector.tokens, token.Clean) ∧
    ∀ statement ∈ ruleset.statements, ∀ token ∈ statement, token.Clean

namespace Draft

open Css

variable {draft : Draft} {done : List Ruleset} {library : Library} {tokens : Tokens}

/-- A block becomes a ruleset. -/
theorem run_block {block : Block} (fair : block.Fair library) (same : tokens.canonical = block.tokens.canonical)
    (clean : ∀ token ∈ tokens, token.Clean) (has : draft.Has done none) (place : Position) (rest : Tokens) :
    ∃ (draft' : Draft) (ruleset : Ruleset),
      draft.run (.ok place) .between (tokens ++ rest) = draft'.run (.ok place) .between rest ∧
      draft'.Has (done ++ [ruleset]) none ∧ ruleset.Follows block := by
  have split : block.tokens = (joinBranches block.branches ++ [gap " "]) ++
      markOf '\x7b' :: (linesTokens block.lines ++ [gap "\n", markOf '\x7d']) := by
    simp [Block.tokens]
  rw [split] at same
  -- Head, opening brace, lines, a blank and the closing brace, as in the tokens of the block.
  obtain ⟨own, behind, rfl, ownSame, same⟩ := map_eq_append_iff.mp (same.trans map_append)
  obtain ⟨opening, behind, rfl, openingSame, same⟩ := map_eq_cons_iff.mp same
  obtain ⟨lines, behind, rfl, linesSame, same⟩ := map_eq_append_iff.mp (same.trans map_append)
  obtain ⟨blank, behind, rfl, blankSame, same⟩ := map_eq_cons_iff.mp same
  obtain ⟨closing, behind, rfl, closingSame, same⟩ := map_eq_cons_iff.mp same
  obtain rfl := map_eq_nil_iff.mp same
  have ownSame : canonical own = canonical (joinBranches block.branches ++ [gap " "]) := ownSame
  have cleanOwn (token : Token) (member : token ∈ trim own) : token.Clean :=
    clean token (by simp [mem_of_mem_trim member])
  have goes : through 0 own = some 0 := by
    rw [← through_canonical, ownSame, through_canonical, through_append,
      through_joinBranches fun branch member => (fair.branch branch member).whole]
    rfl
  have kinds : ∀ token ∈ own, token.kind ≠ .comment ∧ token.kind ≠ .atKeyword := by
    refine kinds_of_canonical ownSame fun token member => ?_
    rcases mem_append.mp member with inside | inside
    · exact kinds_joinBranches fair.branch token inside
    · cases mem_singleton.mp inside
      decide
  -- The first branch begins with no blank, so a statement begins with it.
  obtain ⟨first, found, solid⟩ : ∃ first, own.head? = some first ∧ first.isBlank = false := by
    obtain ⟨branch, branches, filled⟩ := exists_cons_of_ne_nil fair.filled
    obtain ⟨others, joined⟩ := exists_joinBranches branch branches
    have one := fair.branch branch (by rw [filled]; exact mem_cons_self)
    obtain ⟨token, rest, same⟩ := exists_cons_of_ne_nil one.part.ne_nil
    obtain ⟨first, found, alike⟩ := head_of_canonical ownSame (show _ = some token by rw [filled, joined, same]; rfl)
    exact ⟨first, found, alike.trans (head_of_trim one.trimmed (by rw [same]; rfl))⟩
  have headSame : canonical (trim own) = canonical (joinBranches block.branches) := by
    rw [canonical_trim, ownSame, ← canonical_trim, trim_concat_blank rfl, trim_joinBranches fair.branch]
  obtain ⟨selector, read, selectorSame, selectorClean⟩ := read_joinBranches fair.branch headSame cleanOwn
  have opened : draft.openBlock first (trim own) = .ok (draft.enter { Selector.empty with tokens := selector } .plain) := by
    rw [openBlock_of_plain fun token member => (kinds token (mem_of_mem_trim member)).2,
      if_neg (by simpa using trim_ne_nil found solid), read]
  obtain ⟨draft₁, statements, run₁, has₁, looks, statementsClean⟩ := run_lines fair.line linesSame
    (fun token member => clean token (by simp [member])) (has.enter { Selector.empty with tokens := selector }) place
    (blank :: closing :: rest)
  obtain ⟨inside, has₂⟩ := has₁.close
  refine ⟨_, _, ?_, has₂, rfl, rfl, rfl, selectorSame, looks, selectorClean, statementsClean⟩
  rw [List.append_assoc, run_between found solid goes fun token member => (kinds token member).1, cons_append,
    run_open (kind_of_canonical openingSame), statementOf, reverse_reverse, opened]
  change (draft.enter _ _).run _ _ _ = _
  rw [List.append_assoc]
  refine run₁.trans ?_
  rw [run_blank (congrArg Kind.isBlank (kind_of_canonical blankSame)), run_close (kind_of_canonical closingSame), inside]
  rfl

/-- Blocks become a sheet. -/
theorem run_layout {blocks : List Block} (fair : ∀ block ∈ blocks, block.Fair library)
    (same : tokens.canonical = (layout blocks).canonical) (clean : ∀ token ∈ tokens, token.Clean)
    (has : draft.Has done none) (place : Position) : ∃ (sheet : Sheet) (pairs : List (Ruleset × Block)),
      draft.run (.ok place) .between tokens = pure sheet ∧ pairs.map Prod.snd = blocks ∧
      sheet.rulesets.toList = done ++ pairs.map Prod.fst ∧
      sheet.items = (List.range sheet.rulesets.size).map .ruleset ∧ ∀ pair ∈ pairs, pair.1.Follows pair.2 := by
  have ends {draft : Draft} {done : List Ruleset} (has : draft.Has done none) :
      draft.run (.ok place) .between [] = pure draft.sheet ∧ draft.sheet.rulesets.toList = done := by
    refine ⟨?_, by simpa using has.rulesets⟩
    rw [run_nil, finish_between, has.path]
    rfl
  induction blocks generalizing tokens draft done with
  | nil =>
    obtain rfl := map_eq_nil_iff.mp same
    obtain ⟨finished, rulesets⟩ := ends has
    exact ⟨draft.sheet, [], finished, rfl, by simp [rulesets], has.items, nofun⟩
  | cons first rest ih =>
    obtain ⟨one, others⟩ := forall_mem_cons.mp fair
    cases rest with
    | nil =>
      rw [layout_singleton] at same
      obtain ⟨draft', ruleset, run', has', follows⟩ := run_block one same clean has place []
      obtain ⟨finished, rulesets⟩ := ends has'
      rw [append_nil] at run'
      refine ⟨draft'.sheet, [(ruleset, first)], run'.trans finished, rfl, rulesets, has'.items, ?_⟩
      exact forall_mem_singleton.mpr follows
    | cons second rest =>
      -- Between two blocks stands a blank, behind the last one nothing.
      rw [layout_cons_cons] at same
      obtain ⟨own, behind, rfl, ownSame, same⟩ := map_eq_append_iff.mp (same.trans map_append)
      obtain ⟨blank, behind, rfl, blankSame, same⟩ := map_eq_cons_iff.mp same
      have white : blank.isBlank = true := congrArg Kind.isBlank (kind_of_canonical blankSame)
      obtain ⟨draft', ruleset, run', has', follows⟩ := run_block one ownSame
        (fun token member => clean token (by simp [member])) has place (blank :: behind)
      obtain ⟨sheet, pairs, finished, blocks, rulesets, items, each⟩ :=
        ih others same (fun token member => clean token (by simp [member])) has'
      refine ⟨sheet, (ruleset, first) :: pairs, ?_, by rw [map_cons, blocks], ?_, items,
        forall_mem_cons.mpr ⟨follows, each⟩⟩
      · rw [run', run_blank white, finished]
      · rw [rulesets, map_cons, List.append_assoc]
        rfl

end Draft

end LessCss
