import LessCss.Proofs.Sheet.Printed

/-! Compiling what is printed. Main statement: the text of a fair layout is compiled to
itself. -/

set_option autoImplicit false

namespace LessCss

open List

open Tokens

namespace Css

variable {library : Library} {line : Line}

/-! ### Declarations -/

def Line.ending (line : Line) : Tokens :=
  if line.value.isEmpty && !line.important then [] else line.tail

theorem Line.exists_last (trimmed : trim line.value = line.value)
    (some_ : (line.value.isEmpty && !line.important) = false) : ∃ front last, line.tail = front ++ [last] ∧ last.isBlank = false := by
  obtain ⟨property, value, important⟩ := line
  cases important with
  | true =>
    cases value with
    | nil => exact ⟨[gap "  ", markOf '!'], _, rfl, rfl⟩
    | cons first rest =>
      exact ⟨gap " " :: first :: rest ++ [gap " ", markOf '!'], _, by simp [tail, importantMark]; rfl, rfl⟩
  | false =>
    rcases eq_nil_or_concat value with rfl | ⟨front, last, rfl⟩
    · cases some_
    · refine ⟨gap " " :: front, last, by simp [tail], getLast_of_trim trimmed ?_⟩
      simp

theorem Line.trim_tokens (filled : line.property ≠ []) (solid : ∀ token ∈ line.property, token.isBlank = false)
    (trimmed : trim line.value = line.value) : trim line.tokens = line.property ++ markOf ':' :: line.ending := by
  have front (others : Tokens) (token : Token) (found : (line.property ++ others).head? = some token) :
      token.isBlank = false := by
    obtain ⟨first, rest, same⟩ := exists_cons_of_ne_nil filled
    rw [same] at found
    obtain rfl : first = token := Option.some.inj found
    exact solid first (by rw [same]; exact mem_cons_self)
  unfold Line.ending
  -- Without value and mark, only the space behind the colon is trimmed away.
  split
  · rename_i bare
    obtain ⟨empty, unmarked⟩ := Bool.and_eq_true_iff.mp bare
    have split : line.tokens = (line.property ++ [markOf ':']) ++ [gap " "] := by
      rw [Bool.not_eq_true'] at unmarked
      simp [tokens, tail, empty, unmarked]
    rw [split, trim_concat_blank rfl]
    refine trim_eq_self (front _) fun token found => ?_
    rw [List.getLast?_concat] at found
    cases found
    rfl
  · rename_i more
    obtain ⟨before, last, same, ends⟩ := Line.exists_last trimmed (Bool.eq_false_iff.mpr more)
    refine trim_eq_self (front _) fun token found => ?_
    rw [tokens, same, ← cons_append, ← List.append_assoc, List.getLast?_concat] at found
    cases found
    exact ends

theorem blank_nil : Blank [] := fun _ member => absurd member not_mem_nil

theorem Line.ending_shape (line : Line) : MixinCall.Ending line.value line.important line.ending := by
  have space {blanks : String} : Blank [gap blanks] := forall_mem_singleton.mpr rfl
  obtain ⟨property, value, important⟩ := line
  cases important with
  | false =>
    cases value with
    | nil => exact ⟨⟨[], blank_nil, .inl ⟨rfl, rfl⟩⟩⟩
    | cons first rest => exact ⟨⟨[gap " "], space, .inl ⟨rfl, by simp [ending, tail]⟩⟩⟩
  | true =>
    cases value with
    | nil =>
      refine ⟨⟨[gap "  "], space, .inr ⟨rfl, [], markOf '!', .synthetic .identifier "important", ?_⟩⟩⟩
      exact ⟨blank_nil, rfl, rfl, rfl, rfl, rfl⟩
    | cons first rest =>
      refine ⟨⟨[gap " "], space, .inr ⟨rfl, [gap " "], markOf '!', .synthetic .identifier "important", ?_⟩⟩⟩
      exact ⟨space, by simp [ending, tail, importantMark], rfl, rfl, rfl, rfl⟩

theorem Line.strip_ending (trimmed : trim line.value = line.value)
    (bare : line.important = false → Statement.stripImportant line.value = (line.value, false)) :
    Statement.stripImportant (trim line.ending) = (line.value, line.important) := by
  obtain ⟨property, value, important⟩ := line
  cases value with
  | nil => cases important <;> rfl
  | cons first rest =>
    have trimmed : trim (first :: rest) = first :: rest := trimmed
    have head : first.isBlank = false := head_of_trim trimmed rfl
    have right : trimRight (first :: rest) = first :: rest := by
      rw [← trimmed, trim, trimRight_trimRight]
    cases important with
    | false =>
      have same : (Line.mk property (first :: rest) false).ending = gap " " :: first :: rest := by simp [ending, tail]
      rw [same, trim_cons_blank rfl]
      exact (congrArg Statement.stripImportant trimmed).trans (bare rfl)
    | true =>
      have same : (Line.mk property (first :: rest) true).ending =
          gap " " :: ((first :: rest) ++ [gap " "] ++ [markOf '!', .synthetic .identifier "important"]) := by
        simp [ending, tail, importantMark]
      -- The mark ends the line, so trimming leaves it and the space in front of it.
      have whole : trim ((first :: rest) ++ [gap " "] ++ [markOf '!', .synthetic .identifier "important"]) =
          (first :: rest) ++ [gap " "] ++ [markOf '!', .synthetic .identifier "important"] := by
        refine trim_eq_self (fun token found => ?_) fun token found => ?_
        · cases found
          exact head
        · simp only [List.getLast?_append, List.getLast?_cons_cons, List.getLast?_singleton, Option.some_or] at found
          cases found
          rfl
      rw [same, trim_cons_blank rfl, whole]
      exact Statement.stripImportant_append right (forall_mem_singleton.mpr rfl) rfl rfl rfl rfl

theorem Line.Fair.declaration? (fair : line.Fair library) :
    Statement.declaration? (trim line.tokens) = some (line.property, trim line.ending) := by
  have solid (token : Token) (member : token ∈ line.property) : token.isBlank = false := (fair.plain token member).1
  have own : trim line.property = line.property :=
    trim_eq_self (fun token found => solid token (mem_of_head? found))
      fun token found => solid token (mem_of_getLast? found)
  have noSpace : line.property.any (·.kind == .whitespace) = false :=
    any_eq_false.mpr fun token member => by simpa using (kind_of_not_blank (solid token member)).1
  rw [Line.trim_tokens fair.filled solid fair.value.trimmed, Statement.declaration?,
    Statement.splitColon?_append fair.uncut (depthAfter_of_through fair.whole) rfl]
  simp [own, noSpace, fair.filled]

theorem declares_canonical {tokens : Tokens} (proper : Proper tokens) :
    Statement.Declares tokens.canonical ↔ Statement.Declares tokens := by
  have kind : headIs tokens.canonical .atKeyword = headIs tokens .atKeyword := by
    cases tokens <;> rfl
  have text : tokens.canonical.headText? = some "&" ↔ tokens.headText? = some "&" := by
    cases tokens with
    | nil => exact Iff.rfl
    | cons first rest =>
      have solid : "&".toList.all Text.isBlank = false := rfl
      have same := Token.text_canonical_iff (proper first mem_cons_self) solid
      simp [headText?, same]
  have call : MixinCall.read? tokens.canonical = none ↔ MixinCall.read? tokens = none := by
    rw [← Option.not_isSome_iff_eq_none, MixinCall.isSome_read?_canonical proper, Option.not_isSome_iff_eq_none]
  rw [Statement.Declares, Statement.Declares, kind, Ne, text, call]

/-- A statement that looks like a line is the declaration of the line. -/
theorem Line.Fair.literal (fair : line.Fair library) {statement : Tokens}
    (same : statement.canonical = (trim line.tokens).canonical) (clean : ∀ token ∈ statement, token.Clean) :
    Statement.IsLiteral library statement ∧ (Statement.literal statement).pretty 1 = line.declaration.pretty 1 := by
  have proper : Proper statement := fun token member => (clean token member).1
  have proper' : Proper (trim line.tokens) := fun token member => (fair.reads []).proper token (mem_of_mem_trim member)
  have declares : Statement.Declares statement :=
    (declares_canonical proper).mp (same ▸ (declares_canonical proper').mpr fair.declares)
  have found := Statement.declaration?_canonical statement
  rw [same, Statement.declaration?_canonical, fair.declaration?] at found
  obtain ⟨⟨property, value⟩, found, parts⟩ := Option.map_eq_some_iff.mp found.symm
  obtain ⟨propertySame, valueSame⟩ := Prod.mk.inj parts
  dsimp only at propertySame valueSame
  obtain ⟨before, colon, after, split, rfl, rfl, _, _, _, _, noSpace⟩ := Statement.exists_of_declaration? found
  have inside (token : Token) (member : token ∈ trim after) : token ∈ statement := by
    rw [split]
    simp [mem_of_mem_trim member]
  have ending (token : Token) (member : token ∈ trim line.ending) : token ∈ trim line.tokens := by
    rw [Line.trim_tokens fair.filled (fun token member => (fair.plain token member).1) fair.value.trimmed]
    simp [mem_of_mem_trim member]
  -- What is left of the value looks like the value of the line.
  have stripped := Statement.stripImportant_canonical fun token member => proper token (inside token member)
  rw [valueSame, Statement.stripImportant_canonical fun token member => proper' token (ending token member),
    Line.strip_ending fair.value.trimmed fair.bare] at stripped
  obtain ⟨left, mark⟩ := Prod.mk.inj stripped
  have spelled : text (trim before) = text line.property := by
    rw [← text_canonical noSpace, propertySame]
    exact text_canonical fun token member => (kind_of_not_blank (fair.plain token member).1).1
  have idle : computes library (Statement.stripImportant (trim after)).1 = false := by
    rw [← computes_canonical, ← left, computes_canonical]
    exact fair.idle
  refine ⟨⟨declares, _, _, found, idle⟩, ?_⟩
  have kinds := kinds_of_canonical same fun token member => fair.kinds token (mem_of_mem_trim member)
  have rendered : render (Statement.stripImportant (trim after)).1 = render line.value := by
    rw [← render_canonical, ← left, fair.value.canonical]
    exact fun token member => (kinds token (inside token (Statement.mem_of_stripImportant (trim_trim after) member))).1
  rw [Statement.literal, found, Option.getD_some, Declaration.pretty, Declaration.pretty, Line.declaration, spelled, rendered,
    ← mark]

/-! ### Rules -/

/-- Statements that look like lines are printed like them. -/
theorem pretty_statements {lines : List Line} (fair : ∀ line ∈ lines, line.Fair library) {statements : List Tokens}
    (same : statements.map canonical = lines.map fun line => (trim line.tokens).canonical)
    (clean : ∀ statement ∈ statements, ∀ token ∈ statement, token.Clean) :
    (∀ statement ∈ statements, Statement.IsLiteral library statement) ∧
      statements.map (fun statement => (Statement.literal statement).pretty 1) =
        lines.map fun line => line.declaration.pretty 1 := by
  induction lines generalizing statements with
  | nil =>
    obtain rfl := map_eq_nil_iff.mp same
    exact ⟨fun _ member => absurd member not_mem_nil, rfl⟩
  | cons line lines ih =>
    obtain ⟨statement, others, rfl, first, same⟩ := map_eq_cons_iff.mp same
    obtain ⟨fairLine, fair⟩ := forall_mem_cons.mp fair
    obtain ⟨cleanFirst, clean⟩ := forall_mem_cons.mp clean
    obtain ⟨literal, printed⟩ := fairLine.literal first cleanFirst
    obtain ⟨literals, texts⟩ := ih fair same clean
    exact ⟨forall_mem_cons.mpr ⟨literal, literals⟩, by rw [map_cons, map_cons, printed, texts]⟩

/-- Tokens that look like the branches of a block are printed like them. -/
theorem renderSelector_of_canonical {list : List Tokens} (each : ∀ branch ∈ list, FairBranch branch) {tokens : Tokens}
    (same : tokens.canonical = (joinBranches list).canonical) :
    renderSelector ", " (joinBranches tokens.branches) = renderSelector ", " (joinBranches list) := by
  have parts := fun branch member => (each branch member).part
  have closed : Closed tokens := by
    rw [Closed, ← depthAfter_canonical, same, depthAfter_canonical]
    exact depthAfter_of_through (through_joinBranches fun branch member => (each branch member).whole)
  have kinds := kinds_of_canonical same (kinds_joinBranches each)
  have alike : tokens.branches.map canonical = list.map canonical := by
    rw [← branches_canonical, same, branches_canonical, branches_joinBranches parts]
  rw [renderSelector, renderSelector, branches_joinBranches fun branch member => isPart_of_mem_branches closed member,
    branches_joinBranches parts, map_render_of_canonical alike]
  · exact fun branch member token inside => (kinds token (mem_of_mem_parts member inside)).1
  · exact fun branch member token inside => ((each branch member).kinds token inside).1

/-- A rule is printed like another one if its selector and its declarations are. -/
theorem pretty_rule {selector selector' : Tokens} {declarations declarations' : List Declaration}
    (head : renderSelector ", " selector = renderSelector ", " selector')
    (texts : declarations.map (Declaration.pretty 1) = declarations'.map (Declaration.pretty 1)) :
    (Node.rule selector declarations).pretty 0 = (Node.rule selector' declarations').pretty 0 := by
  have sizes : declarations.length = declarations'.length := by
    simpa using congrArg List.length texts
  have filled : declarations.isEmpty = declarations'.isEmpty := by
    rw [Bool.eq_iff_iff, isEmpty_iff_length_eq_zero, isEmpty_iff_length_eq_zero, sizes]
  rw [Node.pretty, Node.pretty, filled, head, prettyDeclarations, prettyDeclarations, texts]

/-- A ruleset that looks like a block is printed like it. -/
theorem Block.Fair.pretty_literal {block : Block} (fair : block.Fair library) {ruleset : Ruleset}
    (follows : ruleset.Follows block) : ruleset.literal.pretty 0 = block.node.pretty 0 := by
  obtain ⟨_, texts⟩ := pretty_statements fair.line follows.statements follows.clean.2
  refine pretty_rule (renderSelector_of_canonical fair.branch follows.selector) ?_
  rw [map_map, map_map]
  exact texts

/-! ### Sheets -/

def isUnmarked (token : Token) : Bool := !token.text.toList.contains '@'

theorem isUnmarked_iff {token : Token} : isUnmarked token = true ↔ '@' ∉ token.text.toList := by
  simp [isUnmarked]

theorem isUnmarked_of_proper {token : Token} (proper : token.Proper) (white : token.kind = .whitespace) :
    isUnmarked token = true := by
  refine isUnmarked_iff.mpr fun inside => ?_
  have blank := all_eq_true.mp (proper white) '@' inside
  exact absurd blank (by decide)

theorem Line.Fair.unmarked {line : Line} (fair : line.Fair library) : line.tokens.all isUnmarked = true := by
  have mark : importantMark.all isUnmarked = true := by decide
  have colon : isUnmarked (markOf ':') = true := by decide
  refine all_eq_true.mpr fun token member => ?_
  rcases mem_append.mp member with own | tail
  · exact isUnmarked_iff.mpr (fair.plain token own).2
  · rcases mem_cons.mp tail with rfl | tail
    · exact colon
    · rcases Line.mem_tail tail with inside | white | inside
      · exact isUnmarked_iff.mpr (fair.value.plain token inside).2
      · exact isUnmarked_of_proper ((fair.reads []).proper token member) white
      · exact all_eq_true.mp mark token inside

theorem Block.Fair.unmarked {block : Block} (fair : block.Fair library) : block.tokens.all isUnmarked = true := by
  have head : (joinBranches block.branches).all isUnmarked = true := by
    refine all_eq_true.mpr fun token member => ?_
    rcases mem_joinBranches member with rfl | rfl | ⟨branch, found, inside⟩
    · decide
    · decide
    · exact isUnmarked_iff.mpr ((fair.branch branch found).plain token inside).2
  have lines : (linesTokens block.lines).all isUnmarked = true := by
    rw [linesTokens, all_flatMap]
    refine all_eq_true.mpr fun line member => ?_
    rw [cons_append, all_cons, all_append, (fair.line line member).unmarked]
    decide
  rw [Block.tokens, all_append, head, all_cons, all_cons, all_append, lines]
  decide

theorem unmarked_layout {blocks : List Block} (fair : ∀ block ∈ blocks, block.Fair library) :
    (layout blocks).all isUnmarked = true := by
  induction blocks with
  | nil => rfl
  | cons first rest ih =>
    obtain ⟨one, others⟩ := forall_mem_cons.mp fair
    cases rest with
    | nil =>
      rw [layout_singleton]
      exact one.unmarked
    | cons second rest =>
      rw [layout_cons_cons, all_append, all_cons, one.unmarked, ih others]
      decide

theorem clean_layout {blocks : List Block} (fair : ∀ block ∈ blocks, block.Fair library) :
    ∀ token ∈ layout blocks, token.Clean :=
  fun token member => ⟨(reads_layout fair).proper token member,
    isUnmarked_iff.mp (all_eq_true.mp (unmarked_layout fair) token member)⟩

/-- A ruleset that looks like a fair block is put out as it stands. -/
theorem Block.Fair.plain {block : Block} (fair : block.Fair library) {ruleset : Ruleset} (follows : ruleset.Follows block) :
    ruleset.Plain ∧ ∀ statement ∈ ruleset.statements, Statement.IsLiteral library statement ∧
      ∀ token ∈ statement, '@' ∉ token.text.toList := by
  obtain ⟨literal, _⟩ := pretty_statements fair.line follows.statements follows.clean.2
  refine ⟨?_, fun statement member => ⟨literal statement member, fun token inside =>
    (follows.clean.2 statement member token inside).2⟩⟩
  rw [Ruleset.Plain, follows.head]
  exact ⟨rfl, rfl, rfl, fun statement member => (literal statement member).1⟩

end Css

namespace Tokens

variable {tokens others : Tokens}

theorem canonical_of_spelling (same : spelling tokens = spelling others) : tokens.canonical = others.canonical := by
  have written (tokens : Tokens) : tokens.canonical = (spelling tokens).map fun spelled =>
      Token.synthetic spelled.1 (if spelled.1 = .whitespace then " " else spelled.2) := by
    rw [spelling, map_map]
    rfl
  rw [written, same, written]

theorem clean_of_spelling (same : spelling tokens = spelling others) (clean : ∀ token ∈ others, token.Clean) :
    ∀ token ∈ tokens, token.Clean := by
  intro token member
  have inside : token.spelling ∈ spelling others := same ▸ mem_map_of_mem member
  obtain ⟨other, found, alike⟩ := mem_map.mp inside
  obtain ⟨kind, text⟩ := Prod.mk.inj alike
  have clean := clean other found
  rwa [Token.Clean, Token.Proper, kind, text] at clean

end Tokens

/-- The text of a fair layout is compiled to itself. -/
theorem compileWith_layout {library : Library} {blocks : List Css.Block} (fair : ∀ block ∈ blocks, block.Fair library)
    (name : Option String) :
    (compileWith library ⟨false, name⟩ (text (Css.layout blocks))).outcome.1 = .ok (text (Css.layout blocks)) := by
  obtain ⟨spelled, place, ending⟩ := run_of_reads (.start (name.getD defaultSourceName)) rfl (Css.reads_layout fair)
  have start : Draft.empty.Has [] none := ⟨rfl, rfl, rfl⟩
  obtain ⟨sheet, pairs, run, rfl, rulesets, items, each⟩ := Draft.run_layout fair (canonical_of_spelling spelled)
    (clean_of_spelling spelled (Css.clean_layout fair)) start place
  have read : Sheet.read (name.getD defaultSourceName) (text (Css.layout (pairs.map Prod.snd))) = pure sheet := by
    rw [Sheet.read, Sheet.ofScan, Scan.ofText, ending]
    exact run
  rw [nil_append] at rulesets
  -- Each ruleset that is read back follows a block of the layout, in order.
  have follows (ruleset : Ruleset) (member : ruleset ∈ sheet.rulesets) :
      ∃ block : Css.Block, block.Fair library ∧ ruleset.Follows block := by
    rw [← Array.mem_toList_iff, rulesets] at member
    obtain ⟨pair, inside, rfl⟩ := mem_map.mp member
    exact ⟨pair.2, fair pair.2 (mem_map_of_mem inside), each pair inside⟩
  have free : sheet.MixinFree := by
    refine ⟨fun item member => ?_, fun id => ?_⟩
    · rw [items] at member
      obtain ⟨id, _, rfl⟩ := mem_map.mp member
      rfl
    · obtain ⟨block, fair, follows⟩ := follows (sheet.ruleset id) (Array.getElem_mem id.isLt)
      exact (fair.plain follows).1
  have flat : sheet.flatten library = .ok (pairs.map fun pair => pair.1.literal) := by
    rw [Sheet.flatten_literal library items fun ruleset member => ?_, rulesets, map_map]
    · rfl
    · obtain ⟨block, fair, follows⟩ := follows ruleset member
      exact ⟨follows.kind, follows.nested, (fair.plain follows).2, fun token inside => (follows.clean.1 token inside).2⟩
  have printed : Css.pretty (pairs.map fun pair => pair.1.literal) =
      Css.pretty ((pairs.map Prod.snd).map Css.Block.node) := by
    have texts : (pairs.map fun pair => pair.1.literal).map (Css.Node.pretty 0) =
        ((pairs.map Prod.snd).map Css.Block.node).map (Css.Node.pretty 0) := by
      simp only [map_map]
      refine map_congr_left fun pair inside => ?_
      exact (fair pair.2 (mem_map_of_mem inside)).pretty_literal (each pair inside)
    rw [Css.pretty, Css.pretty, texts]
  rw [compileWith, read, pure_bind, Sheet.evaluate_eq_flatten library free, flat]
  exact congrArg Except.ok (printed.trans (Css.pretty_layout fair))

end LessCss
