import LessCss.Proofs.Css.Lines

/-! Flat style sheets. Main statement: a text of rules that have nothing to compute is
compiled, and what comes out is compiled to itself. -/

set_option autoImplicit false

namespace LessCss

open List Ruleset

open Tokens

structure Ruleset.IsRule (library : Library) (ruleset : Ruleset) : Prop where
  plain : ruleset.Plain
  literal : ∀ statement ∈ ruleset.statements, Statement.IsLiteral library statement
  branches : ruleset.selector.tokens.branches ≠ []
  guards : Selector.noGuard ruleset.selector.tokens = true

theorem Statement.isLiteral_iff (library : Library) (statement : Tokens) :
    (Declares statement ∧ ((declaration? statement).any fun parts => !computes library (stripImportant parts.2).1) = true) ↔
      IsLiteral library statement := by
  simp [IsLiteral, Option.any_eq_true]

instance (library : Library) (statement : Tokens) : Decidable (Statement.IsLiteral library statement) :=
  decidable_of_iff _ (Statement.isLiteral_iff library statement)

instance (library : Library) (ruleset : Ruleset) : Decidable (ruleset.IsRule library) :=
  decidable_of_iff (ruleset.Plain ∧ (∀ statement ∈ ruleset.statements, Statement.IsLiteral library statement) ∧
    ruleset.selector.tokens.branches ≠ [] ∧ Selector.noGuard ruleset.selector.tokens = true)
    ⟨fun ⟨plain, literal, branches, guards⟩ => ⟨plain, literal, branches, guards⟩,
      fun ⟨plain, literal, branches, guards⟩ => ⟨plain, literal, branches, guards⟩⟩

instance (sheet : Sheet) : Decidable sheet.Flat := inferInstanceAs (Decidable (_ ∧ _))

/-- A text without variables, escapes and comments is read as rules side by side. -/
structure ReadsFlat (library : Library) (source text : String) (sheet : Sheet) : Prop where
  read : (Sheet.read source text).outcome.1 = .ok sheet
  noMark : '@' ∉ text.toList
  noEscape : '\\' ∉ text.toList
  noComment : ∀ token ∈ (Scan.ofText source text).tokens, token.kind ≠ .comment
  flat : sheet.Flat
  rules : ∀ ruleset ∈ sheet.rulesets, ruleset.IsRule library

def Sheet.isFlatFrom (library : Library) (source text : String) (sheet : Sheet) : Bool :=
  !text.toList.contains '@' && !text.toList.contains '\\' &&
    (Scan.ofText source text).tokens.all (fun token => token.kind != .comment) &&
    decide (sheet.Flat ∧ ∀ ruleset ∈ sheet.rulesets, ruleset.IsRule library)

theorem exists_readsFlat {library : Library} {source text : String} {test : Sheet → Bool}
    (found : ((Sheet.read source text).outcome.1.toOption.any fun sheet =>
      sheet.isFlatFrom library source text && test sheet) = true) :
    ∃ sheet, ReadsFlat library source text sheet ∧ test sheet = true := by
  obtain ⟨sheet, read, facts⟩ := (Option.any_eq_true _ _).mp found
  have read' : (Sheet.read source text).outcome.1 = .ok sheet := by
    cases result : (Sheet.read source text).outcome.1 with
    | error error =>
      rw [result] at read
      cases read
    | ok other =>
      rw [result] at read
      exact congrArg Except.ok (Option.some.inj read)
  simp only [Sheet.isFlatFrom, Bool.and_eq_true, Bool.not_eq_true', decide_eq_true_eq, all_eq_true, bne_iff_ne] at facts
  obtain ⟨⟨⟨⟨noMark, noEscape⟩, noComment⟩, flat, rules⟩, passed⟩ := facts
  exact ⟨sheet, ⟨read', by simpa using noMark, by simpa using noEscape, noComment, flat, rules⟩, passed⟩

/-- Whether a parenthesis stands behind a name in the selector only if the brackets match. -/
def Selector.isSettled (selector : Selector) : Bool := unnamed false false selector.tokens || isNested selector.tokens

namespace Css

variable {library : Library} {all : Tokens} {ruleset : Ruleset}

theorem exists_fairBlock (reads : Reads none [] all)
    (plain : ∀ token ∈ all, token.kind ≠ .comment ∧ '@' ∉ token.text.toList ∧ '\\' ∉ token.text.toList)
    (stems : ruleset.Stems all) (rule : ruleset.IsRule library) (settled : ruleset.selector.isSettled = true)
    (written : ruleset.statements ≠ []) :
    ∃ block : Block, block.Fair library ∧ block.node.pretty 0 = ruleset.literal.pretty 0 := by
  obtain ⟨past, head, piece, extends_, same⟩ := stems.head
  obtain ⟨⟨noList, unguarded, _, _⟩, literal, some_, guards⟩ := rule
  have groups := (Bool.or_eq_true _ _).mp settled
  rw [same] at noList unguarded some_ guards groups
  obtain ⟨closed, branches, fairBranch, texts⟩ := exists_fairBranches reads
    (fun token member => (plain token member).imp_right And.left) piece extends_ noList unguarded groups guards
  have lineOf (statement : Tokens) (member : statement ∈ ruleset.statements) :
      ∃ line : Line, line.Fair library ∧ line.declaration.pretty 1 = (Statement.literal statement).pretty 1 := by
    obtain ⟨past, piece, sign⟩ := stems.statements statement member
    exact exists_fairLine reads plain piece sign (literal statement member)
  -- The statements are printed line by line, so their lines are found one by one.
  obtain ⟨lines, fairLine, printed⟩ := exists_map_eq lineOf
  have filled : branches ≠ [] := by
    rintro rfl
    exact some_ (map_eq_nil_iff.mp texts.symm)
  refine ⟨⟨branches, lines⟩, ⟨filled, fairBranch, ?_, fairLine⟩, pretty_rule ?_ ?_⟩
  · rintro rfl
    exact written (map_eq_nil_iff.mp printed.symm)
  · have rendered : branches.map render = branches.map text :=
      map_congr_left fun branch member => (fairBranch branch member).render
    rw [same, renderSelector, renderSelector, branches_joinBranches fun branch member => (fairBranch branch member).part,
      branches_joinBranches fun branch member => isPart_of_mem_branches closed member, rendered, texts]
  · rw [map_map, map_map]
    exact printed

/-- Rules, where they are printed. -/
theorem exists_fairLayout (reads : Reads none [] all)
    (plain : ∀ token ∈ all, token.kind ≠ .comment ∧ '@' ∉ token.text.toList ∧ '\\' ∉ token.text.toList)
    {rulesets : List Ruleset} (each : ∀ ruleset ∈ rulesets,
      ruleset.Stems all ∧ ruleset.IsRule library ∧ ruleset.selector.isSettled = true) :
    ∃ blocks : List Block, (∀ block ∈ blocks, block.Fair library) ∧
      pretty (rulesets.map literal) = text (layout blocks) := by
  have blockOf (ruleset : Ruleset) (member : ruleset ∈ rulesets.filter fun ruleset => !ruleset.statements.isEmpty) :
      ∃ block : Block, block.Fair library ∧ block.node.pretty 0 = ruleset.literal.pretty 0 := by
    obtain ⟨inside, written⟩ := mem_filter.mp member
    obtain ⟨stems, rule, settled⟩ := each ruleset inside
    exact exists_fairBlock reads plain stems rule settled (by simpa using written)
  obtain ⟨blocks, fair, printed⟩ := exists_map_eq blockOf
  -- A rule without declarations is not printed.
  have silent (ruleset : Ruleset) : (!(ruleset.literal.pretty 0).isEmpty) =
      (!(ruleset.literal.pretty 0).isEmpty && !ruleset.statements.isEmpty) := by
    cases empty : ruleset.statements.isEmpty with
    | false => rw [Bool.not_false, Bool.and_true]
    | true =>
      rw [literal, List.isEmpty_iff.mp empty]
      rfl
  have texts : ((rulesets.map literal).map (Node.pretty 0)).filter (fun block => !block.isEmpty) =
      ((blocks.map Block.node).map (Node.pretty 0)).filter fun block => !block.isEmpty := by
    have shorter : (blocks.map Block.node).map (Node.pretty 0) =
        (rulesets.filter fun ruleset => !ruleset.statements.isEmpty).map fun ruleset => ruleset.literal.pretty 0 := by
      rw [map_map]
      exact printed
    rw [shorter, map_map, filter_map, filter_map, filter_filter]
    exact congrArg _ (filter_congr fun ruleset _ => silent ruleset)
  refine ⟨blocks, fair, ?_⟩
  rw [← pretty_layout fair, pretty, pretty, texts]

end Css

/-! ### Compilation -/

namespace Tokens

theorem mem_text {tokens : Tokens} {token : Token} (member : token ∈ tokens) {c : Char} (inside : c ∈ token.text.toList) :
    c ∈ (text tokens).toList := by
  induction tokens with
  | nil => cases member
  | cons first rest ih =>
    rw [text_cons, String.toList_append]
    rcases mem_cons.mp member with rfl | member
    · exact mem_append_left _ inside
    · exact mem_append_right _ (ih member)

end Tokens

/-- The tokens that the selector of a ruleset has stand in the text, or are parentheses. -/
theorem Ruleset.Stems.unmarked {all : Tokens} {ruleset : Ruleset} (stems : ruleset.Stems all)
    (plain : ∀ token ∈ all, '@' ∉ token.text.toList) : ∀ token ∈ ruleset.selector.tokens, '@' ∉ token.text.toList := by
  obtain ⟨past, head, ⟨⟨rest, _, rfl⟩, _, _⟩, _, same⟩ := stems.head
  intro token member
  rw [same] at member
  rcases Selector.mem_readFrom member with none_ | inside | ⟨_, text⟩
  · cases none_
  · exact plain token (by simp [inside])
  · rw [text]
    decide

/-- A flat text is compiled to its rules as they stand, and the text of these rules to itself. -/
theorem compileWith_flat {library : Library} {name : Option String} {text : String} {sheet : Sheet}
    (flat : ReadsFlat library (name.getD defaultSourceName) text sheet)
    (noExtend : headsFree true 0 (Scan.ofText (name.getD defaultSourceName) text).tokens = true)
    (settled : ∀ ruleset ∈ sheet.rulesets, ruleset.selector.isSettled = true) :
    ∃ css, css = Css.pretty (sheet.rulesets.toList.map literal) ∧
      (compileWith library ⟨false, name⟩ text).outcome.1 = .ok css ∧
      ∀ name', (compileWith library ⟨false, name'⟩ css).outcome.1 = .ok css := by
  obtain ⟨read, noMark, noEscape, noComment, flatSheet, rules⟩ := flat
  obtain ⟨place, ending⟩ := Sheet.exists_ending_of_read read
  obtain ⟨reads, covered⟩ := reads_of_run ending
  have plain (token : Token) (member : token ∈ (Scan.ofText (name.getD defaultSourceName) text).tokens) :
      token.kind ≠ .comment ∧ '@' ∉ token.text.toList ∧ '\\' ∉ token.text.toList :=
    ⟨noComment token member, fun inside => noMark (covered ▸ mem_text member inside),
      fun inside => noEscape (covered ▸ mem_text member inside)⟩
  -- All that the sheet holds stands in the text, so it has neither holes nor escapes.
  have stems := Sheet.stems_of_read read
    (fun token member => ⟨reads.not_atKeyword member (plain token member).2.1, (plain token member).1⟩) noExtend flatSheet
  have each (ruleset : Ruleset) (member : ruleset ∈ sheet.rulesets.toList) :
      ruleset.Stems (Scan.ofText (name.getD defaultSourceName) text).tokens ∧ ruleset.IsRule library ∧
        ruleset.selector.isSettled = true := by
    rw [Array.mem_toList_iff] at member
    exact ⟨stems.rulesets ruleset member, rules ruleset member, settled ruleset member⟩
  have free : sheet.MixinFree := ⟨flatSheet.2, fun id => (rules _ (Array.getElem_mem id.isLt)).plain⟩
  have whole : sheet.flatten library = .ok (sheet.rulesets.toList.map literal) := by
    refine Sheet.flatten_literal library stems.items fun ruleset member => ?_
    have stems := stems.rulesets ruleset member
    refine ⟨stems.kind, flatSheet.1 ruleset member, fun statement inside => ⟨(rules ruleset member).literal statement inside,
      fun token inside' => ?_⟩, stems.unmarked fun token inside => (plain token inside).2.1⟩
    obtain ⟨past, ⟨⟨rest, _, split⟩, _, _⟩, _⟩ := stems.statements statement inside
    exact (plain token (by rw [split]; simp [inside'])).2.1
  -- The rules are printed as a fair layout, and a fair layout is compiled to itself.
  obtain ⟨blocks, fair, printed⟩ := Css.exists_fairLayout reads plain each
  refine ⟨_, rfl, ?_, fun name' => ?_⟩
  · obtain ⟨log, done⟩ := Logged.exists_of_outcome read
    rw [compileWith, Logged.outcome, EStateM.run_bind, done]
    dsimp only
    rw [Sheet.evaluate_eq_flatten library free, whole]
    rfl
  · rw [printed]
    exact compileWith_layout fair name'

/-- A flat style sheet is printed as it stands, and what is printed is kept as it is. -/
theorem flat_css_kept (name : Option String) (text : String) (sheet : Sheet)
    (flat : ReadsFlat .builtin (name.getD defaultSourceName) text sheet)
    (noExtend : headsFree true 0 (Scan.ofText (name.getD defaultSourceName) text).tokens = true)
    (settled : ∀ ruleset ∈ sheet.rulesets, ruleset.selector.isSettled = true) :
    ∃ css, css = Css.pretty (sheet.rulesets.toList.map literal) ∧
      (compile ⟨false, name⟩ text).outcome.1 = .ok css ∧ ∀ name', (compile ⟨false, name'⟩ css).outcome.1 = .ok css :=
  compileWith_flat flat noExtend settled

def tightRules : String :=
  ".a>.b,#c:not(.d) ,.e(f)\x7bcolor:red;margin :-1px  0!important\x7d.f\x7b\x7d-1\x7btop:0\x7d"

def looseRules : String :=
  ".a>.b, #c:not(.d), .e(f) \x7b\n  color: red;\n  margin: -1px 0 !important;\n\x7d\n\n-1 \x7b\n  top: 0;\n\x7d"

theorem tightRules_kept : ∃ sheet, ReadsFlat .builtin defaultSourceName tightRules sheet ∧
    headsFree true 0 (Scan.ofText defaultSourceName tightRules).tokens = true ∧
    (∀ ruleset ∈ sheet.rulesets, ruleset.selector.isSettled = true) ∧
    looseRules = Css.pretty (sheet.rulesets.toList.map literal) ∧
    (compile ⟨false, none⟩ tightRules).outcome.1 = .ok looseRules ∧
    (compile ⟨false, none⟩ looseRules).outcome.1 = .ok looseRules := by
  have free : headsFree true 0 (Scan.ofText defaultSourceName tightRules).tokens = true := by decide +kernel
  have checked : ((Sheet.read defaultSourceName tightRules).outcome.1.toOption.any fun sheet =>
      sheet.isFlatFrom .builtin defaultSourceName tightRules &&
        (sheet.rulesets.all (fun ruleset => ruleset.selector.isSettled) &&
          Css.pretty (sheet.rulesets.toList.map literal) == looseRules)) = true := by
    decide +kernel
  obtain ⟨sheet, flat, facts⟩ := exists_readsFlat checked
  obtain ⟨settled, printed⟩ := Bool.and_eq_true_iff.mp facts
  have settled := Array.all_eq_true_iff_forall_mem.mp settled
  obtain ⟨css, same, first, again⟩ := flat_css_kept none tightRules sheet flat free settled
  rw [beq_iff_eq.mp printed] at same
  subst same
  exact ⟨sheet, flat, free, settled, (beq_iff_eq.mp printed).symm, first, again none⟩

def openGroup : String := ".a(] .b(] \x7bx:y\x7d"

def partedWord : String := ".a wh:extend()en \x7bx:y\x7d"

/-- An open group gets one more parenthesis each time, and parts of a word are joined to `when`. -/
theorem openGroup_partedWord_changed :
    (∃ sheet, ReadsFlat .builtin defaultSourceName openGroup sheet ∧
      (compile ⟨false, none⟩ openGroup).outcome.1.toOption = some ".a(] .b(]) \x7b\n  x: y;\n\x7d" ∧
      (compile ⟨false, none⟩ ".a(] .b(]) \x7b\n  x: y;\n\x7d").outcome.1.toOption =
        some ".a(] .b(])) \x7b\n  x: y;\n\x7d") ∧
    ∃ sheet, ReadsFlat .builtin defaultSourceName partedWord sheet ∧
      (compile ⟨false, none⟩ partedWord).outcome.1.toOption = some ".a when \x7b\n  x: y;\n\x7d" ∧
      (compile ⟨false, none⟩ ".a when \x7b\n  x: y;\n\x7d").outcome.1.toOption = some ".a \x7b\n  x: y;\n\x7d" := by
  have group : ((Sheet.read defaultSourceName openGroup).outcome.1.toOption.any fun sheet =>
      sheet.isFlatFrom .builtin defaultSourceName openGroup && true) = true := by decide +kernel
  have word : ((Sheet.read defaultSourceName partedWord).outcome.1.toOption.any fun sheet =>
      sheet.isFlatFrom .builtin defaultSourceName partedWord && true) = true := by decide +kernel
  obtain ⟨sheet, flat, _⟩ := exists_readsFlat group
  obtain ⟨sheet', flat', _⟩ := exists_readsFlat word
  exact ⟨⟨sheet, flat, by decide +kernel, by decide +kernel⟩, sheet', flat', by decide +kernel, by decide +kernel⟩

end LessCss
