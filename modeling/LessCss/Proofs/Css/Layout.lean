import LessCss.Proofs.Css.Parts
import LessCss.Proofs.Evaluation.Literal
import LessCss.Proofs.Token.Borders

/-! The tokens of a style sheet as it is printed. Main statements: the text of a layout
is what is printed for its rules, and it is read as the tokens of the layout, if
each branch, property and value is read from its own text. -/

set_option autoImplicit false

namespace LessCss.Css

open List

open Tokens
open Text (isBlank)

structure Line where
  property : Tokens
  value : Tokens
  important : Bool

structure Block where
  branches : List Tokens
  lines : List Line

def gap (blanks : String) : Token := .synthetic .whitespace blanks

def importantMark : Tokens := [markOf '!', .synthetic .identifier "important"]

/-- What stands behind the colon. Without a value, the blanks on its two sides are one token. -/
def Line.tail (line : Line) : Tokens :=
  if line.value.isEmpty then if line.important then gap "  " :: importantMark else [gap " "]
  else gap " " :: line.value ++ if line.important then gap " " :: importantMark else []

def Line.tokens (line : Line) : Tokens := line.property ++ markOf ':' :: line.tail

def linesTokens (lines : List Line) : Tokens :=
  lines.flatMap fun line => gap "\n  " :: line.tokens ++ [markOf ';']

def Block.tokens (block : Block) : Tokens :=
  joinBranches block.branches ++ gap " " :: markOf '\x7b' :: (linesTokens block.lines ++ [gap "\n", markOf '\x7d'])

def layout (blocks : List Block) : Tokens := [gap "\n\n"].intercalate (blocks.map Block.tokens)

def Line.declaration (line : Line) : Declaration := ⟨text line.property, line.value, line.important⟩

def Block.node (block : Block) : Node := .rule (joinBranches block.branches) (block.lines.map Line.declaration)

/-! ### Conditions -/

/-- A stretch without holes that is read in front of every calm text, where a sign may stand. -/
structure Sturdy (tokens : Tokens) : Prop where
  reads (after : List Char) (calm : startsCalm after = true) : Reads none after tokens
  canonical : tokens.canonical = tokens
  trimmed : trim tokens = tokens
  whole : through 0 tokens = some 0
  plain : ∀ token ∈ tokens, token.kind ≠ .comment ∧ '@' ∉ token.text.toList

/-- A branch that stays a branch of a plain selector. -/
structure FairBranch (branch : Tokens) : Prop extends Sturdy branch where
  part : IsPart "," branch
  kept : Selector.Kept false false branch
  extends_ : Selector.noExtend branch = true
  guards : Selector.noGuard branch = true

structure Line.Fair (library : Library) (line : Line) : Prop where
  property (rest : List Char) : Reads none (':' :: rest) line.property
  value : Sturdy line.value
  filled : line.property ≠ []
  plain : ∀ token ∈ line.property, token.isBlank = false ∧ '@' ∉ token.text.toList
  trimmed : Text.trim (text line.property) = text line.property
  whole : through 0 line.property = some 0
  uncut : Statement.splitColon? 0 line.property = none
  bare : line.important = false → Statement.stripImportant line.value = (line.value, false)
  idle : computes library line.value = false
  declares : Statement.Declares (trim line.tokens)

structure Block.Fair (library : Library) (block : Block) : Prop where
  filled : block.branches ≠ []
  branch : ∀ branch ∈ block.branches, FairBranch branch
  written : block.lines ≠ []
  line : ∀ line ∈ block.lines, line.Fair library

/-! ### Texts -/

theorem Sturdy.render {tokens : Tokens} (sturdy : Sturdy tokens) : render tokens = text tokens := by
  rw [render_eq_text (sturdy.reads [] rfl) sturdy.trimmed fun token member => (sturdy.plain token member).1, sturdy.canonical]

@[simp] theorem text_gap (blanks : String) : (gap blanks).text = blanks := rfl

@[simp] theorem toList_markOf (c : Char) : (markOf c).text.toList = [c] := String.toList_ofList

theorem text_importantMark : text importantMark = "!important" := rfl

variable {library : Library}

theorem Line.text_tokens (line : Line) : text line.tokens =
    text line.property ++ ": " ++ text line.value ++ if line.important then " !important" else "" := by
  apply String.toList_inj.mp
  obtain ⟨property, value, important⟩ := line
  cases value <;> cases important <;> simp [tokens, tail, text_importantMark]

theorem Line.Fair.pretty {line : Line} (fair : line.Fair library) :
    "\n" ++ line.declaration.pretty 1 = text (gap "\n  " :: line.tokens ++ [markOf ';']) ++ "\n" := by
  apply String.toList_inj.mp
  rw [Declaration.pretty, Line.declaration, fair.trimmed, fair.value.render]
  cases important : line.important <;> simp [Line.text_tokens, indent, important]

theorem pretty_declarations {lines : List Line} (fair : ∀ line ∈ lines, line.Fair library) :
    "\n" ++ prettyDeclarations 1 (lines.map Line.declaration) = text (linesTokens lines) ++ "\n" := by
  induction lines with
  | nil => rfl
  | cons line lines ih =>
    obtain ⟨first, others⟩ := forall_mem_cons.mp fair
    calc "\n" ++ prettyDeclarations 1 ((line :: lines).map Line.declaration)
        = "\n" ++ line.declaration.pretty 1 ++ prettyDeclarations 1 (lines.map Line.declaration) := by
          simp [prettyDeclarations, String.append_assoc]
      _ = text (gap "\n  " :: line.tokens ++ [markOf ';']) ++
          ("\n" ++ prettyDeclarations 1 (lines.map Line.declaration)) := by
          rw [first.pretty, String.append_assoc]
      _ = text (linesTokens (line :: lines)) ++ "\n" := by
          rw [ih others, linesTokens, linesTokens, flatMap_cons, text_append (_ ++ _), String.append_assoc]

theorem text_joinBranches {branches : List Tokens} (fair : ∀ branch ∈ branches, FairBranch branch) :
    renderSelector ", " (joinBranches branches) = text (joinBranches branches) := by
  have texts : branches.map render = branches.map text :=
    map_congr_left fun branch member => (fair branch member).render
  rw [renderSelector, branches_joinBranches fun branch member => (fair branch member).part, texts]
  clear texts fair
  induction branches with
  | nil => rfl
  | cons first rest ih =>
    cases rest with
    | nil => simp [joinBranches_singleton]
    | cons second rest =>
      have separator : Token.comma.text ++ Token.space.text = ", " := rfl
      rw [joinBranches_cons_cons, text_append, text_cons, text_cons, ← ih, map_cons, map_cons,
        String.intercalate_cons_cons, ← separator]
      simp [String.append_assoc]

theorem Block.Fair.pretty_node {block : Block} (fair : block.Fair library) :
    block.node.pretty 0 = text block.tokens ++ "\n" := by
  have some_ : (block.lines.map Line.declaration).isEmpty = false := by simpa using fair.written
  have lines := congrArg String.toList (pretty_declarations fair.line)
  rw [Block.node, Node.pretty, some_, if_neg Bool.false_ne_true, text_joinBranches fair.branch]
  apply String.toList_inj.mp
  rw [String.toList_append, String.toList_append] at lines
  calc (indent 0 ++ text (joinBranches block.branches) ++ " \x7b\n" ++
        prettyDeclarations (0 + 1) (block.lines.map Line.declaration) ++ indent 0 ++ "\x7d\n").toList
      = (text (joinBranches block.branches)).toList ++ (' ' :: '\x7b' ::
          ("\n".toList ++ (prettyDeclarations 1 (block.lines.map Line.declaration)).toList)) ++ ['\x7d', '\n'] := by
        simp [indent]
    _ = (text block.tokens ++ "\n").toList := by
        rw [lines]
        simp [tokens]

theorem layout_singleton (block : Block) : layout [block] = block.tokens := by
  simp [layout]

theorem layout_cons_cons (first second : Block) (rest : List Block) :
    layout (first :: second :: rest) = first.tokens ++ gap "\n\n" :: layout (second :: rest) := by
  simp [layout, List.intercalate]

theorem intercalate_pretty {blocks : List Block} (some_ : blocks ≠ []) :
    "\n".intercalate (blocks.map fun block => text block.tokens ++ "\n") = text (layout blocks) ++ "\n" := by
  induction blocks with
  | nil => exact absurd rfl some_
  | cons first rest ih =>
    cases rest with
    | nil => simp [layout_singleton]
    | cons second rest =>
      have others := ih (cons_ne_nil _ _)
      rw [map_cons] at others
      rw [layout_cons_cons, map_cons, map_cons, String.intercalate_cons_cons, others]
      apply String.toList_inj.mp
      simp

theorem Sturdy.head {tokens : Tokens} (sturdy : Sturdy tokens) (some_ : tokens ≠ []) :
    ∃ c own, isBlank c = false ∧ (text tokens).toList = c :: own := by
  obtain ⟨token, rest, rfl⟩ := exists_cons_of_ne_nil some_
  have solid := head_of_trim sturdy.trimmed (show (token :: rest).head? = some token from rfl)
  obtain ⟨c, own, spelled, blank⟩ := (sturdy.reads [] rfl).head
  refine ⟨c, own ++ (text rest).toList, ?_, by rw [text_cons, String.toList_append, spelled, cons_append]⟩
  exact Bool.eq_false_iff.mpr (mt blank.mp (kind_of_not_blank solid).1)

theorem exists_joinBranches (first : Tokens) (rest : List Tokens) :
    ∃ others, joinBranches (first :: rest) = first ++ others := by
  cases rest with
  | nil => exact ⟨[], by simp [joinBranches_singleton]⟩
  | cons second rest => exact ⟨_, joinBranches_cons_cons first second rest⟩

theorem Block.Fair.exists_text {block : Block} (fair : block.Fair library) : ∃ c own, isBlank c = false ∧
    (text block.tokens).toList = c :: own ++ ['\x7d'] := by
  obtain ⟨branch, branches, same⟩ := exists_cons_of_ne_nil fair.filled
  have first := fair.branch branch (by rw [same]; exact mem_cons_self)
  obtain ⟨c, own, solid, spelled⟩ := first.head first.part.ne_nil
  obtain ⟨others, joined⟩ := exists_joinBranches branch branches
  have whole : (text block.tokens).toList = c :: (own ++ ((text others).toList ++ ' ' :: '\x7b' ::
      ((text (linesTokens block.lines)).toList ++ ['\n']))) ++ ['\x7d'] := by
    rw [Block.tokens, same, joined, text_append, text_append, String.toList_append, String.toList_append, spelled]
    simp
  exact ⟨c, _, solid, whole⟩

theorem exists_text_layout {blocks : List Block} (fair : ∀ block ∈ blocks, block.Fair library) (some_ : blocks ≠ []) :
    ∃ c own, isBlank c = false ∧ (text (layout blocks)).toList = c :: own ++ ['\x7d'] := by
  induction blocks with
  | nil => exact absurd rfl some_
  | cons first rest ih =>
    obtain ⟨one, others⟩ := forall_mem_cons.mp fair
    obtain ⟨c, own, solid, same⟩ := one.exists_text
    cases rest with
    | nil => exact ⟨c, own, solid, by rw [layout_singleton, same]⟩
    | cons second rest =>
      obtain ⟨d, own', _, same'⟩ := ih others (cons_ne_nil _ _)
      refine ⟨c, own ++ '\x7d' :: '\n' :: '\n' :: d :: own', solid, ?_⟩
      rw [layout_cons_cons, text_append, text_cons, String.toList_append, String.toList_append, same, same']
      simp

theorem pretty_layout {blocks : List Block} (fair : ∀ block ∈ blocks, block.Fair library) :
    pretty (blocks.map Block.node) = text (layout blocks) := by
  have texts : (blocks.map Block.node).map (Node.pretty 0) = blocks.map fun block => text block.tokens ++ "\n" := by
    rw [map_map]
    exact map_congr_left fun block member => (fair block member).pretty_node
  have all : (blocks.map fun block => text block.tokens ++ "\n").filter (fun block => !block.isEmpty) =
      blocks.map fun block => text block.tokens ++ "\n" := by
    refine filter_eq_self.mpr fun block member => ?_
    obtain ⟨_, _, rfl⟩ := mem_map.mp member
    simp
  rw [pretty, texts, all]
  by_cases some_ : blocks = []
  · subst some_
    rfl
  · obtain ⟨c, own, solid, same⟩ := exists_text_layout fair some_
    have closing : Text.isBlank '\x7d' = false := rfl
    rw [intercalate_pretty some_, Text.trim, String.toList_append, same,
      show c :: own ++ ['\x7d'] ++ "\n".toList = (c :: own) ++ ['\x7d', '\n'] by simp, trimChars_line closing]
    apply String.toList_inj.mp
    rw [String.toList_ofList, same, cons_append, dropWhile_cons_of_neg (by simp [solid])]

/-! ### Readings -/

section

variable {last : Option Token} {after : List Char} {tokens : Tokens}

theorem reads_mark {c : Char} (solitary : Lexeme.isSolitary c = true) (reads : Reads (some (markOf c)) after tokens) :
    Reads last after (markOf c :: tokens) := by
  have solid : (markOf c).isBlank = false := isBlank_markKind c
  refine ⟨⟨c, [], toList_markOf c, Lexeme.read_solitary solitary _ _⟩, ?_⟩
  rwa [lastSeen_of_solid solid]

theorem reads_gap {blanks : String} (some_ : blanks.toList ≠ []) (blank : blanks.toList.all isBlank = true)
    (solid : ((text tokens).toList ++ after).head?.any isBlank = false) (reads : Reads none after tokens) :
    Reads last after (gap blanks :: tokens) := by
  obtain ⟨c, own, same⟩ := exists_cons_of_ne_nil some_
  obtain ⟨first, each⟩ := forall_mem_cons.mp (all_eq_true.mp (same ▸ blank))
  have sign : Lexeme.allowsSign none = Lexeme.allowsSign (Scan.lastSeen last (gap blanks)) := rfl
  refine ⟨⟨c, own, same, ?_⟩, reads.congr sign⟩
  rw [read_blank first, Lexeme.takeWhile_append_of_head each solid]
  rfl

theorem reads_importantMark (rest : List Char) : Reads last (';' :: rest) importantMark := by
  have word : Lexeme.read (some (markOf '!')) 'i' ("mportant".toList ++ [';']) = .token .identifier 8 := by decide +kernel
  have alone : Reads last [';'] importantMark := reads_mark rfl ⟨⟨'i', "mportant".toList, rfl, word⟩, trivial⟩
  have plain : ∀ token ∈ importantMark, token.kind ≠ .comment ∧ '@' ∉ token.text.toList := by decide +kernel
  exact alone.canonical_sealed (cons_ne_nil _ _) rfl (fun token member => (plain token member).1)
    (fun token member => (plain token member).2) rfl

end

theorem Line.Fair.reads_tail {line : Line} (fair : line.Fair library) {last : Option Token} (rest : List Char) :
    Reads last (';' :: rest) line.tail := by
  have marked {last : Option Token} {blanks : String} (some_ : blanks.toList ≠ [])
      (blank : blanks.toList.all isBlank = true) : Reads last (';' :: rest) (gap blanks :: importantMark) :=
    reads_gap some_ blank (by simp [text_importantMark]; decide) (reads_importantMark rest)
  unfold Line.tail
  split
  · split
    · exact marked (by simp) rfl
    · exact reads_gap (by simp) rfl (by simp; decide) trivial
  · rename_i filled
    obtain ⟨c, own, solid, spelled⟩ := fair.value.head (by simpa using filled)
    rw [cons_append]
    refine reads_gap (by simp) rfl ?_ (reads_append.mpr ⟨fair.value.reads _ ?_, ?_⟩)
    · simp [spelled, solid]
    · split
      · rfl
      · rfl
    · split
      · exact marked (by simp) rfl
      · trivial

theorem Line.Fair.reads {line : Line} (fair : line.Fair library) (rest : List Char) :
    Reads none (';' :: rest) line.tokens := by
  refine reads_append.mpr ⟨?_, reads_mark rfl (fair.reads_tail rest)⟩
  rw [text_cons, String.toList_append, toList_markOf]
  exact fair.property _

theorem Line.Fair.head {line : Line} (fair : line.Fair library) :
    ∃ c own, isBlank c = false ∧ (text line.tokens).toList = c :: own := by
  obtain ⟨token, rest, same⟩ := exists_cons_of_ne_nil fair.filled
  have reads := fair.property []
  rw [same] at reads
  obtain ⟨c, own, spelled, blank⟩ := reads.head
  have solid := (fair.plain token (by rw [same]; exact mem_cons_self)).1
  have whole : (text line.tokens).toList = c :: (own ++ (text (rest ++ markOf ':' :: line.tail)).toList) := by
    rw [Line.tokens, same, cons_append, text_cons, String.toList_append, spelled, cons_append]
  exact ⟨c, _, Bool.eq_false_iff.mpr (mt blank.mp (kind_of_not_blank solid).1), whole⟩

theorem reads_lines {lines : List Line} (fair : ∀ line ∈ lines, line.Fair library) {after : List Char} {others : Tokens}
    (behind : ∀ last, Reads last after others) (last : Option Token) : Reads last after (linesTokens lines ++ others) := by
  induction lines generalizing last with
  | nil => exact behind last
  | cons line lines ih =>
    obtain ⟨first, rest⟩ := forall_mem_cons.mp fair
    have split : linesTokens (line :: lines) ++ others =
        gap "\n  " :: (line.tokens ++ markOf ';' :: (linesTokens lines ++ others)) := by
      simp [linesTokens]
    obtain ⟨c, own, solid, spelled⟩ := first.head
    rw [split]
    refine reads_gap (by simp) rfl (by simp [spelled, solid]) (reads_append.mpr ⟨?_, reads_mark rfl (ih rest _)⟩)
    rw [text_cons, String.toList_append, toList_markOf]
    exact first.reads _

theorem reads_joinBranches {branches : List Tokens} (fair : ∀ branch ∈ branches, FairBranch branch) {after : List Char}
    {others : Tokens} (behind : ∀ last, Reads last after others) (calm : startsCalm ((text others).toList ++ after) = true) :
    Reads none after (joinBranches branches ++ others) := by
  induction branches with
  | nil => exact behind none
  | cons first rest ih =>
    obtain ⟨front, rest'⟩ := forall_mem_cons.mp fair
    cases rest with
    | nil =>
      rw [joinBranches_singleton]
      exact reads_append.mpr ⟨front.reads _ calm, behind _⟩
    | cons second rest =>
      have split : joinBranches (first :: second :: rest) ++ others =
          first ++ markOf ',' :: gap " " :: (joinBranches (second :: rest) ++ others) := by
        rw [joinBranches_cons_cons, List.append_assoc]
        rfl
      -- The space behind the comma stays a token of its own, as the next branch begins with no blank.
      have next := rest' second mem_cons_self
      obtain ⟨c, own, solid, spelled⟩ := next.head next.part.ne_nil
      obtain ⟨others', joined⟩ := exists_joinBranches second rest
      rw [split]
      refine reads_append.mpr ⟨front.reads _ ?_, reads_mark rfl (reads_gap (by simp) rfl ?_ (ih rest'))⟩
      · rw [text_cons, String.toList_append, toList_markOf]
        rfl
      · rw [joined]
        simp [spelled, solid]

theorem Block.Fair.reads {block : Block} (fair : block.Fair library) (after : List Char) : Reads none after block.tokens := by
  have ending (last : Option Token) : Reads last after [gap "\n", markOf '\x7d'] :=
    reads_gap (by simp) rfl (by simp; decide) (reads_mark rfl trivial)
  have lines := reads_lines fair.line ending
  refine reads_joinBranches fair.branch (fun last => reads_gap (by simp) rfl ?_ (reads_mark rfl (lines _))) ?_
  · rw [text_cons, String.toList_append, toList_markOf]
    rfl
  · rw [text_cons, String.toList_append]
    rfl

theorem reads_layout {blocks : List Block} (fair : ∀ block ∈ blocks, block.Fair library) :
    Reads none [] (layout blocks) := by
  induction blocks with
  | nil => trivial
  | cons first rest ih =>
    obtain ⟨one, others⟩ := forall_mem_cons.mp fair
    cases rest with
    | nil =>
      rw [layout_singleton]
      exact one.reads []
    | cons second rest =>
      obtain ⟨c, own, solid, spelled⟩ := exists_text_layout others (cons_ne_nil _ _)
      rw [layout_cons_cons]
      exact reads_append.mpr ⟨one.reads _, reads_gap (by simp) rfl (by simp [spelled, solid]) (ih others)⟩

end LessCss.Css
