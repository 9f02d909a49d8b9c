import LessCss.Css
import LessCss.Proofs.Token.Scans

/-! What printed style sheets are read as. Both forms of a tidy style sheet are read
as the parts of its nodes; they differ in how the declarations of a block are joined. -/

set_option autoImplicit false

namespace LessCss.Css

open List Text Declaration

open Tokens (isSealed isDetached partsOf markOf Place Leads leads_nil leads_free leads_signed leads_mark
  leads_mark_signed leads_blank leads_gap leads_sealed leads_detached leads_intercalate)

abbrev Part := Kind × String

def comma : Part := (markOf ',').spelling

def semicolon : Part := (markOf ';').spelling

def opening : Part := (markOf '\x7b').spelling

def closing : Part := (markOf '\x7d').spelling

/-! ### Parts of nodes -/

def Declaration.parts (declaration : Declaration) : List Part :=
  partsOf none (trim declaration.property) ++ (markOf ':').spelling :: partsOf none (render declaration.value) ++
    if declaration.important then (markOf '!').spelling :: partsOf none "important" else []

def terminated (declarations : List Declaration) : List Part :=
  declarations.flatMap fun declaration => declaration.parts ++ [semicolon]

def separated (declarations : List Declaration) : List Part :=
  [semicolon].intercalate (declarations.map parts)

def Node.heads : Node → List String
  | .rule selector _ => selector.branches.map render
  | .statement name params => [renderHead name params]
  | .block name params _ _ => [renderHead name params]

def headParts (heads : List String) : List Part := [comma].intercalate (heads.map (partsOf none))

mutual

def Node.parts (join : List Declaration → List Part) : Node → List Part
  | .rule selector declarations =>
    if declarations.isEmpty then []
    else headParts (Node.rule selector declarations).heads ++ opening :: join declarations ++ [closing]
  | .statement name params => headParts (Node.statement name params).heads ++ [semicolon]
  | .block name params declarations children =>
    headParts (Node.block name params declarations children).heads ++ opening :: join declarations ++
      partsOfNodes join children ++ [closing]

def partsOfNodes (join : List Declaration → List Part) : List Node → List Part
  | [] => []
  | node :: rest => node.parts join ++ partsOfNodes join rest

end

/-! ### Tidy style sheets -/

def Node.isSilent : Node → Bool
  | .rule _ declarations => declarations.isEmpty
  | _ => false

def Declaration.isTidy (declaration : Declaration) : Bool :=
  isSealed none (trim declaration.property) && isSealed none (render declaration.value)

/-- The last declaration must not end in a semicolon of its own. -/
def declarationsTidy (declarations : List Declaration) : Bool :=
  declarations.all isTidy &&
    declarations.getLast?.all fun declaration => declaration.parts.getLast? != some semicolon

/-- Behind a brace, a head must not begin with what would be the sign of a number elsewhere. -/
def headsTidy (behind : Bool) (heads : List String) : Bool :=
  heads.all (isSealed none) && (!behind || heads.head?.all isDetached)

def Node.leaves (behind : Bool) : Node → Bool
  | .rule _ declarations => !declarations.isEmpty || behind
  | .statement _ _ => false
  | .block _ _ _ _ => true

mutual

/-- Whether the texts in the node keep to themselves, and no block has both declarations and
nodes that are written. `behind` says if a brace stands directly before the node. -/
def Node.isTidy (behind : Bool) : Node → Bool
  | .rule selector declarations =>
    declarations.isEmpty ||
      (headsTidy behind (Node.rule selector declarations).heads && declarationsTidy declarations)
  | .statement name params => headsTidy behind (Node.statement name params).heads
  | .block name params declarations children =>
    headsTidy behind (Node.block name params declarations children).heads && declarationsTidy declarations &&
      (declarations.isEmpty || children.all Node.isSilent) && areTidy false children

def areTidy (behind : Bool) : List Node → Bool
  | [] => true
  | node :: rest => node.isTidy behind && areTidy (node.leaves behind) rest

end

/-! ### Marks and blanks -/

theorem signed_calm : Leads .signed .calm [] [] := leads_signed.trans leads_free

theorem leads_colon : Leads .calm .signed [':'] [(markOf ':').spelling] := leads_mark_signed rfl rfl rfl

theorem leads_comma : Leads .calm .signed ",".toList [comma] := leads_mark_signed rfl rfl rfl

theorem leads_semicolon : Leads .calm .signed [';'] [semicolon] := leads_mark_signed rfl rfl rfl

theorem leads_opening : Leads .calm .signed ['\x7b'] [opening] := leads_mark_signed rfl rfl rfl

theorem leads_closing : Leads .calm .free ['\x7d'] [closing] := leads_mark rfl rfl

theorem leads_space : Leads .calm .signed [' '] [] := leads_blank rfl rfl

theorem leads_commaSpace : Leads .calm .signed ", ".toList [comma] :=
  leads_comma.trans (signed_calm.trans leads_space)

theorem leads_newline : Leads .calm .signed ['\n'] [] := leads_blank rfl rfl

theorem leads_important : Leads .calm .calm ('!' :: "important".toList)
    ((markOf '!').spelling :: partsOf none "important") := by
  have bang : Leads .calm .free ['!'] [(markOf '!').spelling] := leads_mark rfl rfl
  exact bang.trans (leads_detached (by decide +kernel) (by decide +kernel))

theorem leads_indent (level : Nat) : Leads .signed .signed (indent level).toList [] := by
  apply leads_gap
  intro c member
  simp only [indent, String.toList_join, mem_flatMap, mem_replicate] at member
  obtain ⟨_, ⟨_, rfl⟩, inside⟩ := member
  rcases mem_cons.mp inside with rfl | inside
  · rfl
  · rw [mem_singleton.mp inside]
    rfl

/-! ### Heads and declarations -/

def placeOf (behind : Bool) : Place := if behind then .free else .signed

theorem leads_heads {behind : Bool} {heads : List String} (tidy : headsTidy behind heads = true)
    {separator : String} (between : Leads .calm .signed separator.toList [comma]) :
    Leads (placeOf behind) .calm (separator.intercalate heads).toList (headParts heads) := by
  simp only [headsTidy, Bool.and_eq_true, all_eq_true, Bool.or_eq_true, Bool.not_eq_true'] at tidy
  obtain ⟨closed, detached⟩ := tidy
  rw [String.toList_intercalate, headParts]
  cases heads with
  | nil =>
    cases behind with
    | true => exact leads_free
    | false => exact signed_calm
  | cons head heads =>
    refine leads_intercalate between ?_ fun other member => leads_sealed (closed other (mem_cons_of_mem _ member))
    cases behind with
    | true => exact leads_detached (closed head mem_cons_self) (by simpa using detached)
    | false => exact leads_sealed (closed head mem_cons_self)

theorem headsTidy_false {behind : Bool} {heads : List String} (tidy : headsTidy behind heads = true) :
    headsTidy false heads = true := by
  simp_all [headsTidy]

theorem Declaration.leads_pretty {declaration : Declaration} (tidy : declaration.isTidy = true) (level : Nat) :
    Leads .signed .signed (declaration.pretty level).toList (declaration.parts ++ [semicolon]) := by
  simp only [isTidy, Bool.and_eq_true] at tidy
  have name := (leads_indent level).trans ((leads_sealed tidy.1).trans leads_colon)
  have value := name.trans (signed_calm.trans (leads_space.trans (leads_sealed tidy.2)))
  have rest := leads_semicolon.trans (signed_calm.trans leads_newline)
  cases important : declaration.important with
  | false => exact (value.trans rest).copy (by simp [pretty, important]) (by simp [parts, important])
  | true =>
    have marked := leads_space.trans (signed_calm.trans leads_important)
    exact (value.trans (marked.trans rest)).copy (by simp [pretty, important]) (by simp [parts, important])

theorem Declaration.leads_minified {declaration : Declaration} (tidy : declaration.isTidy = true) :
    Leads .signed .calm declaration.minified.toList declaration.parts := by
  simp only [isTidy, Bool.and_eq_true] at tidy
  have value := (leads_sealed tidy.1).trans (leads_colon.trans (leads_sealed tidy.2))
  cases important : declaration.important with
  | false => exact value.copy (by simp [minified, important]) (by simp [parts, important])
  | true =>
    exact (value.trans leads_important).copy (by simp [minified, important]) (by simp [parts, important])

theorem leads_prettyDeclarations {declarations : List Declaration} (tidy : declarationsTidy declarations = true)
    (level : Nat) : Leads .signed .signed (prettyDeclarations level declarations).toList (terminated declarations) := by
  simp only [declarationsTidy, Bool.and_eq_true, all_eq_true] at tidy
  replace tidy := tidy.1
  rw [prettyDeclarations, terminated]
  induction declarations with
  | nil => exact leads_nil _
  | cons declaration rest ih =>
    have first := declaration.leads_pretty (tidy declaration mem_cons_self) level
    have others := ih fun other member => tidy other (mem_cons_of_mem _ member)
    exact (first.trans others).copy (by simp) (by simp)

theorem leads_minifiedDeclarations {declarations : List Declaration} (tidy : declarationsTidy declarations = true)
    (some_ : declarations ≠ []) :
    Leads .signed .calm (minifiedDeclarations declarations).toList (separated declarations) := by
  simp only [declarationsTidy, Bool.and_eq_true, all_eq_true] at tidy
  obtain ⟨declaration, rest, rfl⟩ := exists_cons_of_ne_nil some_
  rw [minifiedDeclarations, separated, String.toList_intercalate, map_map]
  have each (other : Declaration) (member : other ∈ declaration :: rest) :=
    other.leads_minified (tidy.1 other member)
  exact leads_intercalate leads_semicolon (each declaration mem_cons_self)
    fun other member => each other (mem_cons_of_mem _ member)

/-! ### One declaration on a line -/

theorem pretty_of_isSilent {node : Node} (silent : node.isSilent = true) (level : Nat) : node.pretty level = "" := by
  cases node with
  | rule selector declarations => exact if_pos silent
  | statement => cases silent
  | block => cases silent

theorem parts_of_isSilent {node : Node} (silent : node.isSilent = true) (join : List Declaration → List Part) :
    node.parts join = [] := by
  cases node with
  | rule selector declarations => exact if_pos silent
  | statement => cases silent
  | block => cases silent

def blockLines (level : Nat) (heads : List String) (inner : String) : String :=
  indent level ++ ", ".intercalate heads ++ " \x7b\n" ++ inner ++ indent level

theorem leads_blockLines {heads : List String} (tidy : headsTidy false heads = true) (level : Nat)
    {inner : String} {parts : List Part} (inside : Leads .signed .signed inner.toList parts) :
    Leads .signed .free ((blockLines level heads inner).toList ++ ['\x7d'])
      (headParts heads ++ opening :: parts ++ [closing]) := by
  have head := (leads_indent level).trans (leads_heads tidy leads_commaSpace)
  have opens := leads_space.trans (signed_calm.trans (leads_opening.trans (signed_calm.trans leads_newline)))
  have ends := (leads_indent level).trans (signed_calm.trans leads_closing)
  exact (head.trans (opens.trans (inside.trans ends))).copy (by simp [blockLines]) (by simp)

mutual

/-- The text of a node, without the end of its last line. -/
theorem Node.leads_pretty (node : Node) (behind : Bool) (tidy : node.isTidy behind = true)
    (written : node.isSilent = false) (level : Nat) :
    ∃ own c, (node.pretty level).toList = own ++ [c, '\n'] ∧ isBlank c = false ∧
      Leads .signed .free (own ++ [c]) (node.parts terminated) := by
  cases node with
  | rule selector declarations =>
    -- A rule without declarations is silent, so this one has some.
    have some_ : declarations.isEmpty = false := written
    simp only [Node.isTidy, some_, Bool.false_or, Bool.and_eq_true] at tidy
    have leads := leads_blockLines (headsTidy_false tidy.1) level (leads_prettyDeclarations tidy.2 (level + 1))
    refine ⟨_, '\x7d', ?_, rfl, leads.copy rfl ?_⟩
    · simp [Node.pretty, some_, blockLines, renderSelector, Node.heads]
    · simp [Node.parts, some_]
  | statement name params =>
    have head := leads_heads (headsTidy_false tidy) leads_comma
    refine ⟨(indent level ++ renderHead name params).toList, ';', ?_, rfl, ?_⟩
    · simp [Node.pretty]
    · exact (((leads_indent level).trans (head.trans leads_semicolon)).trans leads_signed).copy
        (by simp [Node.heads]) (by simp [Node.parts])
  | block name params declarations children =>
    simp only [Node.isTidy, Bool.and_eq_true] at tidy
    obtain ⟨⟨⟨head, own⟩, _⟩, inner⟩ := tidy
    have inside := (leads_prettyDeclarations own (level + 1)).trans (leads_prettyNodes children _ inner (level + 1))
    rw [← String.toList_append] at inside
    have leads := leads_blockLines (headsTidy_false head) level inside
    refine ⟨_, '\x7d', ?_, rfl, leads.copy rfl ?_⟩
    · simp [Node.pretty, blockLines, Node.heads]
    · simp [Node.parts]

theorem leads_prettyNodes (nodes : List Node) (behind : Bool) (tidy : areTidy behind nodes = true) (level : Nat) :
    Leads .signed .signed (prettyNodes level nodes).toList (partsOfNodes terminated nodes) := by
  cases nodes with
  | nil => exact leads_nil _
  | cons node rest =>
    simp only [areTidy, Bool.and_eq_true] at tidy
    have others := leads_prettyNodes rest _ tidy.2 level
    cases written : node.isSilent with
    | true =>
      exact others.copy (by simp [prettyNodes, pretty_of_isSilent written])
        (by simp [partsOfNodes, parts_of_isSilent written])
    | false =>
      obtain ⟨own, c, text, _, leads⟩ := node.leads_pretty behind tidy.1 written level
      exact ((leads.trans (leads_free.trans leads_newline)).trans others).copy (by simp [prettyNodes, text])
        (by simp [partsOfNodes])

end

/-- The texts of nodes with an empty line between them, without the end of the last line. -/
theorem leads_prettyLines (nodes : List Node) (behind : Bool) (tidy : areTidy behind nodes = true) :
    partsOfNodes terminated nodes = [] ∧ (nodes.map (Node.pretty 0)).filter (fun block => !block.isEmpty) = [] ∨
    ∃ own c, ("\n".intercalate ((nodes.map (Node.pretty 0)).filter fun block => !block.isEmpty)).toList =
      own ++ [c, '\n'] ∧ isBlank c = false ∧ Leads .signed .free (own ++ [c]) (partsOfNodes terminated nodes) := by
  induction nodes generalizing behind with
  | nil => exact .inl ⟨rfl, rfl⟩
  | cons node rest ih =>
    simp only [areTidy, Bool.and_eq_true] at tidy
    have others := ih _ tidy.2
    cases written : node.isSilent with
    | true => simpa [partsOfNodes, pretty_of_isSilent written, parts_of_isSilent written] using others
    | false =>
      obtain ⟨own, c, text, solid, leads⟩ := node.leads_pretty behind tidy.1 written 0
      have some_ : (node.pretty 0).isEmpty = false := by
        rw [Bool.eq_false_iff, Ne, String.isEmpty_iff]
        intro empty
        simp [empty] at text
      rw [map_cons, filter_cons_of_pos (by simp [some_]), partsOfNodes, String.toList_intercalate]
      -- An empty line stands only between nodes that are both written.
      rcases others with ⟨nothing, empty⟩ | ⟨own', c', text', solid', leads'⟩
      · refine .inr ⟨own, c, by simp [empty, text], solid, leads.copy rfl (by simp [nothing])⟩
      · refine .inr ⟨own ++ c :: '\n' :: '\n' :: own', c', ?_, solid', ?_⟩
        · rw [String.toList_intercalate] at text'
          cases blocks : (rest.map (Node.pretty 0)).filter fun block => !block.isEmpty with
          | nil => simp [blocks] at text'
          | cons block blocks =>
            rw [blocks] at text'
            rw [map_cons, map_cons, intercalate_cons_cons, ← map_cons, text, text']
            simp
        · have lines := leads_free.trans (leads_newline.trans (signed_calm.trans leads_newline))
          exact ((leads.trans lines).trans leads').copy (by simp) (by simp)

theorem trimChars_line {own : List Char} {c : Char} (solid : isBlank c = false) :
    trimChars (own ++ [c, '\n']) = (own ++ [c]).dropWhile isBlank := by
  have newline : isBlank '\n' = true := rfl
  have start : (own ++ [c, '\n']).dropWhile isBlank = (own ++ [c]).dropWhile isBlank ++ ['\n'] := by
    rw [dropWhile_append, dropWhile_append]
    split
    · simp [solid]
    · simp
  obtain ⟨own', ends⟩ : ∃ own', (own ++ [c]).dropWhile isBlank = own' ++ [c] := by
    rw [dropWhile_append]
    split
    · exact ⟨[], by simp [solid]⟩
    · exact ⟨_, rfl⟩
  rw [trimChars, start, ends]
  simp [newline, solid]

/-- A tidy style sheet is read as its parts, each declaration with its semicolon. -/
theorem scans_pretty {nodes : Stylesheet} (tidy : areTidy false nodes = true) :
    Tokens.Scans none (pretty nodes).toList (partsOfNodes terminated nodes) := by
  rw [pretty, trim, String.toList_ofList]
  rcases leads_prettyLines nodes false tidy with ⟨nothing, empty⟩ | ⟨own, c, text, solid, leads⟩
  · rw [nothing, empty]
    exact Tokens.scans_nil none
  · rw [text, trimChars_line solid]
    have scans := leads [] [] Tokens.scans_nil none rfl
    rw [append_nil, append_nil] at scans
    exact scans.dropBlanks rfl rfl

/-! ### As short as possible -/

theorem minified_of_silent {nodes : List Node} (silent : nodes.all Node.isSilent = true) : minified nodes = "" := by
  induction nodes with
  | nil => rfl
  | cons node rest ih =>
    obtain ⟨first, others⟩ := Bool.and_eq_true_iff.mp silent
    rw [minified, ih others, String.append_empty]
    cases node with
    | rule selector declarations => exact if_pos first
    | statement => cases first
    | block => cases first

theorem partsOfNodes_of_silent {nodes : List Node} (silent : nodes.all Node.isSilent = true)
    (join : List Declaration → List Part) : partsOfNodes join nodes = [] := by
  induction nodes with
  | nil => rfl
  | cons node rest ih =>
    obtain ⟨first, others⟩ := Bool.and_eq_true_iff.mp silent
    rw [partsOfNodes, parts_of_isSilent first, ih others, append_nil]

mutual

theorem Node.leads_minified (node : Node) (behind : Bool) (tidy : node.isTidy behind = true) :
    Leads (placeOf behind) (placeOf (node.leaves behind)) node.minified.toList (node.parts separated) := by
  cases node with
  | rule selector declarations =>
    cases some_ : declarations.isEmpty with
    | true =>
      rw [show (Node.rule selector declarations).leaves behind = behind by simp [Node.leaves, some_]]
      exact (leads_nil _).copy (by simp [Node.minified, some_]) (by simp [Node.parts, some_])
    | false =>
      rw [show (Node.rule selector declarations).leaves behind = true by simp [Node.leaves, some_]]
      simp only [Node.isTidy, some_, Bool.false_or, Bool.and_eq_true] at tidy
      have head := (leads_heads tidy.1 leads_comma).trans leads_opening
      have inside := leads_minifiedDeclarations tidy.2 (by simpa using some_)
      exact (head.trans (inside.trans leads_closing)).copy
        (by simp [Node.minified, some_, renderSelector, Node.heads]) (by simp [Node.parts, some_])
  | statement name params =>
    exact ((leads_heads tidy leads_comma).trans leads_semicolon).copy (by simp [Node.minified, Node.heads])
      (by simp [Node.parts])
  | block name params declarations children =>
    simp only [Node.isTidy, Bool.and_eq_true] at tidy
    obtain ⟨⟨⟨head, own⟩, apart⟩, inner⟩ := tidy
    have head := (leads_heads head leads_comma).trans leads_opening
    -- Nothing stands between declarations and nodes in this form, but a tidy block has only one of the two.
    cases some_ : declarations.isEmpty with
    | true =>
      have inside := leads_minifiedNodes children _ inner
      obtain rfl := List.isEmpty_iff.mp some_
      exact (head.trans (inside.trans (leads_free.trans leads_closing))).copy
        (by simp [Node.minified, minifiedDeclarations, Node.heads]) (by simp [Node.parts, separated])
    | false =>
      have silent : children.all Node.isSilent = true := by simpa [some_] using apart
      have inside := leads_minifiedDeclarations own (by simpa using some_)
      exact (head.trans (inside.trans leads_closing)).copy
        (by simp [Node.minified, minified_of_silent silent, Node.heads])
        (by simp [Node.parts, partsOfNodes_of_silent silent])

theorem leads_minifiedNodes (nodes : List Node) (behind : Bool) (tidy : areTidy behind nodes = true) :
    Leads (placeOf behind) .free (minified nodes).toList (partsOfNodes separated nodes) := by
  cases nodes with
  | nil =>
    cases behind with
    | true => exact leads_nil _
    | false => exact leads_signed
  | cons node rest =>
    simp only [areTidy, Bool.and_eq_true] at tidy
    have first := node.leads_minified behind tidy.1
    have others := leads_minifiedNodes rest _ tidy.2
    exact (first.trans others).copy (by simp [minified]) (by simp [partsOfNodes])

end

/-- A tidy style sheet is read as its parts, with semicolons between the declarations. -/
theorem scans_minified {nodes : Stylesheet} (tidy : areTidy false nodes = true) :
    Tokens.Scans none (minified nodes).toList (partsOfNodes separated nodes) := by
  have scans := leads_minifiedNodes nodes false tidy [] [] Tokens.scans_nil none rfl
  rwa [append_nil, append_nil] at scans

end LessCss.Css
