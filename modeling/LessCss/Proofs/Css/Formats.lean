import LessCss.Compile
import LessCss.Proofs.Css.Parts

/-! The two forms of a compiled style sheet denote the same tokens. Main statement:
if what a text evaluates to is tidy, both forms are read without a fault, and the
two readings are equal up to whitespace and semicolons in front of closing braces. -/

set_option autoImplicit false

namespace LessCss

open List Css

namespace Css

/-- The parts without each semicolon that stands directly before a closing brace. -/
def dropSemicolons : List Part → List Part
  | [] => []
  | part :: rest =>
    if part = semicolon ∧ rest.head? = some closing then dropSemicolons rest else part :: dropSemicolons rest

/-- Lists that are the same without such semicolons, also when more stands before them. -/
def Alike (parts others : List Part) : Prop :=
  dropSemicolons parts = dropSemicolons others ∧ parts.head? = others.head?

variable {parts others own : List Part}

theorem Alike.append (alike : Alike parts others) (own : List Part) : Alike (own ++ parts) (own ++ others) := by
  induction own with
  | nil => exact alike
  | cons part own ih =>
    refine ⟨?_, rfl⟩
    rw [cons_append, cons_append, dropSemicolons, dropSemicolons, ih.1, ih.2]

/-- One semicolon more or less in front of a closing brace, unless it stands behind another one. -/
theorem Alike.close (alike : Alike parts others) (some_ : own ≠ []) (plain : own.getLast? ≠ some semicolon) :
    Alike (own ++ semicolon :: closing :: parts) (own ++ closing :: others) := by
  obtain ⟨own, part, rfl⟩ := (eq_nil_or_concat own).resolve_left some_
  have other : part ≠ semicolon := by simpa using plain
  have same := (alike.append [closing]).1
  have last : Alike (part :: semicolon :: closing :: parts) (part :: closing :: others) := by
    refine ⟨?_, rfl⟩
    rw [dropSemicolons, if_neg (other ·.1), dropSemicolons, if_pos ⟨rfl, rfl⟩, dropSemicolons.eq_2 part,
      if_neg (other ·.1)]
    exact congrArg (part :: ·) same
  simpa using last.append own

/-! ### Declarations -/

theorem Declaration.parts_ne_nil (declaration : Declaration) : declaration.parts ≠ [] := by
  simp [parts]

theorem terminated_eq {declarations : List Declaration} (some_ : declarations ≠ []) :
    terminated declarations = separated declarations ++ [semicolon] := by
  induction declarations with
  | nil => exact absurd rfl some_
  | cons declaration rest ih =>
    cases rest with
    | nil => simp [terminated, separated]
    | cons next rest =>
      have others := ih (cons_ne_nil _ _)
      simp only [terminated, separated, flatMap_cons, map_cons, intercalate_cons_cons] at others ⊢
      rw [others]
      simp

theorem separated_ends {declarations : List Declaration} (some_ : declarations ≠ [])
    (tidy : declarationsTidy declarations = true) :
    separated declarations ≠ [] ∧ (separated declarations).getLast? ≠ some semicolon := by
  simp only [declarationsTidy, Bool.and_eq_true] at tidy
  have plain := tidy.2
  clear tidy
  induction declarations with
  | nil => exact absurd rfl some_
  | cons declaration rest ih =>
    cases rest with
    | nil => exact ⟨by simpa [separated] using declaration.parts_ne_nil, by simpa [separated] using plain⟩
    | cons next rest =>
      obtain ⟨more, last⟩ := ih (cons_ne_nil _ _) (by simpa using plain)
      rw [separated, map_cons, map_cons, intercalate_cons_cons, ← map_cons, ← separated]
      refine ⟨by simp, ?_⟩
      rw [List.getLast?_append, Option.or_of_isSome (by simpa using more)]
      exact last

/-! ### Nodes -/

theorem Alike.block (alike : Alike parts others) {declarations : List Declaration} (some_ : declarations ≠ [])
    (tidy : declarationsTidy declarations = true) :
    Alike (terminated declarations ++ closing :: parts) (separated declarations ++ closing :: others) := by
  obtain ⟨more, last⟩ := separated_ends some_ tidy
  rw [terminated_eq some_]
  simpa using alike.close more last

mutual

theorem Node.alike (node : Node) (behind : Bool) (tidy : node.isTidy behind = true) {parts others : List Part}
    (after : Alike parts others) : Alike (node.parts terminated ++ parts) (node.parts separated ++ others) := by
  cases node with
  | rule selector declarations =>
    cases some_ : declarations.isEmpty with
    | true => simpa [Node.parts, some_] using after
    | false =>
      simp only [Node.isTidy, some_, Bool.false_or, Bool.and_eq_true] at tidy
      have block := after.block (by simpa using some_) tidy.2
      simpa [Node.parts, some_] using block.append (headParts (Node.rule selector declarations).heads ++ [opening])
  | statement name params => exact after.append _
  | block name params declarations children =>
    simp only [Node.isTidy, Bool.and_eq_true] at tidy
    obtain ⟨⟨⟨_, own⟩, apart⟩, inner⟩ := tidy
    have inside : Alike (terminated declarations ++ (partsOfNodes terminated children ++ closing :: parts))
        (separated declarations ++ (partsOfNodes separated children ++ closing :: others)) := by
      -- A tidy block has declarations or nodes that are written, never both.
      cases some_ : declarations.isEmpty with
      | true =>
        obtain rfl := List.isEmpty_iff.mp some_
        exact alike_nodes children _ inner (after.append [closing])
      | false =>
        have silent : children.all Node.isSilent = true := by simpa [some_] using apart
        rw [partsOfNodes_of_silent silent, partsOfNodes_of_silent silent]
        exact after.block (by simpa using some_) own
    simpa [Node.parts] using inside.append (headParts (Node.block name params declarations children).heads ++ [opening])

theorem alike_nodes (nodes : List Node) (behind : Bool) (tidy : areTidy behind nodes = true)
    {parts others : List Part} (after : Alike parts others) :
    Alike (partsOfNodes terminated nodes ++ parts) (partsOfNodes separated nodes ++ others) := by
  cases nodes with
  | nil => exact after
  | cons node rest =>
    simp only [areTidy, Bool.and_eq_true] at tidy
    have rest := alike_nodes rest _ tidy.2 after
    simpa [partsOfNodes] using node.alike behind tidy.1 rest

end

end Css

def stylesheet (library : Library) (name : Option String) (text : String) : Logged Css.Stylesheet := do
  let sheet ← Sheet.read (name.getD defaultSourceName) text
  sheet.evaluate library

theorem outcome_map {α β : Type} (change : α → β) (action : Logged α) :
    (change <$> action).outcome.1 = action.outcome.1.map change := by
  simp only [Logged.outcome, EStateM.run, Functor.map, EStateM.map]
  cases action [] <;> rfl

theorem compileWith_eq_map (library : Library) (options : Options) (text : String) :
    compileWith library options text = print options.minify <$> stylesheet library options.sourceName text := by
  simp [compileWith, stylesheet]

/-- Both forms are read without a fault and, up to whitespace and semicolons in front of closing
braces, as the same tokens. -/
theorem formats_denote_same {library : Library} {name : Option String} {text : String} {nodes : Css.Stylesheet}
    (evaluated : (stylesheet library name text).outcome.1 = .ok nodes) (tidy : areTidy false nodes = true)
    (source : String) :
    ∃ pretty minified : String, ∃ tokens others : Tokens,
      (compileWith library ⟨false, name⟩ text).outcome.1 = .ok pretty ∧
      (compileWith library ⟨true, name⟩ text).outcome.1 = .ok minified ∧
      (Scan.ofText source pretty).complete = .ok tokens ∧ (Scan.ofText source minified).complete = .ok others ∧
      dropSemicolons tokens.solid = dropSemicolons others.solid := by
  obtain ⟨tokens, ended, parted⟩ := (scans_pretty tidy).complete source
  obtain ⟨others, ended', parted'⟩ := (scans_minified tidy).complete source
  have printed (minify : Bool) :
      (compileWith library ⟨minify, name⟩ text).outcome.1 = .ok (print minify nodes) := by
    rw [compileWith_eq_map, outcome_map, evaluated]
    rfl
  refine ⟨pretty nodes, minified nodes, tokens, others, printed false, printed true, ended, ended', ?_⟩
  have alike : Css.Alike _ _ := alike_nodes nodes false tidy (⟨rfl, rfl⟩ : Css.Alike [] [])
  rw [parted, parted']
  simpa using alike.1

def mixedRules : String :=
  "@charset \"utf-8\"; .a, .b > c \x7b color: red !important; margin: 0 -1px \x7d @media print \x7b .x \x7b top: 1px \x7d \x7d d \x7b left: url(e) \x7d"

theorem mixedRules_denote_same : ∃ pretty minified : String, ∃ tokens others : Tokens,
    (compileWith .empty ⟨false, none⟩ mixedRules).outcome.1 = .ok pretty ∧
    (compileWith .empty ⟨true, none⟩ mixedRules).outcome.1 = .ok minified ∧
    (Scan.ofText "out" pretty).complete = .ok tokens ∧ (Scan.ofText "out" minified).complete = .ok others ∧
    dropSemicolons tokens.solid = dropSemicolons others.solid := by
  have checked : ((stylesheet .empty none mixedRules).outcome.1.toOption.any (areTidy false)) = true := by
    decide +kernel
  cases evaluated : (stylesheet .empty none mixedRules).outcome.1 with
  | error error =>
    rw [evaluated] at checked
    cases checked
  | ok nodes =>
    rw [evaluated] at checked
    exact formats_denote_same evaluated checked "out"

def looseDeclaration : String := "@media print \x7b color: red; .x \x7b top: 1px \x7d \x7d"

theorem looseDeclaration_told_apart : ∃ pretty minified : String, ∃ tokens others : Tokens,
    (compile ⟨false, none⟩ looseDeclaration).outcome.1.toOption = some pretty ∧
    (compile ⟨true, none⟩ looseDeclaration).outcome.1.toOption = some minified ∧
    (Scan.ofText "out" pretty).complete.toOption = some tokens ∧
    (Scan.ofText "out" minified).complete.toOption = some others ∧
    dropSemicolons tokens.solid ≠ dropSemicolons others.solid := by
  let pretty := "@media print \x7b\n  color: red;\n  .x \x7b\n    top: 1px;\n  \x7d\n\x7d"
  let minified := "@media print\x7bcolor:red.x\x7btop:1px\x7d\x7d"
  refine ⟨pretty, minified, (Scan.ofText "out" pretty).tokens, (Scan.ofText "out" minified).tokens, ?_⟩
  decide +kernel

end LessCss
