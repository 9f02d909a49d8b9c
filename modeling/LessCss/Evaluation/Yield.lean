import LessCss.Extension

/-! What evaluation puts out: declarations for the rule at hand, nodes that
follow it, and directives that extend selectors. -/

set_option autoImplicit false

namespace LessCss

/-- Declarations for the rule at hand, and nodes that follow it. -/
structure Output where
  declarations : List Css.Declaration
  nodes : Css.Stylesheet

namespace Output

def empty : Output := ⟨[], []⟩

instance : Append Output where
  append first second := ⟨first.declarations ++ second.declarations, first.nodes ++ second.nodes⟩

/-- Marks the declarations, but not those inside the nodes, as important. -/
def markImportant (important : Bool) (output : Output) : Output :=
  { output with
    declarations := output.declarations.map fun declaration =>
      { declaration with important := declaration.important || important } }

end Output

structure Yield extends Output where
  extensions : List Extension

namespace Yield

def empty : Yield := ⟨.empty, []⟩

instance : Append Yield where
  append first second :=
    ⟨first.toOutput ++ second.toOutput, first.extensions ++ second.extensions⟩

def ofDeclaration (declaration : Css.Declaration) : Yield := ⟨⟨[declaration], []⟩, []⟩

def ofExtensions (extensions : List Extension) : Yield := ⟨.empty, extensions⟩

def concat : List Yield → Yield
  | [] => empty
  | first :: rest => first ++ concat rest

def markImportant (important : Bool) (yield : Yield) : Yield :=
  { yield with toOutput := yield.toOutput.markImportant important }

end Yield

end LessCss
