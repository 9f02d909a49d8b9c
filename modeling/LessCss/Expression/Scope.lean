import LessCss.Expression.Condition
import LessCss.Expression.Items
import LessCss.Variables

/-! Scopes: maps of variables, one inside the other. A name means the entry in
the innermost map that has one. Variables are evaluated where they are used, in
the scope of their use; one that refers to itself on the way is refused. -/

set_option autoImplicit false

namespace LessCss

open List

abbrev Scope := List Variables

namespace Scope

def find? (scope : Scope) (name : String) : Option Tokens :=
  scope.findSome? (·.get? name)

def names (scope : Scope) : List String :=
  scope.flatMap Variables.names

theorem mem_names_of_find? {scope : Scope} {name : String} {tokens : Tokens}
    (found : scope.find? name = some tokens) : name ∈ scope.names := by
  obtain ⟨vars, member, read⟩ := List.exists_of_findSome?_eq_some found
  exact mem_flatMap.mpr ⟨vars, member, Variables.mem_names_of_get? read⟩

def idle (scope : Scope) (active : List String) : Nat :=
  (scope.names.filter fun name => !active.contains name).length

theorem idle_cons_lt {scope : Scope} {active : List String} {name : String}
    (member : name ∈ scope.names) (fresh : name ∉ active) :
    scope.idle (name :: active) < scope.idle active := by
  have shrink : (scope.names.filter fun key => !(name :: active).contains key) =
      (scope.names.filter fun key => !active.contains key).filter (· != name) := by
    rw [filter_filter]
    congr 1
    funext key
    simp only [contains_cons, Bool.not_or, bne]
  unfold idle
  rw [shrink]
  apply length_filter_lt_length_iff_exists.mpr
  exact ⟨name, by simp [member, fresh], by simp⟩

end Scope

def Definition.recursive (name : String) : Definition where
  value? _ at_ := .error (.faulty at_ (.recursiveVariable name))
  tokens _ at_ := .error (.faulty at_ (.recursiveVariable name))

def Definition.ofTokens (env : Environment) (tokens : Tokens) : Definition where
  value? grouped _ := env.evaluateSingle grouped tokens
  tokens grouped _ := (env.evaluate grouped tokens).map Tokens.trim

namespace Scope

def definition? (library : Library) (scope : Scope) (active : List String) (name : String) :
    Option Definition :=
  match _found : scope.find? name with
  | none => none
  | some tokens =>
    if _fresh : name ∈ active then some (.recursive name)
    else some (.ofTokens ⟨library, fun key => definition? library scope (name :: active) key⟩ tokens)
termination_by scope.idle active
decreasing_by exact idle_cons_lt (mem_names_of_find? _found) _fresh

def environment (library : Library) (scope : Scope) : Environment :=
  ⟨library, scope.definition? library []⟩

def evaluate (library : Library) (scope : Scope) (tokens : Tokens) : Except Error Tokens :=
  (scope.environment library).evaluate false tokens

def holds (library : Library) (scope : Scope) (condition : Tokens) : Except Error Bool :=
  (scope.environment library).holds false condition

def interpolate (library : Library) (scope : Scope) (at_ : Token) (text : String) : Except Error String :=
  (scope.environment library).interpolate false at_ text

def interpolateTokens (library : Library) (scope : Scope) (tokens : Tokens) : Except Error Tokens :=
  tokens.mapM ((scope.environment library).interpolateToken false)

end Scope

end LessCss
