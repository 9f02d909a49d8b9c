import LessCss.Proofs.Sheet.Flat
import LessCss.Proofs.Sheet.Forest
import LessCss.Proofs.Spacing.Readers
import LessCss.Proofs.Statement.Forms

/-! Evaluation where there is nothing to compute. Main statement: a flat sheet without
holes, calls and operators is put out as it stands, one rule for each ruleset. -/

set_option autoImplicit false

namespace LessCss

open List

open Tokens

namespace Environment

variable (env : Environment) (grouped : Bool)

theorem mapM_interpolateToken {tokens : Tokens} (plain : ∀ token ∈ tokens, '@' ∉ token.text.toList) :
    tokens.mapM (env.interpolateToken grouped) = .ok tokens := by
  induction tokens with
  | nil => rfl
  | cons token rest ih =>
    obtain ⟨first, others⟩ := forall_mem_cons.mp plain
    rw [mapM_cons, interpolateToken_of_plain env grouped first, ih others]
    rfl

end Environment

def Statement.literal (tokens : Tokens) : Css.Declaration :=
  let parts := (declaration? tokens).getD ([], [])
  ⟨parts.1.text, (stripImportant parts.2).1, (stripImportant parts.2).2⟩

/-- A statement is a declaration with nothing to compute. -/
def Statement.IsLiteral (library : Library) (tokens : Tokens) : Prop :=
  Declares tokens ∧ ∃ property value, declaration? tokens = some (property, value) ∧
    computes library (stripImportant value).1 = false

def Ruleset.literal (ruleset : Ruleset) : Css.Node :=
  .rule (joinBranches ruleset.selector.tokens.branches) (ruleset.statements.map Statement.literal)

namespace Sheet

variable (library : Library) {sheet : Sheet}

theorem declare_literal {tokens : Tokens} (literal : Statement.IsLiteral library tokens)
    (plain : ∀ token ∈ tokens, '@' ∉ token.text.toList) (scope : Scope) :
    declare library scope tokens = .ok (Statement.literal tokens) := by
  obtain ⟨_, property, value, found, idle⟩ := literal
  obtain ⟨before, colon, after, rfl, rfl, rfl, _⟩ := Statement.exists_of_declaration? found
  have interpolated : scope.interpolateTokens library (trim before) = .ok (trim before) :=
    Environment.mapM_interpolateToken _ _ fun token member => plain token (by simp [mem_of_mem_trim member])
  have evaluated : scope.evaluate library (Statement.stripImportant (trim after)).1 =
      .ok (Statement.stripImportant (trim after)).1 := by
    rw [Scope.evaluate, Environment.evaluate, if_neg (by simpa [Scope.environment] using idle)]
    refine Environment.mapM_interpolateToken _ _ fun token member => plain token ?_
    have inside := mem_of_mem_trim (Statement.mem_of_stripImportant (trim_trim after) member)
    simp [inside]
  rw [declare, found]
  dsimp only
  rw [interpolated]
  change (scope.evaluate library (Statement.stripImportant (trim after)).1 >>= _) = _
  rw [evaluated, Statement.literal, found]
  rfl

/-- In a flat sheet the rulesets outside all others are all rulesets. -/
theorem map_roots (items : sheet.items = (List.range sheet.rulesets.size).map .ruleset) :
    sheet.roots.map sheet.ruleset = sheet.rulesets.toList := by
  have ids : sheet.roots.map Fin.val = List.range sheet.rulesets.size := by
    rw [map_roots_val, items, filterMap_map]
    exact filterMap_some
  have found (id : sheet.Id) : some (sheet.ruleset id) = sheet.rulesets[id.val]? := by
    rw [Array.getElem?_eq_getElem id.isLt]
    rfl
  apply (List.map_inj_right fun _ _ same => Option.some.inj same).mp
  calc (sheet.roots.map sheet.ruleset).map some
      = (sheet.roots.map Fin.val).map (sheet.rulesets[·]?) := by
        rw [map_map, map_map]
        exact map_congr_left fun id _ => found id
    _ = sheet.rulesets.toList.map some := by
        rw [ids]
        apply ext_getElem
        · simp
        · intro i bound bound'
          simp

/-- A ruleset of a flat sheet is put out as it stands. -/
theorem flattenAt_literal {id : sheet.Id} (kind : (sheet.ruleset id).kind = .plain)
    (alone : (sheet.ruleset id).nested = [])
    (literal : ∀ tokens ∈ (sheet.ruleset id).statements, Statement.IsLiteral library tokens ∧
      ∀ token ∈ tokens, '@' ∉ token.text.toList)
    (plain : ∀ token ∈ (sheet.ruleset id).selector.tokens, '@' ∉ token.text.toList) :
    sheet.flattenAt library [] id = .ok [(sheet.ruleset id).literal] := by
  have declared : (sheet.ruleset id).statements.mapM (declare library (sheet.lexicalScope id)) =
      .ok ((sheet.ruleset id).statements.map Statement.literal) := by
    generalize (sheet.ruleset id).statements = list at literal
    induction list with
    | nil => rfl
    | cons tokens rest ih =>
      obtain ⟨first, others⟩ := forall_mem_cons.mp literal
      rw [mapM_cons, declare_literal library first.1 first.2, ih others]
      rfl
  have none_ : sheet.nested id = [] := eq_nil_of_length_eq_zero (by simp [nested, alone])
  have interpolated : (sheet.lexicalScope id).interpolateTokens library (sheet.ruleset id).selector.tokens =
      .ok (sheet.ruleset id).selector.tokens :=
    Environment.mapM_interpolateToken _ _ plain
  rw [flattenAt, kind]
  dsimp only
  rw [interpolated, declared, none_]
  rfl

/-- A flat sheet is put out as it stands. -/
theorem flatten_literal (items : sheet.items = (List.range sheet.rulesets.size).map .ruleset)
    (each : ∀ ruleset ∈ sheet.rulesets, ruleset.kind = .plain ∧ ruleset.nested = [] ∧
      (∀ tokens ∈ ruleset.statements, Statement.IsLiteral library tokens ∧ ∀ token ∈ tokens, '@' ∉ token.text.toList) ∧
      ∀ token ∈ ruleset.selector.tokens, '@' ∉ token.text.toList) :
    sheet.flatten library = .ok (sheet.rulesets.toList.map Ruleset.literal) := by
  have one (id : sheet.Id) : sheet.flattenAt library [] id = .ok [(sheet.ruleset id).literal] := by
    obtain ⟨kind, alone, literal, plain⟩ := each (sheet.ruleset id) (Array.getElem_mem id.isLt)
    exact flattenAt_literal library kind alone literal plain
  have all (ids : List sheet.Id) : ids.mapM (sheet.flattenAt library []) =
      .ok (ids.map fun id => [(sheet.ruleset id).literal]) := by
    induction ids with
    | nil => rfl
    | cons id ids ih =>
      rw [mapM_cons, one, ih]
      rfl
  rw [flatten, all, ← map_roots items, map_map]
  change Except.ok (List.flatten _) = _
  rw [← flatMap_def, map_eq_flatMap]
  rfl

end Sheet

end LessCss
