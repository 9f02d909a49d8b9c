import LessCss.Processor.Values
import LessCss.Proofs.Processor.Readers

/-! Whole values and conditions leave the processor as they found it, and have
the results that `Environment` gives.

In a scope the assumption about variables holds: a variable that is under
evaluation is refused, and any other one is evaluated while one name less is
idle. So evaluation in place ends, whatever the variables refer to. -/

set_option autoImplicit false

namespace LessCss.Setting

open Processing (Keeps keeps_pure keeps_throw keeps_ite keeps_mapM)

namespace Handles

variable {setting : Setting} {env : Environment} {active : List String}

theorem substitute (handles : Handles setting env active) (parens : Nat) (tokens : Tokens) :
    Keeps (setting.substitute tokens) ⟨parens, active⟩ (env.substitute (parens != 0) tokens) := by
  rw [Setting.substitute, Environment.substitute]
  refine (keeps_mapM tokens fun token => ?_).bind fun parts => keeps_pure _
  exact keeps_ite (fun _ => handles.resolve parens token) fun _ => keeps_pure _

theorem carryIdentifier (handles : Handles setting env active) (parens : Nat) (token : Token)
    (tokens : Tokens) :
    Keeps (setting.carryIdentifier token tokens) ⟨parens, active⟩
      (env.carryIdentifier (parens != 0) token tokens) := by
  have filled := handles.interpolateToken parens token
  cases tokens with
  | nil => exact filled.map fun token => keeps_pure _
  | cons next rest =>
    rw [Setting.carryIdentifier, Environment.carryIdentifier]
    refine keeps_ite (fun _ => filled.map fun token => keeps_pure _) fun _ => ?_
    refine keeps_ite (fun _ => ?_) fun _ => filled.map fun token => keeps_pure _
    exact (handles.substitute parens _).map fun group => keeps_pure _

theorem carry (handles : Handles setting env active) (parens : Nat) (token : Token) (tokens : Tokens) :
    Keeps (setting.carry token tokens) ⟨parens, active⟩
      (env.carry (parens != 0) token tokens) := by
  have filled := handles.interpolateToken parens token
  rw [Setting.carry, Environment.carry]
  cases token.kind with
  | atKeyword => exact (handles.resolve parens token).map fun value => keeps_pure _
  | identifier => exact handles.carryIdentifier parens token tokens
  | string => exact filled.map fun token => keeps_pure _
  | url => exact filled.map fun token => keeps_pure _
  | _ => exact keeps_pure _

-- Both computations test what is left after the blanks, so two of the four cases
-- contradict each other.
theorem items (handles : Handles setting env active) (parens : Nat) (last : Option Kind) (tokens : Tokens) :
    Keeps (setting.items last tokens) ⟨parens, active⟩
      (env.evaluateItems (parens != 0) last tokens) := by
  rw [Environment.evaluateItems]
  split
  · rename_i start
    rw [Setting.items]
    split
    · exact keeps_pure _
    · rename_i start'
      cases start.symm.trans start'
  · rename_i first others start
    have shorter := tokens.length_lt_of_trimLeft start
    rw [Setting.items]
    split
    · rename_i start'
      cases start.symm.trans start'
    · rename_i first' others' start'
      cases start.symm.trans start'
      refine (handles.statement parens (first :: others)).bind fun reading => ?_
      cases reading with
      | found value rest shorter' =>
        exact (handles.items parens _ rest).bind fun written => keeps_pure _
      | absent rest bounded =>
        cases rest with
        | nil => exact keeps_pure _
        | cons token rest =>
          refine (handles.carry parens token rest).bind fun carried => ?_
          exact (handles.items parens _ carried.rest).bind fun written => keeps_pure _
termination_by tokens.length
decreasing_by
  · simp only [List.length_cons] at shorter'
    omega
  · have := carried.bounded
    simp only [List.length_cons] at bounded
    omega

theorem value (handles : Handles setting env active) (parens : Nat) (tokens : Tokens) :
    Keeps (setting.value tokens) ⟨parens, active⟩ (env.evaluate (parens != 0) tokens) := by
  rw [Setting.value, Environment.evaluate, handles.library]
  refine keeps_ite (fun _ => handles.items parens none tokens) fun _ => ?_
  exact keeps_mapM tokens (handles.interpolateToken parens)

theorem interpolateTokens (handles : Handles setting env active) (parens : Nat) (tokens : Tokens) :
    Keeps (setting.interpolateTokens tokens) ⟨parens, active⟩
      (tokens.mapM (env.interpolateToken (parens != 0))) :=
  keeps_mapM tokens (handles.interpolateToken parens)

theorem conjunct (handles : Handles setting env active) (parens : Nat) (at_ : Token) (tokens : Tokens) :
    Keeps (setting.conjunct at_ tokens) ⟨parens, active⟩
      (env.conjunct (parens != 0) at_ tokens) := by
  rw [Setting.conjunct, Environment.conjunct]
  refine (handles.statement parens (conjunctStart tokens)).bind fun reading => ?_
  cases reading with
  | absent rest bounded => exact keeps_throw _
  | found value rest shorter =>
    cases value with
    | boolean holds => exact keeps_pure _
    | _ => exact keeps_throw _

theorem conjunction (handles : Handles setting env active) (parens : Nat) (at_ : Token) (tokens : Tokens) :
    Keeps (setting.conjunction at_ tokens) ⟨parens, active⟩
      (env.conjunction (parens != 0) at_ tokens) := by
  rw [Setting.conjunction, Environment.conjunction]
  refine (handles.conjunct parens at_ tokens).bind fun read => ?_
  obtain ⟨holds, rest, bounded⟩ := read
  refine keeps_ite (fun _ => keeps_pure false) fun _ => ?_
  dsimp only
  cases start : rest.trimLeft with
  | nil => exact keeps_pure true
  | cons token after =>
    have shorter := Nat.lt_of_lt_of_le (rest.length_lt_of_trimLeft start) bounded
    exact keeps_ite (fun _ => handles.conjunction parens at_ after) fun _ => keeps_throw _
termination_by tokens.length

theorem holds (handles : Handles setting env active) (parens : Nat) (condition : Tokens) :
    Keeps (setting.holds condition) ⟨parens, active⟩ (env.holds (parens != 0) condition) :=
  handles.conjunction parens _ _

end Handles

end LessCss.Setting

namespace LessCss.Scope

open Processing (keeps_pure keeps_guarded_active keeps_guarded_idle run_bind_error)

variable {library : Library} {scope : Scope} {active under : List String} {name : String}

theorem definition?_absent (absent : scope.find? name = none) :
    scope.definition? library active name = none := by
  rw [definition?]
  split
  · rfl
  · simp_all

theorem definition?_found {tokens : Tokens} (found : scope.find? name = some tokens) :
    scope.definition? library active name =
      some (if name ∈ active then .recursive name
        else .ofTokens ⟨library, scope.definition? library (name :: active)⟩ tokens) := by
  rw [definition?]
  split
  · simp_all
  · split <;> simp_all

theorem lookup?_absent (absent : scope.find? name = none) : scope.lookup? library active name = none := by
  rw [lookup?]
  split
  · rfl
  · simp_all

theorem lookup?_found {tokens : Tokens} (found : scope.find? name = some tokens) :
    scope.lookup? library active name =
      some (if name ∈ active then .endless name
        else .ofTokens ⟨library, scope.lookup? library (name :: active)⟩ name tokens) := by
  rw [lookup?]
  split
  · simp_all
  · split <;> simp_all

/-- A variable that is under evaluation is refused, whatever it holds. -/
theorem handles_recursive (tokens : Tokens) (setting : Setting) (member : name ∈ under) :
    (if name ∈ active then Processor.Variable.endless name else .ofTokens setting name tokens).Handles
      under (.recursive name) := by
  -- The list of the processor decides, before it matters what the variable holds.
  by_cases inside : name ∈ active
  · rw [if_pos inside]
    constructor <;> intro parens at_ <;> exact keeps_guarded_active member
  · rw [if_neg inside]
    constructor <;> intro parens at_ <;> exact run_bind_error (keeps_guarded_active member)

theorem handles_ofTokens {setting : Setting} {env : Environment} (tokens : Tokens)
    (idle : name ∉ under) (handles : setting.Handles env (name :: under)) :
    (Processor.Variable.ofTokens setting name tokens).Handles under (.ofTokens env tokens) := by
  constructor
  · intro parens at_
    refine (keeps_guarded_idle idle (handles.statement parens tokens)).bind fun reading => ?_
    cases reading <;> exact keeps_pure _
  · intro parens at_
    exact (keeps_guarded_idle idle (handles.value parens tokens)).map fun _ => keeps_pure _

/-- While the names of `under` are under evaluation, and those of `active` among them,
the variables do in place what the environment of the scope says. -/
theorem handles_lookup? (library : Library) (scope : Scope) {active under : List String}
    (known : active ⊆ under) :
    Setting.Handles ⟨library, scope.lookup? library active⟩
      ⟨library, scope.definition? library under⟩ under := by
  refine ⟨rfl, ?_⟩
  intro name
  change Option.Rel _ (scope.lookup? library active name) (scope.definition? library under name)
  cases found : scope.find? name with
  | none =>
    rw [lookup?_absent found, definition?_absent found]
    exact .none
  | some tokens =>
    rw [lookup?_found found, definition?_found found]
    refine .some ?_
    by_cases member : name ∈ under
    · rw [if_pos member]
      exact handles_recursive tokens _ member
    · rw [if_neg member, if_neg fun inside => member (known inside)]
      -- One more name is under evaluation, for the processor and for the definition.
      have deeper : name :: active ⊆ name :: under := List.cons_subset_cons name known
      exact handles_ofTokens tokens member (handles_lookup? library scope deeper)
termination_by scope.idle under
decreasing_by exact idle_cons_lt (mem_names_of_find? found) member

/-- The same for a processor that may have begun something before. -/
theorem handles_setting (library : Library) (scope : Scope) (under : List String) :
    (scope.setting library).Handles ⟨library, scope.definition? library under⟩ under :=
  handles_lookup? library scope (List.nil_subset under)

theorem keeps_value_of_run (library : Library) (scope : Scope) {tokens out : Tokens}
    (done : (((scope.setting library).value tokens).run.run .fresh).any (fun ended =>
      ended.1.toOption.any (· == out)) = true) :
    Processing.Keeps ((scope.setting library).value tokens) .fresh (.ok out) :=
  ((handles_setting library scope []).value 0 tokens).of_run done

/-- The result of a run, with what is found of it by running. -/
theorem exists_of_run (library : Library) (scope : Scope) {tokens : Tokens} {holds : Tokens → Bool}
    (done : (((scope.setting library).value tokens).run.run .fresh).any (fun ended =>
      ended.1.toOption.any holds) = true) :
    ∃ out, Processing.Keeps ((scope.setting library).value tokens) .fresh (.ok out) ∧ holds out = true := by
  obtain ⟨result, keeps⟩ : ∃ result, Processing.Keeps ((scope.setting library).value tokens) .fresh result :=
    ⟨_, (handles_setting library scope []).value 0 tokens⟩
  rw [keeps] at done
  cases result with
  | error error => cases done
  | ok out => exact ⟨out, keeps, done⟩

end LessCss.Scope
