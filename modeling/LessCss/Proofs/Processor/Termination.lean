import LessCss.Proofs.Processor.Stages
import LessCss.Proofs.Processor.Values
import LessCss.Token.Scan

/-! Evaluation of values comes to an end. Main statement: with nothing but a clock to
stop it, the evaluation of a value, of a condition and of a text with holes ends with
the result that the processor has. No name is under evaluation twice on the way, a
variable that comes up inside itself is an error, and each turn of a loop leaves fewer
unread tokens, whatever was put back. -/

set_option autoImplicit false

namespace LessCss

open List

open Watching (Follows Ends follows_pure follows_throw follows_ofExcept follows_ite follows_mapM follows_turned
  follows_isGrouped follows_grouped ends_guarded_active follows_guarded_idle)

def Reading.plain {n : Nat} : Reading n → Option Value × Tokens
  | .found value rest _ => (some value, rest)
  | .absent rest _ => (none, rest)

def Upto.plain {n : Nat} {α : Type} (read : Upto n α) : α × Tokens := (read.result, read.rest)

theorem Tokens.spanGroup_of_not_closes {depth : Nat} {token : Token} {rest : Tokens}
    (goesOn : ¬(token.kind = .parenClose && depth = 0) = true) :
    spanGroup depth (token :: rest) =
      let depth := if token.kind = .parenClose then depth - 1 else if token.kind = .parenOpen then depth + 1 else depth
      (token :: (spanGroup depth rest).1, (spanGroup depth rest).2) := by
  rw [Bool.and_eq_true, decide_eq_true_eq, decide_eq_true_eq] at goesOn
  rw [spanGroup]
  by_cases closes : token.kind = .parenClose
  · rw [if_pos closes, if_neg fun zero => goesOn ⟨closes, zero⟩, if_pos closes]
  · rw [if_neg closes, if_neg closes]

theorem Environment.substitute_cons (env : Environment) (grouped : Bool) (token : Token) (rest : Tokens) :
    env.substitute grouped (token :: rest) =
      (if token.kind = .atKeyword then env.resolve grouped token else .ok [token]) >>= fun part =>
        env.substitute grouped rest >>= fun more => .ok (part ++ more) := by
  unfold substitute
  rw [mapM_cons]
  cases (if token.kind = .atKeyword then env.resolve grouped token else .ok [token]) with
  | error error => rfl
  | ok part =>
    cases rest.mapM fun token => if token.kind = .atKeyword then env.resolve grouped token else .ok [token] with
    | error error => rfl
    | ok parts => rfl

namespace Scope

abbrev under (library : Library) (scope : Scope) (active : List String) : Environment :=
  ⟨library, scope.definition? library active⟩

structure Settles (library : Library) (scope : Scope) (active : List String) : Prop where
  statement (parens : Nat) (tokens : Tokens) :
    Follows ⟨parens, active⟩ ((scope.under library active).statement (parens != 0) tokens) Reading.plain
      fun clock => (scope.stage library clock).statement tokens
  value (parens : Nat) (tokens : Tokens) :
    Follows ⟨parens, active⟩ ((scope.under library active).evaluate (parens != 0) tokens) id
      fun clock => (scope.stage library clock).value tokens

structure SettlesInside (library : Library) (scope : Scope) (active : List String) : Prop where
  distinct : active.Nodup
  deeper : ∀ name ∈ scope.names, name ∉ active → scope.Settles library (name :: active)

namespace SettlesInside

variable {library : Library} {scope : Scope} {active : List String}

/-! ### Variables and holes -/

section

variable (inside : scope.SettlesInside library active)

include inside

theorem valueOf (parens : Nat) (name : String) (at_ : Token) :
    Follows ⟨parens, active⟩ ((scope.under library active).valueOf? (parens != 0) name at_) id
      fun clock => (scope.stage library clock).valueOf? scope name at_ := by
  simp only [Environment.valueOf?, Stage.valueOf?]
  cases found : scope.find? name with
  | none =>
    rw [definition?_absent found]
    exact follows_throw _
  | some tokens =>
    rw [definition?_found found]
    by_cases member : name ∈ active
    · rw [if_pos member]
      exact Ends.bind_error (ends_guarded_active member)
    · rw [if_neg member]
      -- The name joins those under evaluation, where one name less is idle.
      have settles := inside.deeper name (mem_names_of_find? found) member
      have distinct := nodup_cons.mpr ⟨member, inside.distinct⟩
      refine (follows_guarded_idle distinct (settles.statement parens tokens)).bind fun reading => ?_
      cases reading <;> exact follows_pure _

/-- The tokens of a variable that is looked up as `definition`. -/
theorem tokensOf {name : String} {tokens : Tokens}
    {definition : Definition} (found : scope.find? name = some tokens)
    (known : scope.definition? library active name = some definition) (parens : Nat) (at_ : Token) :
    Follows ⟨parens, active⟩ (definition.tokens (parens != 0) at_) id
      fun clock => (scope.stage library clock).tokensOf name at_ tokens := by
  rw [definition?_found found] at known
  cases known
  by_cases member : name ∈ active
  · rw [if_pos member]
    exact Ends.bind_error (ends_guarded_active member)
  · rw [if_neg member]
    have settles := inside.deeper name (mem_names_of_find? found) member
    have distinct := nodup_cons.mpr ⟨member, inside.distinct⟩
    exact (follows_guarded_idle distinct (settles.value parens tokens)).map fun written => follows_pure _

theorem resolve (parens : Nat) (token : Token) :
    Follows ⟨parens, active⟩ ((scope.under library active).resolve (parens != 0) token) id
      fun clock => (scope.stage library clock).resolve scope token := by
  simp only [Environment.resolve, Stage.resolve]
  cases found : scope.find? token.text with
  | none =>
    rw [definition?_absent found]
    exact follows_throw _
  | some tokens =>
    have known : scope.definition? library active token.text = some _ := definition?_found found
    rw [known]
    exact inside.tokensOf found known parens token

theorem piece (parens : Nat) (at_ : Token) (piece : Text.Piece) :
    Follows ⟨parens, active⟩ ((scope.under library active).pieceText (parens != 0) at_ piece) id
      fun clock => (scope.stage library clock).pieceText scope at_ piece := by
  cases piece with
  | char c => exact follows_pure _
  | hole name =>
    simp only [Environment.pieceText, Stage.pieceText]
    cases found : scope.find? ("@" ++ name) with
    | none =>
      rw [definition?_absent found]
      exact follows_throw _
    | some tokens =>
      have known : scope.definition? library active ("@" ++ name) = some _ := definition?_found found
      rw [known]
      exact (inside.tokensOf found known parens at_).map fun tokens => follows_pure _

theorem interpolate (parens : Nat) (at_ : Token) (text : String) :
    Follows ⟨parens, active⟩ ((scope.under library active).interpolate (parens != 0) at_ text) id
      fun clock => (scope.stage library clock).interpolate scope at_ text :=
  (follows_mapM _ (inside.piece parens at_)).bind fun _ => follows_pure _

theorem interpolateToken (parens : Nat) (token : Token) :
    Follows ⟨parens, active⟩ ((scope.under library active).interpolateToken (parens != 0) token) id
      fun clock => (scope.stage library clock).interpolateToken scope token :=
  (inside.interpolate parens token token.text).bind fun _ => follows_pure _

/-! ### Readers -/

theorem literal (parens : Nat) (token : Token) :
    Follows ⟨parens, active⟩ ((scope.under library active).literal? (parens != 0) token) id
      fun clock => (scope.stage library clock).literal? scope token := by
  have filled := inside.interpolate parens token token.text
  simp only [Environment.literal?, Stage.literal?]
  cases token.kind with
  | string => exact filled.map fun text => follows_pure _
  | url => exact filled.map fun text => follows_pure _
  | identifier => exact filled.map fun text => follows_pure _
  | atKeyword => exact inside.valueOf parens token.text token
  | _ => exact follows_pure _

theorem indirect (parens : Nat) (token : Token) :
    Follows ⟨parens, active⟩ ((scope.under library active).indirect? (parens != 0) token) id
      fun clock => (scope.stage library clock).indirect? scope token :=
  (inside.resolve parens token).bind fun _ => inside.valueOf parens _ token

theorem escaped (parens : Nat) (token : Token) :
    Follows ⟨parens, active⟩ ((scope.under library active).escaped (parens != 0) token) id
      fun clock => (scope.stage library clock).escaped scope token :=
  (inside.interpolate parens token token.text).map fun _ => follows_pure _

-- The recursion is the one of the readers, over what is left to read; it bounds the
-- ticks that they need.

end

mutual

theorem statement (inside : scope.SettlesInside library active) (parens : Nat) (tokens : Tokens) :
    Follows ⟨parens, active⟩ ((scope.under library active).statement (parens != 0) tokens) Reading.plain
      fun clock => (scope.stage library clock).statement tokens := by
  refine .tick ?_
  rw [Environment.statement]
  refine (inside.constant parens tokens.trimLeft).bind fun reading => ?_
  cases reading with
  | absent rest bounded => exact follows_pure _
  | found value rest shorter =>
    have climbed := inside.climb parens none value tokens.trimLeft.startsNumeric rest
    exact climbed.bind fun last => follows_pure _
termination_by 3 * tokens.length + 1
decreasing_by
  · have := tokens.length_trimLeft_le
    omega
  · have := tokens.length_trimLeft_le
    omega

theorem climb (inside : scope.SettlesInside library active) (parens : Nat) (last : Option Operator) (lhs : Value)
    (literal : Bool) (tokens : Tokens) :
    Follows ⟨parens, active⟩ ((scope.under library active).climb (parens != 0) last lhs literal tokens) Upto.plain
      fun clock => (scope.stage library clock).climb last lhs literal tokens := by
  refine .tick ?_
  rw [Environment.climb]
  refine follows_isGrouped ?_
  cases tokens.operator? with
  | none => exact follows_pure _
  | some found =>
    obtain ⟨op, mark, after, shorter⟩ := found
    refine follows_ite (fun _ => follows_pure _) fun _ => ?_
    refine follows_ite (fun _ => follows_pure _) fun _ => ?_
    refine (inside.constant parens after).bind fun reading => ?_
    cases reading with
    | absent rest bounded => exact follows_throw _
    | found rhs rest shorter' =>
      refine (inside.climb parens (some op) rhs after.startsNumeric rest).bind fun right => ?_
      refine follows_ofExcept.bind fun value => ?_
      -- The operator is read, and at least one token of its operand.
      have fewer : right.rest.length < tokens.length := by
        have := right.bounded
        omega
      refine follows_turned fewer ?_
      exact (inside.climb parens last value false right.rest).reform fun _ => rfl
termination_by 3 * tokens.length

theorem constant (inside : scope.SettlesInside library active) (parens : Nat) (tokens : Tokens) :
    Follows ⟨parens, active⟩ ((scope.under library active).constant (parens != 0) tokens) Reading.plain
      fun clock => (scope.stage library clock).constant tokens := by
  refine .tick ?_
  cases tokens with
  | nil =>
    rw [Environment.constant.eq_def]
    exact follows_pure _
  | cons token rest =>
    rw [Environment.constant.eq_def]
    refine follows_ite (fun _ => inside.group parens token rest) fun _ => ?_
    refine follows_ite (fun _ => inside.negation parens token rest) fun _ => ?_
    cases rest with
    | nil => exact (inside.literal parens token).map fun value? => by cases value? <;> exact follows_pure _
    | cons next after =>
      refine follows_ite (fun _ => ?_) fun _ => ?_
      · exact follows_ite (fun _ => follows_pure _) fun _ => inside.application parens token next after
      refine follows_ite (fun _ => ?_) fun _ => ?_
      · exact (inside.indirect parens next).map fun value? => by cases value? <;> exact follows_pure _
      refine follows_ite (fun _ => ?_) fun _ => ?_
      · exact (inside.escaped parens next).map fun value => follows_pure _
      · exact (inside.literal parens token).map fun value? => by cases value? <;> exact follows_pure _
termination_by 3 * tokens.length
decreasing_by all_goals simp only [length_cons]; omega

theorem group (inside : scope.SettlesInside library active) (parens : Nat) (opening : Token) (tokens : Tokens) :
    Follows ⟨parens, active⟩ ((scope.under library active).group opening tokens) Reading.plain
      fun clock => (scope.stage library clock).group opening tokens := by
  rw [Environment.group]
  refine follows_ite (fun _ => follows_throw _) fun _ => ?_
  -- With `parens + 1` open parentheses the expression stands inside parentheses.
  refine (follows_grouped (inside.statement (parens + 1) tokens)).bind fun reading => ?_
  cases reading with
  | absent rest bounded => exact follows_pure _
  | found value rest shorter => exact follows_ite (fun _ => follows_pure _) fun _ => follows_pure _
termination_by 3 * tokens.length + 2

theorem negation (inside : scope.SettlesInside library active) (parens : Nat) (mark : Token) (tokens : Tokens) :
    Follows ⟨parens, active⟩ ((scope.under library active).negation (parens != 0) mark tokens) Reading.plain
      fun clock => (scope.stage library clock).negation mark tokens := by
  rw [Environment.negation]
  refine (inside.constant parens tokens).bind fun reading => ?_
  cases reading with
  | absent rest bounded => exact follows_pure _
  | found value rest shorter => exact follows_ofExcept.bind fun value => follows_pure _
termination_by 3 * tokens.length + 1

theorem application (inside : scope.SettlesInside library active) (parens : Nat) (name opening : Token)
    (tokens : Tokens) :
    Follows ⟨parens, active⟩ ((scope.under library active).application name opening tokens) Reading.plain
      fun clock => (scope.stage library clock).application library name tokens := by
  rw [Environment.application]
  refine (follows_grouped (inside.arguments parens name tokens)).bind fun read => ?_
  exact follows_ofExcept.bind fun value => follows_pure _
termination_by 3 * tokens.length + 3

theorem arguments (inside : scope.SettlesInside library active) (parens : Nat) (at_ : Token) (tokens : Tokens) :
    Follows ⟨parens + 1, active⟩ ((scope.under library active).arguments at_ tokens) Upto.plain
      fun clock => (scope.stage library clock).arguments at_ tokens := by
  refine .tick ?_
  rw [Environment.arguments]
  refine (inside.statement (parens + 1) tokens).bind fun reading => ?_
  cases reading with
  | found value rest shorter =>
    exact (inside.argumentsAfter parens at_ [value] rest (Nat.le_of_lt shorter)).reform fun _ => rfl
  | absent rest bounded =>
    cases rest with
    | nil => exact follows_throw _
    | cons token rest =>
      refine follows_ite (fun _ => ?_) fun _ => ?_
      · exact (inside.argumentsAfter parens at_ [] (token :: rest) bounded).reform fun _ => rfl
      · have after := inside.argumentsAfter parens at_ [.keyword token.text] rest (Nat.le_of_succ_le bounded)
        exact after.reform fun _ => rfl
termination_by 3 * tokens.length + 2
decreasing_by
  · omega
  · omega
  · omega
  · simp only [length_cons] at bounded
    omega

theorem argumentsAfter (inside : scope.SettlesInside library active) (parens : Nat) (at_ : Token) (read : List Value)
    (tokens : Tokens) {before : Nat} (bounded : tokens.length ≤ before) :
    Follows ⟨parens + 1, active⟩ ((scope.under library active).argumentsAfter at_ read tokens) Upto.plain
      fun clock => (scope.stage library clock).argumentsAfter at_ before read tokens := by
  rw [Environment.argumentsAfter]
  simp only [Stage.argumentsAfter]
  split
  · rename_i start
    simp only [start]
    exact follows_throw _
  · rename_i token rest start
    have shorter := tokens.length_lt_of_trimLeft start
    simp only [start]
    refine follows_ite (fun _ => ?_) fun _ => ?_
    · refine follows_turned (Nat.lt_of_lt_of_le shorter bounded) ?_
      exact (inside.arguments parens at_ rest).bind fun after => follows_pure _
    · exact follows_ite (fun _ => follows_pure _) fun _ => follows_throw _
termination_by 3 * tokens.length + 1

end

/-! ### Values and conditions -/

/-- What is copied are the tokens of the group, with variables replaced. -/
theorem copy (inside : scope.SettlesInside library active) (parens depth : Nat) (tokens : Tokens) :
    Follows ⟨parens, active⟩
      ((scope.under library active).substitute (parens != 0) (Tokens.spanGroup depth tokens).1)
      (fun group => (group, (Tokens.spanGroup depth tokens).2))
      fun clock => (scope.stage library clock).copy depth tokens := by
  induction tokens generalizing depth with
  | nil => exact .tick (follows_pure [])
  | cons token rest ih =>
    refine .tick ?_
    change Follows _ _ _ fun clock => (scope.stage library clock).copyStep scope depth (token :: rest)
    simp only [Stage.copyStep]
    by_cases closes : (token.kind = .parenClose && depth = 0) = true
    · simp only [if_pos closes]
      rw [Bool.and_eq_true, decide_eq_true_eq, decide_eq_true_eq] at closes
      have spanned : Tokens.spanGroup depth (token :: rest) = ([token], rest) := by
        rw [Tokens.spanGroup, if_pos closes.1, if_pos closes.2]
      have kept : (scope.under library active).substitute (parens != 0) [token] = .ok [token] := by
        simp [Environment.substitute, closes.1]
      rw [spanned, kept]
      exact follows_pure [token]
    · simp only [if_neg closes]
      -- One token is copied or resolved, and the copy goes on at the depth behind it.
      rw [Tokens.spanGroup_of_not_closes closes, Environment.substitute_cons]
      refine (follows_ite (fun _ => inside.resolve parens token) fun _ => follows_pure [token]).bind fun part => ?_
      exact follows_turned (Nat.lt_succ_self _) ((ih _).bind fun more => follows_pure _)

theorem carryIdentifier (inside : scope.SettlesInside library active) (parens : Nat) (token : Token) (tokens : Tokens) :
    Follows ⟨parens, active⟩ ((scope.under library active).carryIdentifier (parens != 0) token tokens) Upto.plain
      fun clock => (scope.stage library clock).carryIdentifier scope token tokens := by
  have filled := inside.interpolateToken parens token
  cases tokens with
  | nil => exact filled.map fun token => follows_pure _
  | cons next rest =>
    rw [Environment.carryIdentifier]
    refine follows_ite (fun _ => filled.map fun token => follows_pure _) fun _ => ?_
    refine follows_ite (fun _ => ?_) fun _ => filled.map fun token => follows_pure _
    exact (inside.copy parens 0 rest).map fun group => follows_pure _

theorem carry (inside : scope.SettlesInside library active) (parens : Nat) (token : Token) (tokens : Tokens) :
    Follows ⟨parens, active⟩ ((scope.under library active).carry (parens != 0) token tokens) Upto.plain
      fun clock => (scope.stage library clock).carry scope token tokens := by
  have filled := inside.interpolateToken parens token
  simp only [Environment.carry, Stage.carry]
  cases token.kind with
  | atKeyword => exact (inside.resolve parens token).map fun value => follows_pure _
  | identifier => exact inside.carryIdentifier parens token tokens
  | string => exact filled.map fun token => follows_pure _
  | url => exact filled.map fun token => follows_pure _
  | _ => exact follows_pure _

theorem items (inside : scope.SettlesInside library active) (parens : Nat) (last : Option Kind) (tokens : Tokens) :
    Follows ⟨parens, active⟩ ((scope.under library active).evaluateItems (parens != 0) last tokens) id
      fun clock => (scope.stage library clock).items last tokens := by
  refine .tick ?_
  change Follows _ _ _ fun clock => (scope.stage library clock).itemsStep scope last tokens
  rw [Environment.evaluateItems]
  simp only [Stage.itemsStep]
  split
  · rename_i start
    simp only [start]
    exact follows_pure _
  · rename_i first others start
    have shorter := tokens.length_lt_of_trimLeft start
    simp only [start]
    refine (inside.statement parens (first :: others)).bind fun reading => ?_
    cases reading with
    | found value rest shorter' =>
      have fewer : rest.length < tokens.length := by
        simp only [length_cons] at shorter'
        omega
      refine follows_turned fewer ?_
      exact (inside.items parens _ rest).bind fun written => follows_pure _
    | absent rest bounded =>
      cases rest with
      | nil => exact follows_pure _
      | cons token rest =>
        refine (inside.carry parens token rest).bind fun carried => ?_
        -- If a group was put back, the token that is carried over is its parenthesis.
        have fewer : carried.rest.length < tokens.length := by
          have := carried.bounded
          simp only [length_cons] at bounded
          omega
        refine follows_turned fewer ?_
        exact (inside.items parens _ carried.rest).bind fun written => follows_pure _
termination_by tokens.length

theorem value (inside : scope.SettlesInside library active) (parens : Nat) (tokens : Tokens) :
    Follows ⟨parens, active⟩ ((scope.under library active).evaluate (parens != 0) tokens) id
      fun clock => (scope.stage library clock).value tokens := by
  refine .tick ?_
  rw [Environment.evaluate]
  refine follows_ite (fun _ => inside.items parens none tokens) fun _ => ?_
  exact follows_mapM tokens (inside.interpolateToken parens)

theorem conjunct (inside : scope.SettlesInside library active) (parens : Nat) (at_ : Token) (tokens : Tokens) :
    Follows ⟨parens, active⟩ ((scope.under library active).conjunct (parens != 0) at_ tokens) Upto.plain
      fun clock => (scope.stage library clock).conjunct at_ tokens := by
  rw [Environment.conjunct]
  refine (inside.statement parens _).bind fun reading => ?_
  cases reading with
  | absent rest bounded => exact follows_throw _
  | found value rest shorter =>
    cases value with
    | boolean holds => exact follows_pure _
    | _ => exact follows_throw _

theorem conjunction (inside : scope.SettlesInside library active) (parens : Nat) (at_ : Token) (tokens : Tokens) :
    Follows ⟨parens, active⟩ ((scope.under library active).conjunction (parens != 0) at_ tokens) id
      fun clock => (scope.stage library clock).conjunction at_ tokens := by
  refine .tick ?_
  rw [Environment.conjunction]
  refine (inside.conjunct parens at_ tokens).bind fun read => ?_
  obtain ⟨holds, rest, bounded⟩ := read
  refine follows_ite (fun _ => follows_pure false) fun _ => ?_
  dsimp only
  cases start : rest.trimLeft with
  | nil => exact follows_pure true
  | cons token after =>
    have shorter := Nat.lt_of_lt_of_le (rest.length_lt_of_trimLeft start) bounded
    refine follows_ite (fun _ => ?_) fun _ => follows_throw _
    exact follows_turned shorter (inside.conjunction parens at_ after)
termination_by tokens.length

theorem holds (inside : scope.SettlesInside library active) (parens : Nat) (condition : Tokens) :
    Follows ⟨parens, active⟩ ((scope.under library active).holds (parens != 0) condition) id
      fun clock => (scope.stage library clock).holds condition :=
  inside.conjunction parens _ _

end SettlesInside

/-- Inside a variable one name less is idle. -/
theorem settlesInside (library : Library) (scope : Scope) {active : List String} (distinct : active.Nodup) :
    scope.SettlesInside library active := by
  refine ⟨distinct, fun name member fresh => ?_⟩
  have shrinks := idle_cons_lt member fresh
  have inside := settlesInside library scope (nodup_cons.mpr ⟨fresh, distinct⟩)
  exact ⟨inside.statement, inside.value⟩
termination_by scope.idle active

variable (library : Library) (scope : Scope) (processor : Processor)

/-- The computation of the processor ends and leaves it as it was. So does the watched one with the
same result, once the clock allows enough, and what is seen of it is in order. -/
def Settled {α : Type} (computation : Processing α) (watched : Nat → Watching α) : Prop :=
  ∃ result, Processing.Keeps computation processor result ∧ Ends processor result watched

/-- With any functions and variables, and for any tokens, the evaluation of a value, of a condition and
of a text with holes comes to an end. -/
theorem processing_settled (distinct : processor.evaluating.Nodup) :
    (∀ tokens, Settled processor ((scope.setting library).value tokens)
      fun clock => (scope.stage library clock).value tokens) ∧
    (∀ condition, Settled processor ((scope.setting library).holds condition)
      fun clock => (scope.stage library clock).holds condition) ∧
    ∀ at_ text, Settled processor ((scope.setting library).interpolate at_ text)
      fun clock => (scope.stage library clock).interpolate scope at_ text := by
  have inside := settlesInside library scope distinct
  have handles := handles_setting library scope processor.evaluating
  refine ⟨fun tokens => ⟨_, handles.value processor.parens tokens, ?_⟩,
    fun condition => ⟨_, handles.holds processor.parens condition, ?_⟩,
    fun at_ text => ⟨_, handles.interpolate processor.parens at_ text, ?_⟩⟩
  · exact (inside.value processor.parens tokens).ends
  · exact (inside.holds processor.parens condition).ends
  · exact (inside.interpolate processor.parens at_ text).ends

omit library scope processor

def circular : Scope :=
  [⟨[("@a", (Scan.ofText "in" "'x@\x7bb\x7d'").tokens), ("@b", (Scan.ofText "in" "@@c").tokens),
    ("@c", (Scan.ofText "in" "'a'").tokens)]⟩]

/-- The group is put back, with its first word evaluated, before the variable is refused. -/
theorem circular_settled : Settled .fresh ((circular.setting .empty).value (Scan.ofText "in" "(s t) @a").tokens)
      (fun clock => (circular.stage .empty clock).value (Scan.ofText "in" "(s t) @a").tokens) ∧
    (((circular.stage .empty 15).value (Scan.ofText "in" "(s t) @a").tokens).run.run ⟨.fresh, []⟩).any (fun ended =>
      ended.2.events == [.refused "@a" ⟨.atKeyword, "@c", ⟨"in", 1, 2⟩⟩, .entered ["@c", "@b", "@a"],
        .entered ["@b", "@a"], .entered ["@a"], .turned 3 2, .turned 5 3, .turned 6 5, .turned 7 6]) = true :=
  ⟨(processing_settled .empty circular .fresh .nil).1 _, by decide +kernel⟩

end Scope

end LessCss
