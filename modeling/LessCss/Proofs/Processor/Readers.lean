import LessCss.Processor.Reader
import LessCss.Proofs.Processor.Keeps

/-! The readers of expressions leave the processor as they found it, and read
what the readers of `Environment` read.

The variables enter by an assumption: evaluating one of them does what the
environment says. It speaks about one list of names under evaluation, which is
the same for all steps of a reading. -/

set_option autoImplicit false

namespace LessCss

open Processing (Keeps keeps_pure keeps_throw keeps_ofExcept keeps_get_bind keeps_ite keeps_mapM
  keeps_grouped)

structure Processor.Variable.Handles (active : List String) (var : Variable)
    (definition : Definition) : Prop where
  value (parens : Nat) (at_ : Token) :
    Keeps (var.value? at_) ⟨parens, active⟩ (definition.value? (parens != 0) at_)
  tokens (parens : Nat) (at_ : Token) :
    Keeps (var.tokens at_) ⟨parens, active⟩ (definition.tokens (parens != 0) at_)

namespace Setting

/-- While the names of `active` are under evaluation, all variables have the results
that the environment gives. -/
structure Handles (setting : Setting) (env : Environment) (active : List String) : Prop where
  library : env.library = setting.library
  lookup (name : String) :
    Option.Rel (Processor.Variable.Handles active) (setting.lookup? name) (env.lookup? name)

namespace Handles

variable {setting : Setting} {env : Environment} {active : List String}

section

variable (handles : Handles setting env active)

include handles

theorem lookup_cases (name : String) :
    (setting.lookup? name = none ∧ env.lookup? name = none) ∨
      ∃ var definition, setting.lookup? name = some var ∧ env.lookup? name = some definition ∧
        var.Handles active definition := by
  have found := handles.lookup name
  generalize setting.lookup? name = var? at found ⊢
  generalize env.lookup? name = definition? at found ⊢
  cases found with
  | none => exact .inl ⟨rfl, rfl⟩
  | some same => exact .inr ⟨_, _, rfl, rfl, same⟩

theorem valueOf (parens : Nat) (name : String) (at_ : Token) :
    Keeps (setting.valueOf? name at_) ⟨parens, active⟩ (env.valueOf? (parens != 0) name at_) := by
  rw [Setting.valueOf?, Environment.valueOf?]
  rcases handles.lookup_cases name with ⟨absent, absent'⟩ | ⟨var, definition, found, found', same⟩
  · rw [absent, absent']
    exact keeps_throw _
  · rw [found, found']
    exact same.value parens at_

theorem resolve (parens : Nat) (token : Token) :
    Keeps (setting.resolve token) ⟨parens, active⟩ (env.resolve (parens != 0) token) := by
  rw [Setting.resolve, Environment.resolve]
  rcases handles.lookup_cases token.text with
    ⟨absent, absent'⟩ | ⟨var, definition, found, found', same⟩
  · rw [absent, absent']
    exact keeps_throw _
  · rw [found, found']
    exact same.tokens parens token

theorem piece (parens : Nat) (at_ : Token) (piece : Text.Piece) :
    Keeps (setting.pieceText at_ piece) ⟨parens, active⟩ (env.pieceText (parens != 0) at_ piece) := by
  cases piece with
  | char c => exact keeps_pure _
  | hole name =>
    rw [Setting.pieceText, Environment.pieceText]
    rcases handles.lookup_cases ("@" ++ name) with
      ⟨absent, absent'⟩ | ⟨var, definition, found, found', same⟩
    · rw [absent, absent']
      exact keeps_throw _
    · rw [found, found']
      exact (same.tokens parens at_).map fun tokens => keeps_pure _

theorem interpolate (parens : Nat) (at_ : Token) (text : String) :
    Keeps (setting.interpolate at_ text) ⟨parens, active⟩
      (env.interpolate (parens != 0) at_ text) := by
  rw [Setting.interpolate, Environment.interpolate]
  exact (keeps_mapM _ (handles.piece parens at_)).bind fun texts => keeps_pure _

theorem interpolateToken (parens : Nat) (token : Token) :
    Keeps (setting.interpolateToken token) ⟨parens, active⟩
      (env.interpolateToken (parens != 0) token) := by
  rw [Setting.interpolateToken, Environment.interpolateToken]
  exact (handles.interpolate parens token token.text).bind fun text => keeps_pure _

theorem literal (parens : Nat) (token : Token) :
    Keeps (setting.literal? token) ⟨parens, active⟩ (env.literal? (parens != 0) token) := by
  have filled := handles.interpolate parens token token.text
  rw [Setting.literal?, Environment.literal?]
  cases token.kind with
  | string => exact filled.map fun text => keeps_pure _
  | url => exact filled.map fun text => keeps_pure _
  | identifier => exact filled.map fun text => keeps_pure _
  | atKeyword => exact handles.valueOf parens token.text token
  | _ => exact keeps_pure _

theorem indirect (parens : Nat) (token : Token) :
    Keeps (setting.indirect? token) ⟨parens, active⟩ (env.indirect? (parens != 0) token) := by
  rw [Setting.indirect?, Environment.indirect?]
  exact (handles.resolve parens token).bind fun name => handles.valueOf parens _ token

theorem escaped (parens : Nat) (token : Token) :
    Keeps (setting.escaped token) ⟨parens, active⟩ (env.escaped (parens != 0) token) := by
  rw [Setting.escaped, Environment.escaped]
  exact (handles.interpolate parens token token.text).map fun text => keeps_pure _

-- The recursion is the one of the readers, over what is left to read. The number
-- of open parentheses varies: a group is read with one more.

end

mutual

theorem statement (handles : Handles setting env active) (parens : Nat) (tokens : Tokens) :
    Keeps (setting.statement tokens) ⟨parens, active⟩ (env.statement (parens != 0) tokens) := by
  rw [Setting.statement, Environment.statement]
  refine (handles.constant parens tokens.trimLeft).bind fun reading => ?_
  cases reading with
  | absent rest bounded => exact keeps_pure _
  | found value rest shorter =>
    have climbed := handles.climb parens none value tokens.trimLeft.startsNumeric rest
    exact climbed.bind fun last => keeps_pure _
termination_by 3 * tokens.length + 1
decreasing_by
  · have := tokens.length_trimLeft_le
    omega
  · have := tokens.length_trimLeft_le
    omega

theorem climb (handles : Handles setting env active) (parens : Nat) (last : Option Operator)
    (lhs : Value) (literal : Bool) (tokens : Tokens) :
    Keeps (setting.climb last lhs literal tokens) ⟨parens, active⟩
      (env.climb (parens != 0) last lhs literal tokens) := by
  rw [Setting.climb, Environment.climb]
  refine keeps_get_bind ?_
  cases tokens.operator? with
  | none => exact keeps_pure _
  | some found =>
    obtain ⟨op, mark, after, shorter⟩ := found
    refine keeps_ite (fun _ => keeps_pure _) fun _ => ?_
    refine keeps_ite (fun _ => keeps_pure _) fun _ => ?_
    refine (handles.constant parens after).bind fun reading => ?_
    cases reading with
    | absent rest bounded => exact keeps_throw _
    | found rhs rest shorter' =>
      -- Both readers take the same operand on the right and go on behind it.
      refine (handles.climb parens (some op) rhs after.startsNumeric rest).bind fun right => ?_
      refine (keeps_ofExcept (Environment.operate mark op lhs right.result)).bind fun value => ?_
      exact (handles.climb parens last value false right.rest).bind fun last => keeps_pure _
termination_by 3 * tokens.length
decreasing_by
  · omega
  · omega
  · have := right.bounded
    omega

theorem constant (handles : Handles setting env active) (parens : Nat) (tokens : Tokens) :
    Keeps (setting.constant tokens) ⟨parens, active⟩ (env.constant (parens != 0) tokens) := by
  cases tokens with
  | nil =>
    rw [Setting.constant.eq_def, Environment.constant.eq_def]
    exact keeps_pure _
  | cons token rest =>
    rw [Setting.constant.eq_def, Environment.constant.eq_def]
    refine keeps_ite (fun _ => handles.group parens token rest) fun _ => ?_
    refine keeps_ite (fun _ => handles.negation parens token rest) fun _ => ?_
    cases rest with
    | nil => exact (handles.literal parens token).map fun value? => keeps_pure _
    | cons next after =>
      refine keeps_ite (fun _ => ?_) fun _ => ?_
      · rw [handles.library]
        exact keeps_ite (fun _ => keeps_pure _) fun _ => handles.application parens token next after
      refine keeps_ite (fun _ => ?_) fun _ => ?_
      · exact (handles.indirect parens next).map fun value? => keeps_pure _
      refine keeps_ite (fun _ => ?_) fun _ => ?_
      · exact (handles.escaped parens next).map fun value => keeps_pure _
      · exact (handles.literal parens token).map fun value? => keeps_pure _
termination_by 3 * tokens.length
decreasing_by all_goals simp only [List.length_cons]; omega

theorem group (handles : Handles setting env active) (parens : Nat) (opening : Token) (tokens : Tokens) :
    Keeps (setting.group opening tokens) ⟨parens, active⟩ (env.group opening tokens) := by
  rw [Setting.group, Environment.group]
  refine keeps_ite (fun _ => keeps_throw _) fun _ => ?_
  -- With `parens + 1` open parentheses the expression stands inside parentheses.
  refine (keeps_grouped (handles.statement (parens + 1) tokens)).bind fun reading => ?_
  cases reading with
  | absent rest bounded => exact keeps_pure _
  | found value rest shorter => exact keeps_ite (fun _ => keeps_pure _) fun _ => keeps_pure _
termination_by 3 * tokens.length + 2

theorem negation (handles : Handles setting env active) (parens : Nat) (mark : Token) (tokens : Tokens) :
    Keeps (setting.negation mark tokens) ⟨parens, active⟩
      (env.negation (parens != 0) mark tokens) := by
  rw [Setting.negation, Environment.negation]
  refine (handles.constant parens tokens).bind fun reading => ?_
  cases reading with
  | absent rest bounded => exact keeps_pure _
  | found value rest shorter =>
    refine (keeps_ofExcept (Environment.operate mark .subtract (.number 0 "") value)).bind
      fun value => ?_
    exact keeps_pure _
termination_by 3 * tokens.length + 1

theorem application (handles : Handles setting env active) (parens : Nat) (name opening : Token)
    (tokens : Tokens) :
    Keeps (setting.application name opening tokens) ⟨parens, active⟩
      (env.application name opening tokens) := by
  rw [Setting.application, Environment.application, handles.library]
  refine (keeps_grouped (handles.arguments parens name tokens)).bind fun read => ?_
  refine (keeps_ofExcept (setting.library.call name.text name read.result)).bind fun value => ?_
  exact keeps_pure _
termination_by 3 * tokens.length + 3

theorem arguments (handles : Handles setting env active) (parens : Nat) (at_ : Token) (tokens : Tokens) :
    Keeps (setting.arguments at_ tokens) ⟨parens + 1, active⟩ (env.arguments at_ tokens) := by
  rw [Setting.arguments, Environment.arguments]
  refine (handles.statement (parens + 1) tokens).bind fun reading => ?_
  cases reading with
  | found value rest shorter =>
    exact (handles.argumentsAfter parens at_ [value] rest).bind fun after => keeps_pure _
  | absent rest bounded =>
    cases rest with
    | nil => exact keeps_throw _
    | cons token rest =>
      refine keeps_ite (fun _ => ?_) fun _ => ?_
      · exact (handles.argumentsAfter parens at_ [] (token :: rest)).bind fun after => keeps_pure _
      · have after := handles.argumentsAfter parens at_ [.keyword token.text] rest
        exact after.bind fun after => keeps_pure _
termination_by 3 * tokens.length + 2
decreasing_by
  · omega
  · omega
  · omega
  · simp only [List.length_cons] at bounded
    omega

theorem argumentsAfter (handles : Handles setting env active) (parens : Nat) (at_ : Token)
    (read : List Value) (tokens : Tokens) :
    Keeps (setting.argumentsAfter at_ read tokens) ⟨parens + 1, active⟩
      (env.argumentsAfter at_ read tokens) := by
  rw [Environment.argumentsAfter]
  split
  · rename_i start
    rw [Setting.argumentsAfter]
    split
    · exact keeps_throw _
    · rename_i start'
      cases start.symm.trans start'
  · rename_i token rest start
    have shorter := tokens.length_lt_of_trimLeft start
    rw [Setting.argumentsAfter]
    split
    · rename_i start'
      cases start.symm.trans start'
    · rename_i token' rest' start'
      cases start.symm.trans start'
      refine keeps_ite (fun _ => ?_) fun _ => ?_
      · exact (handles.arguments parens at_ rest).bind fun after => keeps_pure _
      · exact keeps_ite (fun _ => keeps_pure _) fun _ => keeps_throw _
termination_by 3 * tokens.length + 1

end

end Handles

end Setting

end LessCss
