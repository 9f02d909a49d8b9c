import LessCss.Expression.Reader

/-! Conditions: truth values joined by `and`, each of which may be negated by
`not`. The first one that does not hold settles the condition. -/

set_option autoImplicit false

namespace LessCss.Environment

def conjunct (env : Environment) (grouped : Bool) (at_ : Token) (tokens : Tokens) :
    Except Error (Upto tokens.length Bool) := do
  have bound := tokens.length_trimLeft_le
  let negated := tokens.trimLeft.headText? == some "not"
  let start := if negated then Tokens.trimLeft tokens.trimLeft.tail else tokens.trimLeft
  have bound' : start.length ≤ tokens.length := by
    have := Tokens.length_trimLeft_le tokens.trimLeft.tail
    simp only [List.length_tail] at this
    simp only [start]
    split <;> omega
  let found := start.head?.getD at_
  match ← env.statement grouped start with
  | .found (.boolean holds) rest shorter => return ⟨holds != negated, rest, by omega⟩
  | .found value _ _ => throw (.faulty found (.notBoolean value.kind))
  | .absent .. => throw (.unexpected found .condition)

def conjunction (env : Environment) (grouped : Bool) (at_ : Token) (tokens : Tokens) : Except Error Bool := do
  let ⟨holds, rest, _bounded⟩ ← env.conjunct grouped at_ tokens
  have _bound := rest.length_trimLeft_le
  if !holds then return false
  match _start : rest.trimLeft with
  | [] => return true
  | token :: after =>
    if token.text == "and" then env.conjunction grouped at_ after
    else throw (.unexpected token .conjunction)
termination_by tokens.length
decreasing_by
  rw [_start] at _bound
  simp only [List.length_cons] at _bound
  omega

def holds (env : Environment) (grouped : Bool) (condition : Tokens) : Except Error Bool :=
  let tokens := condition.trim
  env.conjunction grouped (tokens.head?.getD (.synthetic .eos "")) tokens

end LessCss.Environment
