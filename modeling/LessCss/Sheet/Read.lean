import LessCss.Log
import LessCss.Mixin
import LessCss.Sheet.Basic
import LessCss.Token.Scan

/-! Reading a sheet from tokens, one token at a time. A statement ends at a
semicolon or an opening brace outside brackets, at a closing brace, and at the
end of the text; comments count as one space. -/

set_option autoImplicit false

namespace LessCss

def bubblingKeywords : List String := ["@media", "@supports", "@document"]

/-- A sheet in the making, and the rulesets that are open, the innermost first. -/
structure Draft where
  sheet : Sheet
  path : List Nat
  inside : ∀ id ∈ path, id < sheet.rulesets.size

/-- Between two statements, or within one that has begun with `first`. `seen`
holds its tokens so far, the last one first. -/
inductive Phase where
  | between
  | within (first : Token) (seen : Tokens) (depth : Nat)

/-- The name and value of `@name: value`. A missing value is an error. -/
def readVariable? (statement : Tokens) : Except Error (Option (String × Tokens)) :=
  match statement with
  | [] => .ok none
  | first :: rest =>
    match Tokens.trimLeft rest with
    | [] => .ok none
    | mark :: value =>
      if first.kind = .atKeyword && mark.kind = .colon then
        if (Tokens.trim value).isEmpty then .error (.unexpected first .variableValue)
        else .ok (some (first.text, Tokens.trim value))
      else .ok none

def readAtRule? (statement : Tokens) : Option (Token × Tokens) :=
  match statement with
  | [] => none
  | first :: rest => if first.kind = .atKeyword then some (first, Tokens.trim rest) else none

namespace Draft

def empty : Draft := ⟨.empty, [], by simp⟩

def vars (draft : Draft) : Variables :=
  match draft.path with
  | [] => draft.sheet.vars
  | id :: _ => ((draft.sheet.rulesets[id]?).map Ruleset.vars).getD .empty

/-- Defines a variable at the current level. The last definition counts. -/
def define (draft : Draft) (name : String) (value : Tokens) : Logged Draft := do
  if draft.vars.contains name then
    Logged.report .warn ("变量 " ++ name ++ " 在同一作用域中重复定义，使用最后一次定义")
  match draft with
  | ⟨sheet, [], _⟩ => return ⟨sheet.define name value, [], by simp⟩
  | ⟨sheet, id :: path, inside⟩ =>
    return ⟨sheet.defineIn id name value, id :: path, by simpa [Sheet.defineIn] using inside⟩

def close (draft : Draft) : Draft :=
  match draft with
  | ⟨sheet, [], inside⟩ => ⟨sheet, [], inside⟩
  | ⟨sheet, _ :: path, inside⟩ => ⟨sheet, path, fun id member => inside id (List.mem_cons_of_mem _ member)⟩

theorem inside_addRoot (sheet : Sheet) (selector : Selector) (kind : RulesetKind) :
    ∀ id ∈ [sheet.rulesets.size], id < (sheet.addRoot selector kind).rulesets.size := by
  simp

theorem inside_addNested (sheet : Sheet) (parent : sheet.Id) (path : List Nat) (selector : Selector)
    (kind : RulesetKind) (inside : ∀ id ∈ path, id < sheet.rulesets.size) :
    ∀ id ∈ sheet.rulesets.size :: path,
      id < (sheet.addNested parent selector kind).rulesets.size := by
  intro id member
  rw [Sheet.size_addNested]
  rcases List.mem_cons.mp member with same | old
  · omega
  · have := inside id old
    omega

def enter (draft : Draft) (selector : Selector) (kind : RulesetKind) : Draft :=
  match draft with
  | ⟨sheet, [], _⟩ =>
    ⟨sheet.addRoot selector kind, [sheet.rulesets.size], inside_addRoot sheet selector kind⟩
  | ⟨sheet, id :: path, inside⟩ =>
    let parent : sheet.Id := ⟨id, inside id List.mem_cons_self⟩
    ⟨sheet.addNested parent selector kind, sheet.rulesets.size :: id :: path,
      inside_addNested sheet parent (id :: path) selector kind inside⟩

def openBlock (draft : Draft) (first : Token) (head : Tokens) : Except Error Draft := do
  if head.isEmpty then throw (.unexpected first .selector)
  if (← readVariable? head).isSome then throw (.unexpected first .variableValue)
  match readAtRule? head with
  | some (keyword, params) =>
    let bubbles := !draft.path.isEmpty && bubblingKeywords.contains keyword.text.toLower
    return draft.enter .empty (.atBlock keyword params bubbles)
  | none => return draft.enter (Selector.read head) .plain

def addItem (draft : Draft) (statement : Tokens) : Except Error Draft :=
  match readAtRule? statement with
  | some (keyword, params) =>
    .ok { draft with
      sheet := draft.sheet.addItem (.atRule keyword params) (by simp)
      inside := draft.inside }
  | none =>
    if (MixinCall.read? statement).isSome then
      .ok { draft with
        sheet := draft.sheet.addItem (.call statement) (by simp)
        inside := draft.inside }
    else .error (.unexpected (statement.headD default) .block)

def endStatement (draft : Draft) (statement : Tokens) : Logged Draft := do
  if statement.isEmpty then return draft
  match ← Logged.ofExcept (readVariable? statement) with
  | some (name, value) => draft.define name value
  | none =>
    match draft with
    | ⟨sheet, id :: path, inside⟩ =>
      return ⟨sheet.addStatement id statement, id :: path, by simpa [Sheet.addStatement] using inside⟩
    | draft => Logged.ofExcept (draft.addItem statement)

/-- A token between two statements. `advance` fails if the token after this one
cannot be read; only a token that is an error itself comes before that failure. -/
def stepBetween (draft : Draft) (advance : Except Error Unit) (token : Token) :
    Except Error (Draft × Option Token) := do
  if token.isBlank then
    advance
    return (draft, none)
  else if token.kind = .braceClose then
    if draft.path.isEmpty then throw (.unexpected token .endOfInput)
    advance
    return (draft.close, none)
  else return (draft, some token)

/-- A comment stands for one space. -/
def asRead (token : Token) : Token :=
  if token.kind = .comment then .derived .whitespace " " token else token

def statementOf (seen : Tokens) : Tokens := Tokens.trim seen.reverse

def stepWithin (draft : Draft) (advance : Except Error Unit) (first : Token) (seen : Tokens)
    (depth : Nat) (token : Token) : Logged (Draft × Phase) := do
  if token.kind = .braceClose then
    if depth ≠ 0 then throw (.unexpected token .closingParen)
    let draft ← draft.endStatement (statementOf seen)
    let (draft, _) ← Logged.ofExcept (draft.stepBetween advance token)
    return (draft, .between)
  else if token.kind = .delimiter && depth == 0 then
    Logged.ofExcept advance
    return (← draft.endStatement (statementOf seen), .between)
  else if token.kind = .braceOpen && depth == 0 then
    Logged.ofExcept advance
    return (← Logged.ofExcept (draft.openBlock first (statementOf seen)), .between)
  else
    Logged.ofExcept advance
    return (draft, .within first (asRead token :: seen) (token.kind.depthAfter depth))

def step (draft : Draft) (phase : Phase) (advance : Except Error Unit) (token : Token) :
    Logged (Draft × Phase) :=
  match phase with
  | .within first seen depth => draft.stepWithin advance first seen depth token
  | .between => do
    match ← Logged.ofExcept (draft.stepBetween advance token) with
    | (draft, none) => return (draft, .between)
    | (draft, some first) => draft.stepWithin advance first [] 0 first

def finish (draft : Draft) (phase : Phase) (position : Position) : Logged Sheet := do
  let eos : Token := ⟨.eos, "", position⟩
  let draft ←
    match phase with
    | .between => pure draft
    | .within _ seen depth =>
      if depth ≠ 0 then throw (.unexpected eos .closingParen) else draft.endStatement (statementOf seen)
  if draft.path.isEmpty then return draft.sheet else throw (.unexpected eos .blockEnd)

/-- Reads the tokens that are left. A fault behind the last token is met when
that token is passed. -/
def run (ending : Except Error Position) (draft : Draft) (phase : Phase) : List Token → Logged Sheet
  | [] => do draft.finish phase (← Logged.ofExcept ending)
  | token :: rest => do
    let advance := if rest.isEmpty then ending.map fun _ => () else .ok ()
    let (draft, phase) ← draft.step phase advance token
    draft.run ending phase rest

end Draft

def Sheet.ofScan (scan : Scan) : Logged Sheet :=
  Draft.empty.run scan.ending .between scan.tokens

def Sheet.read (source text : String) : Logged Sheet :=
  Sheet.ofScan (Scan.ofText source text)

end LessCss
