import LessCss.Proofs.Token.Cuts
import LessCss.Sheet.Read

/-! What single tokens do while a sheet is read from a text that has an end. -/

set_option autoImplicit false

namespace LessCss

open List

open Tokens

namespace Tokens

/-- The bracket depth behind tokens that a statement goes on with, if it ends before none of them. -/
def through (depth : Nat) : Tokens → Option Nat
  | [] => some depth
  | token :: rest =>
    if token.kind = .braceClose || (depth == 0 && (token.kind == .delimiter || token.kind == .braceOpen)) then none
    else through (token.kind.depthAfter depth) rest

variable {tokens rest : Tokens} {depth : Nat}

theorem through_append (depth : Nat) (tokens rest : Tokens) :
    through depth (tokens ++ rest) = (through depth tokens).bind fun depth => through depth rest := by
  induction tokens generalizing depth with
  | nil => rfl
  | cons token tokens ih =>
    rw [cons_append, through, through]
    split
    · rfl
    · exact ih _

theorem through_canonical (depth : Nat) (tokens : Tokens) : through depth tokens.canonical = through depth tokens := by
  induction tokens generalizing depth with
  | nil => rfl
  | cons token rest ih =>
    rw [canonical_cons, through, through, ih]
    rfl

theorem depthAfter_of_through {end_ : Nat} (through_ : through depth tokens = some end_) :
    depthAfter depth tokens = end_ := by
  induction tokens generalizing depth with
  | nil => exact Option.some.inj through_
  | cons token tokens ih =>
    rw [through] at through_
    split at through_
    · cases through_
    · exact ih through_

theorem through_middle {before after : Tokens} {end_ : Nat} (goes : through depth (before ++ tokens ++ after) = some end_) :
    through (depthAfter depth before) tokens = some (depthAfter (depthAfter depth before) tokens) := by
  rw [List.append_assoc, through_append] at goes
  obtain ⟨level, first, goes⟩ := Option.bind_eq_some_iff.mp goes
  rw [through_append] at goes
  obtain ⟨level', second, _⟩ := Option.bind_eq_some_iff.mp goes
  rw [depthAfter_of_through first, depthAfter_of_through second, second]

theorem through_trim {end_ : Nat} (goes : through depth tokens = some end_) : through depth (trim tokens) = some end_ := by
  have level := depthAfter_of_through goes
  rw [← depthAfter_trim] at level
  obtain ⟨before, after, blank, _, same⟩ := exists_trim tokens
  rw [same] at goes
  have middle := through_middle goes
  rwa [depthAfter_of_blank blank, level] at middle

end Tokens

namespace Draft

variable {place : Position} {draft : Draft} {first token : Token} {seen rest : Tokens} {depth : Nat}

theorem run_cons (phase : Phase) (token : Token) (rest : Tokens) :
    draft.run (.ok place) phase (token :: rest) =
      draft.step phase (.ok ()) token >>= fun next => next.1.run (.ok place) next.2 rest := by
  have advance : (if rest.isEmpty then (Except.ok place : Except Error Position).map fun _ => () else .ok ()) =
      .ok () := by
    split <;> rfl
  rw [run, advance]

theorem run_blank (blank : token.isBlank = true) :
    draft.run (.ok place) .between (token :: rest) = draft.run (.ok place) .between rest := by
  rw [run_cons, step, stepBetween, if_pos blank]
  rfl

theorem run_start (solid : token.isBlank = false) (other : token.kind ≠ .braceClose) :
    draft.run (.ok place) .between (token :: rest) = draft.run (.ok place) (.within token [] 0) (token :: rest) := by
  have same : draft.step .between (.ok ()) token = draft.step (.within token [] 0) (.ok ()) token := by
    have stays : draft.stepBetween (.ok ()) token = .ok (draft, some token) := by
      rw [stepBetween, if_neg (by simp [solid]), if_neg other]
      rfl
    simp only [step, stays]
    rfl
  rw [run_cons, run_cons, same]

theorem run_close (closes : token.kind = .braceClose) : draft.run (.ok place) .between (token :: rest) =
    if draft.path.isEmpty then throw (.unexpected token .endOfInput) else draft.close.run (.ok place) .between rest := by
  have solid : token.isBlank = false := by
    rw [Token.isBlank, closes]
    rfl
  rw [run_cons, step, stepBetween, if_neg (by simp [solid]), if_pos closes]
  split <;> rfl

theorem run_on (on : through depth [token] = some (token.kind.depthAfter depth)) (solid : token.kind ≠ .comment) :
    draft.run (.ok place) (.within first seen depth) (token :: rest) =
      draft.run (.ok place) (.within first (token :: seen) (token.kind.depthAfter depth)) rest := by
  rw [through] at on
  split at on
  · cases on
  · rename_i goes
    simp only [Bool.or_eq_true, Bool.and_eq_true, decide_eq_true_eq, beq_iff_eq, not_or, not_and] at goes
    rw [run_cons, step, stepWithin, if_neg goes.1, if_neg (by simp; grind), if_neg (by simp; grind), asRead, if_neg solid]
    rfl

theorem run_delimiter (ends : token.kind = .delimiter) :
    draft.run (.ok place) (.within first seen 0) (token :: rest) =
      draft.endStatement (statementOf seen) >>= fun draft => draft.run (.ok place) .between rest := by
  rw [run_cons, step, stepWithin, if_neg (by simp [ends]), if_pos (by simp [ends])]
  simp only [bind_assoc]
  rfl

theorem run_open (opens : token.kind = .braceOpen) :
    draft.run (.ok place) (.within first seen 0) (token :: rest) =
      Logged.ofExcept (draft.openBlock first (statementOf seen)) >>= fun draft => draft.run (.ok place) .between rest := by
  rw [run_cons, step, stepWithin, if_neg (by simp [opens]), if_neg (by simp [opens]), if_pos (by simp [opens])]
  simp only [bind_assoc]
  rfl

/-- A closing brace ends the statement first. -/
theorem run_leave (closes : token.kind = .braceClose) : draft.run (.ok place) (.within first seen depth) (token :: rest) =
    if depth = 0 then
      draft.endStatement (statementOf seen) >>= fun draft => draft.run (.ok place) .between (token :: rest)
    else throw (.unexpected token .closingParen) := by
  rw [run_cons, step, stepWithin, if_pos closes]
  by_cases outside : depth = 0
  · rw [if_neg (by simp [outside]), if_pos outside]
    dsimp only
    rw [bind_assoc]
    refine bind_congr fun draft => ?_
    have solid : token.isBlank = false := by
      rw [Token.isBlank, closes]
      rfl
    rw [run_close closes, stepBetween, if_neg (by simp [solid]), if_pos closes]
    cases draft.path.isEmpty <;> rfl
  · rw [if_pos outside, if_neg outside]
    rfl

theorem run_nil (phase : Phase) : draft.run (.ok place) phase [] = draft.finish phase place := by
  rw [run]
  rfl

theorem finish_between : draft.finish .between place =
    if draft.path.isEmpty then pure draft.sheet else throw (.unexpected ⟨.eos, "", place⟩ .blockEnd) :=
  rfl

theorem finish_within : draft.finish (.within first seen depth) place =
    if depth = 0 then draft.endStatement (statementOf seen) >>= fun draft => draft.finish .between place
    else throw (.unexpected ⟨.eos, "", place⟩ .closingParen) := by
  unfold finish
  dsimp only
  by_cases outside : depth = 0
  · rw [if_neg (by simp [outside]), if_pos outside]
    rfl
  · rw [if_pos outside, if_neg outside]
    rfl

/-- A statement goes on over tokens that do not end it. -/
theorem run_through {tokens : Tokens} {end_ : Nat} (goes : through depth tokens = some end_)
    (solid : ∀ token ∈ tokens, token.kind ≠ .comment) :
    draft.run (.ok place) (.within first seen depth) (tokens ++ rest) =
      draft.run (.ok place) (.within first (tokens.reverse ++ seen) end_) rest := by
  induction tokens generalizing seen depth with
  | nil =>
    cases goes
    rfl
  | cons token tokens ih =>
    obtain ⟨noComment, others⟩ := forall_mem_cons.mp solid
    rw [← singleton_append, through_append] at goes
    obtain ⟨next, one, goes⟩ := Option.bind_eq_some_iff.mp goes
    have level : next = token.kind.depthAfter depth := (depthAfter_of_through one).symm
    subst level
    rw [cons_append, run_on one noComment, ih goes others, reverse_cons, List.append_assoc]
    rfl

/-! ### Statements without at-keywords -/

theorem readVariable?_of_plain {statement : Tokens} (plain : ∀ token ∈ statement, token.kind ≠ .atKeyword) :
    readVariable? statement = .ok none := by
  cases statement with
  | nil => rfl
  | cons first rest =>
    have other := plain first mem_cons_self
    rw [readVariable?]
    cases trimLeft rest with
    | nil => rfl
    | cons mark value => simp [other]

theorem readAtRule?_of_plain {statement : Tokens} (plain : ∀ token ∈ statement, token.kind ≠ .atKeyword) :
    readAtRule? statement = none := by
  cases statement with
  | nil => rfl
  | cons first rest => exact if_neg (plain first mem_cons_self)

theorem openBlock_of_plain {head : Tokens} (plain : ∀ token ∈ head, token.kind ≠ .atKeyword) :
    draft.openBlock first head =
      if head.isEmpty then .error (.unexpected first .selector) else .ok (draft.enter (Selector.read head) .plain) := by
  rw [openBlock, readVariable?_of_plain plain, readAtRule?_of_plain plain]
  cases head.isEmpty <;> rfl

theorem endStatement_inside {sheet : Sheet} {id : Nat} {path : List Nat} {statement : Tokens}
    {inside : ∀ other ∈ id :: path, other < sheet.rulesets.size} (some_ : statement ≠ [])
    (plain : ∀ token ∈ statement, token.kind ≠ .atKeyword) :
    endStatement ⟨sheet, id :: path, inside⟩ statement =
      pure ⟨sheet.addStatement id statement, id :: path, by simpa [Sheet.addStatement] using inside⟩ := by
  rw [endStatement, readVariable?_of_plain plain, if_neg (by simpa using some_)]
  rfl

theorem endStatement_outside {sheet : Sheet} {statement : Tokens} {inside : ∀ other ∈ [], other < sheet.rulesets.size}
    (some_ : statement ≠ []) (plain : ∀ token ∈ statement, token.kind ≠ .atKeyword) :
    endStatement ⟨sheet, [], inside⟩ statement =
      if (MixinCall.read? statement).isSome then pure ⟨sheet.addItem (.call statement) fun _ => Item.noConfusion, [], inside⟩
      else throw (.unexpected (statement.headD default) .block) := by
  unfold endStatement
  rw [readVariable?_of_plain plain, if_neg (by simpa using some_)]
  change Logged.ofExcept (addItem _ statement) = _
  rw [addItem, readAtRule?_of_plain plain]
  dsimp only
  split <;> rfl

end Draft

end LessCss
