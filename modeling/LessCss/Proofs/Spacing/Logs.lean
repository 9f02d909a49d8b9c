import LessCss.Log
import LessCss.Proofs.Spacing.Readers

/-! Computations that keep a log and agree in what they give, whatever they report. -/

set_option autoImplicit false

namespace LessCss.Logged

variable {α β γ δ : Type} {R : α → β → Prop} {S : γ → δ → Prop}

inductive Outcomes (R : α → β → Prop) : EStateM.Result Error Log α → EStateM.Result Error Log β → Prop where
  | ok {first : α} {second : β} (same : R first second) (log log' : Log) :
      Outcomes R (.ok first log) (.ok second log')
  | error (first second : Error) (log log' : Log) : Outcomes R (.error first log) (.error second log')

def Agree (R : α → β → Prop) (first : Logged α) (second : Logged β) : Prop :=
  ∀ log log', Outcomes R (first.run log) (second.run log')

theorem agree_pure {first : α} {second : β} (same : R first second) : Agree R (pure first) (pure second) :=
  fun log log' => .ok same log log'

theorem agree_throw (first second : Error) : Agree R (throw first) (throw second) :=
  fun log log' => .error first second log log'

theorem Agree.bind {first : Logged α} {second : Logged β} {next : α → Logged γ} {next' : β → Logged δ}
    (agree : Agree R first second) (step : ∀ a b, R a b → Agree S (next a) (next' b)) :
    Agree S (first >>= next) (second >>= next') := by
  intro log log'
  have both := agree log log'
  rw [EStateM.run_bind, EStateM.run_bind]
  generalize first.run log = ran at both ⊢
  generalize second.run log' = ran' at both ⊢
  cases both with
  | ok same log log' => exact step _ _ same log log'
  | error first second log log' => exact .error first second log log'

theorem agree_ofExcept {first : Except Error α} {second : Except Error β} (agree : LessCss.Agree R first second) :
    Agree R (ofExcept first) (ofExcept second) := by
  cases agree with
  | ok same => exact agree_pure same
  | error => exact agree_throw _ _

theorem agree_report_bind {first : Logged α} {second : Logged β} (level level' : Level) (message message' : String)
    (agree : Agree R first second) :
    Agree R (report level message >>= fun _ => first) (report level' message' >>= fun _ => second) :=
  fun _ _ => agree _ _

theorem agree_ite {c : Prop} [Decidable c] {first first' : Logged α} {second second' : Logged β}
    (holds : c → Agree R first second) (fails : ¬ c → Agree R first' second') :
    Agree R (if c then first else first') (if c then second else second') := by
  split
  · exact holds (by assumption)
  · exact fails (by assumption)

theorem agree_mapM {f : α → Logged γ} {g : β → Logged δ} {list : List α} {list' : List β}
    (same : List.Forall₂ R list list') (step : ∀ a b, R a b → Agree S (f a) (g b)) :
    Agree (List.Forall₂ S) (list.mapM f) (list'.mapM g) := by
  induction same with
  | nil => exact agree_pure .nil
  | cons first _ ih =>
    rw [List.mapM_cons, List.mapM_cons]
    refine (step _ _ first).bind fun a b same => ih.bind fun rest rest' others => ?_
    exact agree_pure (.cons same others)

theorem Agree.outcome {first : Logged α} {second : Logged β} (agree : Agree R first second) :
    LessCss.Agree R first.outcome.1 second.outcome.1 := by
  have both := agree [] []
  unfold Logged.outcome
  generalize first.run [] = ran at both ⊢
  generalize second.run [] = ran' at both ⊢
  cases both with
  | ok same => exact .ok same
  | error => exact .error _ _

end LessCss.Logged
