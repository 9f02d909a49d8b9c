import LessCss.Evaluation.Sheet
import LessCss.Evaluator.Sheet
import LessCss.Proofs.Evaluator.Rulesets

/-! The run of an evaluator on a sheet follows the evaluation of the sheet. So it
ends, with the same result, and it is sound. -/

set_option autoImplicit false

namespace LessCss.Evaluating

variable {sheet : Sheet} (library : Library) {run : Run sheet} {frame : Frame sheet}
  {extensions : List Extension}

theorem follows_atRule (keyword : Token) (params : Tokens) (sound : run.Sound none)
    (here : run.context = ⟨[frame], extensions, []⟩) :
    Follows (atRule library keyword params) run
      (Logged.ofExcept (Evaluation.evaluateAtRule library (Stack.scope [frame]) keyword params))
      (Yielded [frame] extensions) := by
  rw [atRule, Evaluation.evaluateAtRule, Logged.ofExcept_bind]
  refine Follows.bind (follows_scope sound here (Scope.keeps_value library _ _)) ?_
  rintro _ params after sound ⟨rfl, here⟩
  refine follows_pure sound ⟨rfl, rfl, ?_⟩
  exact (yielded_empty here).2.2

def Entered (extensions : List Extension) (result : Frame sheet × Yield) (nodes : Css.Stylesheet)
    (after : Context sheet) : Prop :=
  nodes = result.2.nodes ∧ result.1.ruleset = none ∧
    after = ⟨[result.1], extensions ++ result.2.extensions, []⟩

theorem follows_rootCall (tokens : Tokens) (outside : frame.ruleset = none) (sound : run.Sound none)
    (here : run.context = ⟨[frame], extensions, []⟩) :
    Follows (rootCall library tokens) run (Evaluation.evaluateRootCall library frame tokens)
      (Entered extensions) := by
  rw [rootCall, Evaluation.evaluateRootCall]
  cases MixinCall.read? tokens with
  | none => exact follows_throw sound
  | some call =>
    have expands := expands_expand library (Stack.calls [frame]) (List.nil_subset _)
    have called := follows_callMixin library expands call [] rfl sound here
    rw [outside] at called
    refine called.bind ?_
    intro progress? output? after sound called
    cases called with
    | absent here => exact follows_throw sound
    | @found progress output _ progressed =>
      obtain ⟨rfl, kept, here⟩ := progressed
      dsimp only
      cases progress.yield.toOutput.declarations with
      | nil => exact follows_pure sound ⟨rfl, kept.trans outside, here⟩
      | cons declaration rest => exact follows_throw sound

theorem follows_entry (item : sheet.Entry) (outside : frame.ruleset = none) (sound : run.Sound none)
    (here : run.context = ⟨[frame], extensions, []⟩) :
    Follows (entry library item) run (Evaluation.evaluateEntry library frame item)
      (Entered extensions) := by
  cases item with
  | ruleset id =>
    have expands := expands_expand library (Stack.calls [frame]) (List.nil_subset _)
    refine (follows_ruleset library expands [] id rfl sound here).restate ?_
    rintro yield nodes after ⟨same, _, here⟩
    exact ⟨same, outside, here⟩
  | atRule keyword params =>
    refine (follows_atRule library keyword params sound here).restate ?_
    rintro yield nodes after ⟨same, _, here⟩
    exact ⟨same, outside, here⟩
  | call tokens => exact follows_rootCall library tokens outside sound here

theorem follows_entries (list : List sheet.Entry) (outside : frame.ruleset = none)
    (sound : run.Sound none) (here : run.context = ⟨[frame], extensions, []⟩) :
    Follows (entries library list) run (Evaluation.evaluateEntries library frame list)
      fun yield nodes after =>
        nodes = yield.nodes ∧ after.extensions = extensions ++ yield.extensions := by
  induction list generalizing run frame extensions with
  | nil => exact follows_pure sound ⟨rfl, by rw [here]; exact (List.append_nil _).symm⟩
  | cons item rest ih =>
    refine (follows_entry library item outside sound here).bind ?_
    rintro first _ after sound ⟨rfl, outside, here⟩
    refine (ih outside sound here).bind ?_
    rintro others _ after sound ⟨rfl, here⟩
    exact follows_pure sound ⟨rfl, by rw [here, List.append_assoc]; rfl⟩

theorem sound_start : (Run.start .fresh : Run sheet).Sound none :=
  ⟨rfl, List.nodup_nil, fun _ => nofun, fun _ => nofun⟩

theorem follows_stylesheet (sheet : Sheet) :
    Follows (stylesheet library sheet) (.start .fresh) (sheet.evaluate library)
      fun css result _ => result = css := by
  rw [stylesheet, Sheet.evaluate]
  refine (follows_entries library sheet.entries rfl sound_start rfl).bind ?_
  rintro yield _ after sound ⟨rfl, here⟩
  have taken : (after.take .takeExtensions).Sound none :=
    sound.take sound.distinct fun _ _ => nofun
  refine follows_get_bind (follows_take_bind ?_)
  rw [here, List.nil_append]
  by_cases empty : yield.extensions.isEmpty
  · rw [if_pos empty, if_pos empty]
    exact follows_pure taken rfl
  · rw [if_neg empty, if_neg empty]
    exact follows_report_bind (follows_ofLogged (taken.report _ _))

end LessCss.Evaluating

namespace LessCss.Evaluator

def failure? {α : Type} : Except Error α → Option Error
  | .ok _ => none
  | .error error => some error

/-- With a processor that has not begun anything, the run of an evaluator on a
sheet ends with the result and the log of the sheet, and is sound. -/
theorem run_eq_of_fresh {evaluator : Evaluator} (fresh : evaluator.processor = .fresh)
    (sheet : Sheet) : ∃ result run, evaluator.run sheet = some (result, run) ∧
      (sheet.evaluate evaluator.library).outcome = (result, run.log) ∧ run.Sound (failure? result) := by
  rw [run, fresh]
  cases Evaluating.follows_stylesheet evaluator.library sheet with
  | @ok _ css after does same sound equal =>
    subst equal
    have run_eq : (sheet.evaluate evaluator.library).run [] = .ok css after.log := same
    refine ⟨.ok css, after, does, ?_, sound⟩
    rw [Logged.outcome, run_eq]
  | @error error after does same sound =>
    have run_eq : (sheet.evaluate evaluator.library).run [] = .error error after.log := same
    refine ⟨.error error, after, does, ?_, sound⟩
    rw [Logged.outcome, run_eq]

/-- One sheet leaves the evaluator ready for the next one. -/
theorem evaluate_of_fresh {evaluator : Evaluator} (fresh : evaluator.processor = .fresh)
    (sheet : Sheet) : ∃ last,
      evaluator.evaluate sheet = some ((sheet.evaluate evaluator.library).outcome.1, last) ∧
        last.library = evaluator.library ∧ last.processor = .fresh := by
  obtain ⟨result, run, ends, outcome, sound⟩ := run_eq_of_fresh fresh sheet
  refine ⟨⟨evaluator.library, run.processor, sheet, run.context⟩, ?_, rfl, sound.fresh⟩
  rw [evaluate, ends, outcome]
  rfl

end LessCss.Evaluator
