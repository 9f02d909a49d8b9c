import LessCss.Proofs.Evaluator.Sheet

/-! An evaluator carries nothing over from one sheet to the next. Main statement:
sheets that are evaluated one after the other with one evaluator have the results
that they have with evaluators of their own; and whatever the processor of values
has begun is undone at the end of each of its computations, failed or not. -/

set_option autoImplicit false

namespace LessCss.Evaluator

/-- The results of sheets that are evaluated one after the other. -/
theorem evaluateAll_of_fresh {evaluator : Evaluator} (fresh : evaluator.processor = .fresh)
    (sheets : List Sheet) : ∃ last,
      evaluator.evaluateAll sheets =
          some (sheets.map fun sheet => (sheet.evaluate evaluator.library).outcome.1, last) ∧
        last.library = evaluator.library ∧ last.processor = .fresh := by
  induction sheets generalizing evaluator with
  | nil => exact ⟨evaluator, rfl, rfl, fresh⟩
  | cons sheet rest ih =>
    obtain ⟨next, first, same, fresh⟩ := evaluate_of_fresh fresh sheet
    obtain ⟨last, others, same', fresh⟩ := ih fresh
    refine ⟨last, ?_, same'.trans same, fresh⟩
    rw [evaluateAll, first]
    change (next.evaluateAll rest >>= _) = _
    rw [others, same]
    rfl

/-- With one evaluator sheets have the results that they have with evaluators of
their own, and the processor ends as it began. In any scope, a computation of a
processor ends and leaves the processor as it was, also if it was at work already. -/
theorem nothing_carried_over (library : Library) (sheets : List Sheet) :
    (∃ results last, (new library).evaluateAll sheets = some (results, last) ∧
      last.library = library ∧ last.processor = (new library).processor ∧
      results.map some = sheets.map fun sheet => ((new library).evaluate sheet).map Prod.fst) ∧
    ∀ (scope : Scope) (processor : Processor),
      (∀ tokens, ∃ result, ((scope.setting library).value tokens).Keeps processor result) ∧
      (∀ condition, ∃ result, ((scope.setting library).holds condition).Keeps processor result) ∧
      (∀ at_ text, ∃ result,
        ((scope.setting library).interpolate at_ text).Keeps processor result) ∧
      ∀ tokens, ∃ result,
        ((scope.setting library).interpolateTokens tokens).Keeps processor result := by
  constructor
  · have ready : (new library).processor = .fresh := rfl
    obtain ⟨last, ends, same, fresh⟩ := evaluateAll_of_fresh ready sheets
    refine ⟨_, last, ends, same, fresh, ?_⟩
    rw [List.map_map]
    apply List.map_congr_left
    intro sheet _
    obtain ⟨last, alone, _⟩ := evaluate_of_fresh ready sheet
    rw [alone]
    rfl
  · intro scope processor
    have handles := scope.handles_setting library processor.evaluating
    exact ⟨fun tokens => ⟨_, handles.value processor.parens tokens⟩,
      fun condition => ⟨_, handles.holds processor.parens condition⟩,
      fun at_ text => ⟨_, handles.interpolate processor.parens at_ text⟩,
      fun tokens => ⟨_, handles.interpolateTokens processor.parens tokens⟩⟩

end LessCss.Evaluator
