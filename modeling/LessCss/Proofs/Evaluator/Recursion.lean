import Mathlib.Data.Fintype.Card
import LessCss.Proofs.Evaluator.Sheet
import LessCss.Sheet.Read

/-! Evaluation ends, and recursion of mixins is caught. Main statement: the run on
any sheet ends; at each of its moments the definitions under expansion are
distinct, so there are no more of them than rulesets; and an attempt to expand
one of them once more ends the run with an error that names the call. -/

set_option autoImplicit false

namespace LessCss.Evaluator

theorem length_expansions_le {sheet : Sheet} {context : Context sheet} (distinct : context.Distinct) :
    context.stack.expansions.length ≤ sheet.rulesets.size := by
  have bound := List.Nodup.length_le_card distinct
  rwa [Fintype.card_fin] at bound

/-- The run on a sheet ends, and its moments lead to its last context step by step.
The definitions under expansion are distinct at each of them, and the attempt to
expand one of these again is what the run fails with. -/
theorem run_ends_recursion_caught (library : Library) (sheet : Sheet) :
    ∃ result run, (new library).run sheet = some (result, run) ∧ Traced run.history run.context ∧
      (∀ moment ∈ run.history, moment.context.stack.expansions.Nodup ∧
        moment.context.stack.expansions.length ≤ sheet.rulesets.size) ∧
      ∀ moment ∈ run.history, ∀ (call : MixinCall) (id : sheet.Id),
        moment.step = .attempt call id → id ∈ moment.context.stack.expansions →
          result = .error (.cyclicMixin call.name.position call.displayName) := by
  have ready : (new library).processor = .fresh := rfl
  obtain ⟨result, run, ends, _, sound⟩ := run_eq_of_fresh ready sheet
  refine ⟨result, run, ends, run.traced, ?_, ?_⟩
  · intro moment member
    have distinct := sound.lasting moment member
    exact ⟨distinct, length_expansions_le distinct⟩
  · intro moment member call id attempt active
    have failed := sound.caught moment member call id attempt active
    cases result with
    | ok css => cases failed
    | error error => exact congrArg Except.error (Option.some.inj failed)

def reenters {sheet : Sheet} (moment : Moment sheet) : Bool :=
  match moment.step with
  | .attempt _ id => moment.context.stack.expansions.contains id
  | _ => false

theorem attempt_of_reenters {sheet : Sheet} {moment : Moment sheet} (again : reenters moment = true) :
    ∃ call id, moment.step = .attempt call id ∧ id ∈ moment.context.stack.expansions := by
  unfold reenters at again
  split at again
  · rename_i call id step
    exact ⟨call, id, step, List.contains_iff_mem.mp again⟩
  · cases again

def selfCall : String := ".m() \x7b .m(); \x7d .a \x7b .m(); \x7d"

theorem selfCall_caught : ∃ sheet result run moment call id,
    (Sheet.read "in" selfCall).outcome.1.toOption = some sheet ∧
      (new .empty).run sheet = some (result, run) ∧ moment ∈ run.history ∧
      moment.step = .attempt call id ∧ id ∈ moment.context.stack.expansions ∧
      result = .error (.cyclicMixin call.name.position call.displayName) := by
  have checked : ((Sheet.read "in" selfCall).outcome.1.toOption.any fun sheet =>
      ((new .empty).run sheet).any fun ended => ended.2.history.any reenters) = true := by
    decide +kernel
  obtain ⟨sheet, read, found⟩ := (Option.any_eq_true _ _).mp checked
  obtain ⟨result, run, ends, _, _, caught⟩ := run_ends_recursion_caught .empty sheet
  rw [ends] at found
  obtain ⟨moment, member, again⟩ := List.any_eq_true.mp found
  obtain ⟨call, id, attempt, active⟩ := attempt_of_reenters again
  exact ⟨sheet, result, run, moment, call, id, read, ends, member, attempt, active,
    caught moment member call id attempt active⟩

end LessCss.Evaluator
