import LessCss.Compile
import LessCss.Proofs.Evaluator.Frames

/-! The frames of a run, all in all. Main statement: rulesets and guards leave the
stack as it was; an expansion changes only what calls have left behind in the
frame that has asked for it; over a whole run no closure waits when a part of
it begins, and directives are only added behind the others until all of them
are applied at the end. If an expansion fails, the closures of one definition may
go on waiting until the run ends with that failure. -/

set_option autoImplicit false

namespace LessCss

open List

variable {sheet : Sheet}

def Moment.ExtendsBeyond (newer older : Moment sheet) : Prop :=
  older.context.extensions <+: newer.context.extensions

theorem Context.modifyTop_extensions (context : Context sheet) (change : Frame sheet → Frame sheet) :
    (context.modifyTop change).extensions = context.extensions := by
  unfold Context.modifyTop
  split <;> rfl

/-- One step of an orderly run adds directives behind the others or leaves them alone. -/
theorem Context.extensions_after (context : Context sheet) (step : Step sheet)
    (orderly : Moment.Orderly ⟨step, context.after step⟩) :
    context.extensions <+: (context.after step).extensions := by
  cases step with
  | addExtension extension => exact prefix_append _ _
  | takeExtensions => exact orderly.elim
  | saveClosures | addReturned => exact (context.modifyTop_extensions _) ▸ prefix_rfl
  | push | pop | addClosure | attempt => exact prefix_rfl

/-- Along orderly moments the directives only grow. -/
theorem Traced.pairwise_extendsBeyond {history : List (Moment sheet)} {context : Context sheet}
    (traced : Traced history context) (orderly : ∀ moment ∈ history, moment.Orderly) :
    history.Pairwise Moment.ExtendsBeyond ∧
      ∀ moment ∈ history, moment.context.extensions <+: context.extensions := by
  induction traced with
  | start => exact ⟨.nil, nofun⟩
  | @take history context _ step ih =>
    rw [forall_mem_cons] at orderly
    obtain ⟨pairwise, below⟩ := ih orderly.2
    have grown := context.extensions_after step orderly.1
    have older (moment : Moment sheet) (member : moment ∈ history) :
        moment.context.extensions <+: (context.after step).extensions :=
      (below moment member).trans grown
    exact ⟨.cons older pairwise, forall_mem_cons.mpr ⟨prefix_rfl, older⟩⟩

theorem Traced.tail {moment : Moment sheet} {history : List (Moment sheet)} {context : Context sheet}
    (traced : Traced (moment :: history) context) : ∃ earlier, Traced history earlier := by
  generalize same : moment :: history = moments at traced
  cases traced with
  | start => cases same
  | take traced step =>
    cases same
    exact ⟨_, traced⟩

theorem Run.Orderly.pairwise {run : Run sheet} {moments : List (Moment sheet)}
    (orderly : run.Orderly moments) : moments.Pairwise Moment.ExtendsBeyond := by
  obtain ⟨all | ⟨context, taken⟩, each⟩ := orderly
  · exact ((all ▸ run.traced).pairwise_extendsBeyond each).1
  · obtain ⟨_, traced⟩ := Traced.tail (taken ▸ run.traced)
    exact (traced.pairwise_extendsBeyond each).1

namespace Evaluator

open Evaluating

/-- A ruleset and the test of a guard leave the stack as it was. An expansion
leaves it as it was but for the innermost frame, to which it hands over closures
and variables. This holds wherever no closure waits; and in the run on a sheet
none does when a frame is pushed, before an expansion and after a successful one.
After a failed one nothing waits but the closures of a definition whose variables
have failed, and the run ends with that failure. Until the directives are taken,
which is the last step of all, they only grow. -/
theorem frames_respected (library : Library) (sheet : Sheet) :
    (∀ (before after : Run sheet), before.context.pending = [] →
      (∀ active around id nodes,
        (ruleset library (instantiate library active) around id).run.run before =
          some (.ok nodes, after) → after.context.stack = before.context.stack) ∧
      (∀ id arguments captured holds,
        (matchGuard library id arguments captured).run.run before = some (.ok holds, after) →
          after.context.stack = before.context.stack) ∧
      ∀ active call selector candidate outcome top outer,
        before.context.stack = top :: outer →
        (instantiate library active call selector candidate).run.run before = some (outcome, after) →
        (∀ output, outcome = .ok output → HandsOver library candidate top outer before after) ∧
          ∀ error, outcome = .error error → before.Breaks library error after) ∧
    ∃ result run moments, (new library).run sheet = some (result, run) ∧ run.Orderly moments ∧
      moments.Pairwise Moment.ExtendsBeyond ∧ (∀ nodes, result = .ok nodes → run.context.pending = []) ∧
      ∀ error, result = .error error → (Run.start .fresh).Breaks library error run := by
  let inv : Invariant sheet library := .trivial library
  constructor
  · intro before after idle
    refine ⟨?_, ?_, ?_⟩
    · intro active around id nodes ends
      have here : before.At before.context.stack := ⟨rfl, idle⟩
      have ensures := ensures_ruleset (instantiates_instantiate inv active) around id here
      exact ((ensures trivial _ _ ends).2.2.1 nodes rfl).2.1
    · intro id arguments captured holds ends
      have here : before.At before.context.stack := ⟨rfl, idle⟩
      have opens : inv.Opens (.ofGuard id arguments captured) := .guard trivial trivial
      have ensures := ensures_matchGuard opens here
      exact ((ensures trivial _ _ ends).2.2.1 holds rfl).1
    · intro active call selector candidate outcome top outer stack ends
      have here : before.At (top :: outer) := ⟨stack, idle⟩
      have ensures := instantiates_instantiate inv active call selector candidate top outer
        before ⟨fun _ _ => trivial, fun _ _ => trivial⟩ ⟨trivial, trivial⟩ here
      obtain ⟨_, _, holds, breaks⟩ := ensures trivial _ _ ends
      exact ⟨fun output same => (holds output same).2, breaks⟩
  · have ready : (new library).processor = .fresh := rfl
    obtain ⟨result, run, ends, _⟩ := run_eq_of_fresh ready sheet
    obtain ⟨_, ⟨moments, orderly⟩, idle, breaks⟩ := orderly_stylesheet inv trivial ends
    exact ⟨result, run, moments, ends, orderly, orderly.pairwise, idle, breaks⟩

def holdingCalls : String :=
  ".m(@x) when (@x > 0) \x7b @y: @x; .n(@z) \x7b width: @z; \x7d \x7d .a \x7b .m(1px); .n(@y); \x7d " ++
    ".f() \x7b .g(@z) \x7b width: @z; \x7d @v: @w; \x7d .b \x7b .f(); \x7d"

def fitting? {sheet : Sheet} (id : sheet.Id) (statement : Tokens) : Option (MixinCall × Variables) := do
  let call ← MixinCall.read? statement
  return (call, ← call.bind? (sheet.ruleset id).selector)

def first? {sheet : Sheet} {α : Type} (action : Evaluating sheet α) : Option (α × Run sheet) :=
  match action.run.run (.start .fresh) with
  | some (.ok value, after) => some (value, after)
  | _ => none

theorem run_of_first? {sheet : Sheet} {α : Type} {action : Evaluating sheet α} {value : α}
    {after : Run sheet} (found : first? action = some (value, after)) :
    action.run.run (.start .fresh) = some (.ok value, after) := by
  unfold first? at found
  split at found
  · rename_i ends
    cases found
    exact ends
  · cases found

def leftBehind {sheet : Sheet} (run : Run sheet) : List (Nat × List String) :=
  run.context.stack.map fun frame => (frame.closures.length, frame.returned.names)

def anyStranding (library : Library) (sheet : Sheet) : Bool :=
  sheet.roots.any fun definition => sheet.roots.any fun rule => (sheet.ruleset rule).statements.any fun statement =>
    (fitting? definition statement).any fun fit =>
      ((instantiate library [] fit.1 [] ⟨definition, fit.2, [], false⟩).run.run (.start .fresh)).any fun ended =>
        !ended.1.toBool && ended.2.context.pending.length == 1

theorem exists_of_anyStranding {library : Library} {sheet : Sheet} (found : anyStranding library sheet = true) :
    ∃ (definition : sheet.Id) (call : MixinCall) (arguments : Variables) (error : Error) (after : Run sheet),
      (instantiate library [] call [] ⟨definition, arguments, [], false⟩).run.run (.start .fresh) =
        some (.error error, after) ∧ after.context.pending.length = 1 := by
  obtain ⟨definition, _, found⟩ := any_eq_true.mp found
  obtain ⟨rule, _, found⟩ := any_eq_true.mp found
  obtain ⟨statement, _, found⟩ := any_eq_true.mp found
  obtain ⟨⟨call, arguments⟩, _, found⟩ := (Option.any_eq_true _ _).mp found
  obtain ⟨⟨outcome, after⟩, ends, found⟩ := (Option.any_eq_true _ _).mp found
  obtain ⟨fails, waits⟩ := Bool.and_eq_true_iff.mp found
  cases outcome with
  | ok output => cases fails
  | error error => exact ⟨definition, call, arguments, error, after, ends, beq_iff_eq.mp waits⟩

theorem holdingCalls_respected : ∃ (sheet : Sheet) (definition rule failing : sheet.Id) (call call' : MixinCall)
    (arguments arguments' : Variables) (nodes : Css.Stylesheet) (output : Output) (error : Error)
    (tested ruled expanded failed : Run sheet),
    (Sheet.read "in" holdingCalls).outcome.1.toOption = some sheet ∧
    (matchGuard .empty definition arguments []).run.run (.start .fresh) = some (.ok true, tested) ∧
    tested.context.stack = [.root] ∧
    (ruleset .empty (instantiate .empty []) [] rule).run.run (.start .fresh) = some (.ok nodes, ruled) ∧
    nodes ≠ [] ∧ ruled.context.stack = [.root] ∧
    (instantiate .empty [] call [] ⟨definition, arguments, [], true⟩).run.run (.start .fresh) =
      some (.ok output, expanded) ∧
    leftBehind expanded = [(1, ["@y"])] ∧
    HandsOver .empty ⟨definition, arguments, [], true⟩ .root [] (.start .fresh) expanded ∧
    (instantiate .empty [] call' [] ⟨failing, arguments', [], false⟩).run.run (.start .fresh) =
      some (.error error, failed) ∧
    ∃ id inner, (Run.start .fresh).Strands .empty error failed id inner := by
  have checked : ((Sheet.read "in" holdingCalls).outcome.1.toOption.any fun sheet =>
      (sheet.roots.any fun definition => sheet.roots.any fun rule =>
        (sheet.ruleset rule).statements.any fun statement =>
          (fitting? definition statement).any fun fit =>
            ((first? (matchGuard .empty definition fit.2 [])).any fun tested => tested.1) &&
            ((first? (ruleset .empty (instantiate .empty []) [] rule)).any fun ruled =>
              !ruled.1.isEmpty) &&
            ((first? (instantiate .empty [] fit.1 [] ⟨definition, fit.2, [], true⟩)).any fun expanded =>
              leftBehind expanded.2 = [(1, ["@y"])])) &&
      anyStranding .empty sheet) = true := by
    decide +kernel
  obtain ⟨sheet, read, checked⟩ := (Option.any_eq_true _ _).mp checked
  obtain ⟨checked, stranding⟩ := Bool.and_eq_true_iff.mp checked
  obtain ⟨definition, _, checked⟩ := any_eq_true.mp checked
  obtain ⟨rule, _, checked⟩ := any_eq_true.mp checked
  obtain ⟨statement, _, checked⟩ := any_eq_true.mp checked
  obtain ⟨⟨call, arguments⟩, _, checked⟩ := (Option.any_eq_true _ _).mp checked
  rw [Bool.and_eq_true, Bool.and_eq_true] at checked
  obtain ⟨⟨guarded, ruled⟩, expanded⟩ := checked
  obtain ⟨⟨_, tested⟩, found, rfl⟩ := (Option.any_eq_true _ _).mp guarded
  obtain ⟨⟨nodes, ruled⟩, found', some_⟩ := (Option.any_eq_true _ _).mp ruled
  obtain ⟨⟨output, expanded⟩, found'', left⟩ := (Option.any_eq_true _ _).mp expanded
  obtain ⟨failing, call', arguments', error, failed, ends, waits⟩ := exists_of_anyStranding stranding
  have respected := (frames_respected .empty sheet).1 (.start .fresh)
  refine ⟨sheet, definition, rule, failing, call, call', arguments, arguments', nodes, output, error, tested, ruled,
    expanded, failed, read, run_of_first? found, ?_, run_of_first? found', ?_, ?_, run_of_first? found'',
    of_decide_eq_true left, ?_, ends, ?_⟩
  · exact (respected tested rfl).2.1 _ _ _ _ (run_of_first? found)
  · rintro rfl
    cases some_
  · exact (respected ruled rfl).1 _ _ _ _ (run_of_first? found')
  · exact ((respected expanded rfl).2.2 _ _ _ _ _ _ _ rfl (run_of_first? found'')).1 output rfl
  · rcases ((respected failed rfl).2.2 _ _ _ _ _ _ _ rfl ends).2 error rfl with idle | strands
    · rw [idle] at waits
      cases waits
    · exact strands

def strandedClosure : String :=
  ".m() \x7b .n(@a) \x7b x: y \x7d @v: @undefined; \x7d .a \x7b .m(); \x7d"

/-- An expansion fails and leaves a closure waiting, also in the run on the sheet. -/
theorem strandedClosure_waits : ∃ (sheet : Sheet) (definition : sheet.Id) (call : MixinCall) (arguments : Variables)
    (error error' : Error) (after run : Run sheet),
    (Sheet.read defaultSourceName strandedClosure).outcome.1.toOption = some sheet ∧
    (instantiate .builtin [] call [] ⟨definition, arguments, [], false⟩).run.run (.start .fresh) =
      some (.error error, after) ∧
    after.context.pending.length = 1 ∧
    (new .builtin).run sheet = some (.error error', run) ∧ run.context.pending.length = 1 := by
  have checked : ((Sheet.read defaultSourceName strandedClosure).outcome.1.toOption.any fun sheet =>
      anyStranding .builtin sheet &&
        ((new .builtin).run sheet).any fun ended =>
          !ended.1.toBool && ended.2.context.pending.length == 1) = true := by
    decide +kernel
  obtain ⟨sheet, read, checked⟩ := (Option.any_eq_true _ _).mp checked
  obtain ⟨stranding, checked⟩ := Bool.and_eq_true_iff.mp checked
  obtain ⟨definition, call, arguments, error, after, ends, waits⟩ := exists_of_anyStranding stranding
  obtain ⟨⟨outcome, run⟩, ends', checked⟩ := (Option.any_eq_true _ _).mp checked
  obtain ⟨fails, waits'⟩ := Bool.and_eq_true_iff.mp checked
  cases outcome with
  | ok nodes => cases fails
  | error error' =>
    exact ⟨sheet, definition, call, arguments, error, error', after, run, read, ends, waits, ends', beq_iff_eq.mp waits'⟩

end Evaluator

end LessCss
