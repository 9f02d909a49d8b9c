import LessCss.Proofs.Evaluator.Frames
import LessCss.Proofs.Expression.Flow
import LessCss.Sheet.Read

/-! References to variables. Main statement: a value that was evaluated refers to no
variable any more. So nothing that a sheet puts out does, nor any argument that a
call was evaluated with, nor any variable that a call has left behind. -/

set_option autoImplicit false

namespace LessCss

open List

def Tokens.Resolved (tokens : Tokens) : Prop := ∀ token ∈ tokens, token.kind ≠ .atKeyword

namespace Tokens.Resolved

variable {tokens others : Tokens} {token : Token}

theorem append (first : Resolved tokens) (second : Resolved others) : Resolved (tokens ++ others) :=
  forall_mem_append.mpr ⟨first, second⟩

theorem singleton (other : token.kind ≠ .atKeyword) : Resolved [token] := forall_mem_singleton.mpr other

theorem trim (resolved : Resolved tokens) : Resolved tokens.trim :=
  fun token member => resolved token (mem_of_mem_trim member)

end Tokens.Resolved

/-! ### Values -/

namespace Environment

variable {env : Environment}

theorem kind_interpolateToken (grouped : Bool) (token : Token) :
    Returns (env.interpolateToken grouped token) fun filled => filled.kind = token.kind :=
  (returns_any _).bind fun _ _ => returns_ok rfl

def resolution : Flow := ⟨fun _ => True, fun _ => True, Tokens.Resolved⟩

theorem resolved_of_computes {library : Library} {tokens : Tokens} (nothing : tokens.computes library = false) :
    Tokens.Resolved tokens := by
  intro token member kind
  cases nothing.symm.trans (Tokens.computes_of_reference member kind)

theorem admits_resolution (known : resolution.KnowsAll env) : resolution.Admits env where
  literal _ _ := fun _ _ _ _ => trivial
  variable_ _ _ _ := fun _ _ _ _ => trivial
  escaped _ _ _ := returns_any _
  keyword _ _ := trivial
  argument _ _ _ _ := trivial
  zero := trivial
  operate _ _ _ _ := returns_any _
  call _ _ := returns_any _
  writtenBack _ _ := trivial
  nil := forall_mem_nil _
  append := Tokens.Resolved.append
  space := .singleton (by decide)
  computed _ _ := .singleton (Value.tokenKind_ne _ rfl)
  resolved := known.resolve
  filled {token} grouped _ kind := by
    refine (kind_interpolateToken grouped token).mono fun filled same => .singleton fun reference => ?_
    rw [← same, reference] at kind
    cases kind
  copied _ _ other := .singleton other
  deferred {name opening group} grouped _ kind opens _ := by
    refine (known.substitute (fun _ => id) (fun _ _ => id) grouped).mono fun group resolved => ?_
    refine forall_mem_cons.mpr ⟨by rw [kind]; decide, forall_mem_cons.mpr ⟨by rw [opens]; decide, resolved⟩⟩
  untouched {tokens} grouped _ nothing := by
    refine returns_mapM tokens fun token member => ?_
    refine (kind_interpolateToken grouped token).mono fun filled same => ?_
    rw [same]
    exact resolved_of_computes nothing token member

end Environment

namespace Scope

open Environment (resolution)

variable (library : Library) (scope : Scope)

/-- In a scope, whatever variables are under evaluation already, no reference is left in a value. -/
theorem resolved_evaluate (active : List String) (grouped : Bool) (tokens : Tokens) :
    Returns (Environment.evaluate ⟨library, scope.definition? library active⟩ grouped tokens) Tokens.Resolved := by
  have known : resolution.KnowsAll ⟨library, scope.definition? library active⟩ :=
    Flow.knowsAll_definition? (fun _ _ _ _ _ => trivial) (fun _ known => Environment.admits_resolution known)
      (fun _ => Tokens.Resolved.trim) active
  exact Flow.written_evaluate (Environment.admits_resolution known) grouped tokens fun _ _ => trivial

theorem exists_value_resolved (processor : Processor) (tokens : Tokens) : ∃ result,
    Processing.Keeps ((scope.setting library).value tokens) processor result ∧ Returns result Tokens.Resolved :=
  ⟨_, (handles_setting library scope processor.evaluating).value processor.parens tokens,
    resolved_evaluate library scope processor.evaluating _ tokens⟩

theorem resolved_value (tokens : Tokens) : ((scope.setting library).value tokens).Yields Tokens.Resolved := by
  intro before value after ends
  obtain ⟨result, keeps, resolved⟩ := exists_value_resolved library scope before tokens
  rw [keeps] at ends
  cases ends
  exact resolved value rfl

end Scope

/-! ### Runs -/

namespace Variables.All

variable {value : Tokens → Prop} {vars others : Variables}

theorem insert (all : vars.All value) {tokens : Tokens} (holds : value tokens) (name : String) :
    (vars.insert name tokens).All value := by
  obtain ⟨entries⟩ := vars
  change ∀ entry ∈ insertEntry name tokens entries, value entry.2
  induction entries with
  | nil => exact forall_mem_singleton.mpr holds
  | cons entry rest ih =>
    obtain ⟨first, further⟩ := forall_mem_cons.mp all
    rw [insertEntry]
    split
    · exact forall_mem_cons.mpr ⟨holds, further⟩
    · exact forall_mem_cons.mpr ⟨first, ih further⟩

theorem merge (all : vars.All value) (all' : others.All value) : (vars.merge others).All value := by
  obtain ⟨entries⟩ := others
  change (entries.foldl (fun merged entry => merged.insert entry.1 entry.2) vars).All value
  induction entries generalizing vars with
  | nil => exact all
  | cons entry rest ih =>
    obtain ⟨first, further⟩ := forall_mem_cons.mp all'
    exact ih (all.insert first entry.1) further

end Variables.All

variable {sheet : Sheet}

def Context.Resolved (context : Context sheet) : Prop :=
  ∀ frame ∈ context.stack, frame.returned.All Tokens.Resolved

/-- The context is evaluated, and a call whose definition is about to be expanded has evaluated arguments only. -/
structure Moment.Resolved (moment : Moment sheet) : Prop where
  context : moment.context.Resolved
  attempt : ∀ call id, moment.step = .attempt call id → call.All Tokens.Resolved

structure Run.Resolved (run : Run sheet) : Prop where
  now : run.context.Resolved
  moments : ∀ moment ∈ run.history, moment.Resolved

namespace Run

def resolvedUse : Usage sheet := ⟨fun _ => True, fun _ _ => True, Tokens.Resolved⟩

theorem returned_of_opens {frame : Frame sheet} (opens : resolvedUse.Opens frame) : frame.returned = .empty := by
  cases opens <;> rfl

end Run

namespace Context.Resolved

variable {context : Context sheet}

theorem modifyTop (resolved : context.Resolved) {change : Frame sheet → Frame sheet}
    (keeps : ∀ frame, frame.returned.All Tokens.Resolved → (change frame).returned.All Tokens.Resolved) :
    (context.modifyTop change).Resolved := by
  obtain ⟨stack, extensions, pending⟩ := context
  cases stack with
  | nil => exact resolved
  | cons frame outer =>
    obtain ⟨top, rest⟩ := forall_mem_cons.mp resolved
    exact forall_mem_cons.mpr ⟨keeps frame top, rest⟩

theorem after (resolved : context.Resolved) {step : Step sheet} (allowed : Run.resolvedUse.Allows context step) :
    (context.after step).Resolved := by
  cases step with
  | push frame =>
    have nothing : frame.returned = .empty := Run.returned_of_opens allowed
    refine forall_mem_cons.mpr ⟨?_, resolved⟩
    rw [nothing]
    exact nofun
  | pop => exact fun frame member => resolved frame (mem_of_mem_tail member)
  | saveClosures => exact resolved.modifyTop fun _ top => top
  | addReturned vars => exact resolved.modifyTop fun _ top => top.merge allowed
  | addClosure | addExtension | takeExtensions | attempt => exact resolved

end Context.Resolved

namespace Run

theorem Resolved.step {run : Run sheet} (resolved : run.Resolved) {step : Step sheet}
    (allowed : resolvedUse.Allows run.context step) : (run.take step).Resolved := by
  have now := resolved.now.after allowed
  refine ⟨now, forall_mem_cons.mpr ⟨⟨now, fun call id attempt => ?_⟩, resolved.moments⟩⟩
  cases attempt
  exact allowed

def resolution (library : Library) : Invariant sheet library where
  toUsage := resolvedUse
  run := Resolved
  steady _ _ _ kept := ⟨kept.now, kept.moments⟩
  step _ _ kept allowed := kept.step allowed
  offers _ _ _ _ _ _ := trivial
  binds _ _ _ _ _ := trivial
  values scope tokens := scope.resolved_value library tokens

theorem resolved_start (processor : Processor) : (start processor : Run sheet).Resolved :=
  ⟨forall_mem_singleton.mpr nofun, nofun⟩

end Run

namespace Evaluator

/-- With any functions and variables, the evaluation of a value ends, and no token of
the result refers to a variable; so it is with the arguments of calls. The run on a
sheet ends, and no reference is left in what it puts out, in the arguments of the
calls that it expands, and in the variables that calls leave behind. -/
theorem references_resolved (library : Library) :
    (∀ (scope : Scope) (processor : Processor) (tokens : Tokens), ∃ result,
      Processing.Keeps ((scope.setting library).value tokens) processor result ∧ Returns result Tokens.Resolved) ∧
    (∀ (scope : Scope) (call : MixinCall),
      ((scope.setting library).evaluateCall call).Yields (MixinCall.All Tokens.Resolved)) ∧
    ∀ sheet : Sheet, ∃ result run, (new library).run sheet = some (result, run) ∧
      Returns result (Css.All Tokens.Resolved) ∧ ∀ moment ∈ run.history, moment.Resolved := by
  refine ⟨fun scope => scope.exists_value_resolved library, fun scope call => ?_, fun sheet => ?_⟩
  · exact Setting.all_evaluateCall (scope.resolved_value library) call
  · have ready : (new library).processor = .fresh := rfl
    obtain ⟨result, run, ends, _⟩ := run_eq_of_fresh ready sheet
    have kept := Evaluating.orderly_stylesheet (Run.resolution library) (Run.resolved_start _) ends
    exact ⟨result, run, ends, kept.1.2, kept.1.1.moments⟩

def referring : String :=
  "@k: solid; @n: 'k'; .m(@a; @b: @k thin) \x7b @r: @a @b; c: @r; \x7d .d \x7b .m(@k); e: @r, (@@n); \x7d " ++
    "@media @k \x7b .f \x7b g: calc(@k) \x7d \x7d"

theorem referring_resolved : ∃ sheet nodes run, (Sheet.read "in" referring).outcome.1.toOption = some sheet ∧
    (new .empty).run sheet = some (.ok nodes, run) ∧ Css.minified nodes =
      ".d\x7bc:solid solid thin;e:solid solid thin, solid\x7d@media solid\x7b.f\x7bg:calc(solid)\x7d\x7d" ∧
    run.history.length = 12 ∧ Css.All Tokens.Resolved nodes ∧ ∀ moment ∈ run.history, moment.Resolved := by
  have checked : ((Sheet.read "in" referring).outcome.1.toOption.any fun sheet =>
      ((new .empty).run sheet).any fun ended => ended.2.history.length == 12 &&
        ended.1.toOption.any fun nodes => Css.minified nodes ==
          ".d\x7bc:solid solid thin;e:solid solid thin, solid\x7d@media solid\x7b.f\x7bg:calc(solid)\x7d\x7d") =
      true := by
    decide +kernel
  obtain ⟨sheet, read, found⟩ := (Option.any_eq_true _ _).mp checked
  obtain ⟨result, run, ends, values, moments⟩ := (references_resolved .empty).2.2 sheet
  rw [ends, Option.any_some, Bool.and_eq_true, beq_iff_eq] at found
  cases result with
  | error error => cases found.2
  | ok nodes => exact ⟨sheet, nodes, run, read, ends, beq_iff_eq.mp found.2, found.1, values nodes rfl, moments⟩

end Evaluator

end LessCss
