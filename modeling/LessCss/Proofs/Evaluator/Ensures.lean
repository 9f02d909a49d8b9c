import LessCss.Evaluation.Ruleset
import LessCss.Proofs.Evaluator.Invariants

/-! What holds after a part of a run, if the part ends, and rules to show this
step by step. Whether the part has failed or not, an invariant is kept and the run has
gone on orderly: no closure waits whenever a frame is pushed, a definition is about to
be expanded, or an expansion has handed over what it leaves behind. After a failure the
closures of one definition may wait, and no frame is left that could take them. -/

set_option autoImplicit false

namespace LessCss

variable {sheet : Sheet}

/-- No closure waits when a frame is pushed and when an expansion begins or has
handed over, and the directives are not taken away. -/
def Moment.Orderly (moment : Moment sheet) : Prop :=
  match moment.step with
  | .push _ | .attempt _ _ | .addReturned _ => moment.context.pending = []
  | .takeExtensions => False
  | _ => True

def Run.Later (before after : Run sheet) : Prop :=
  ∃ moments, after.history = moments ++ before.history ∧ ∀ moment ∈ moments, moment.Orderly

namespace Run.Later

theorem refl (run : Run sheet) : run.Later run := ⟨[], rfl, nofun⟩

theorem of_history_eq {before after : Run sheet} (same : after.history = before.history) : before.Later after :=
  ⟨[], same, nofun⟩

theorem trans {before between after : Run sheet} (first : before.Later between)
    (second : between.Later after) : before.Later after := by
  obtain ⟨moments, history, orderly⟩ := first
  obtain ⟨moments', history', orderly'⟩ := second
  refine ⟨moments' ++ moments, by rw [history', history, List.append_assoc], ?_⟩
  intro moment member
  rcases List.mem_append.mp member with inside | inside
  · exact orderly' moment inside
  · exact orderly moment inside

theorem take {run : Run sheet} {step : Step sheet}
    (orderly : Moment.Orderly ⟨step, run.context.after step⟩) : run.Later (run.take step) :=
  ⟨[⟨step, run.context.after step⟩], rfl, by simpa using orderly⟩

theorem isSuffix {before after : Run sheet} (later : before.Later after) :
    before.history <:+ after.history := by
  obtain ⟨moments, history, _⟩ := later
  exact ⟨moments, history.symm⟩

end Run.Later

/-- The variables of a definition have failed to evaluate in its frame, when its closures were waiting already.
They still wait, and frames have only been popped since then. -/
structure Run.Strands (library : Library) (before : Run sheet) (error : Error) (after : Run sheet)
    (id : sheet.Id) (inner : Run sheet) : Prop where
  later : before.Later inner
  callee : inner.context.stack.head?.bind Frame.callee? = some id
  fails : ∃ evaluated, (Evaluating.process library (·.evaluateVars (sheet.ruleset id).vars)).run.run inner =
    some (.error error, evaluated)
  waiting : after.context.pending = Evaluation.closuresIn inner.context.stack id
  popped : ∃ pops, after.history = pops ++ inner.history ∧ ∀ moment ∈ pops, moment.step = .pop

/-- What waits after a failure: nothing, or the closures of the definition whose variables have failed. -/
def Run.Breaks (library : Library) (before : Run sheet) (error : Error) (after : Run sheet) : Prop :=
  after.context.pending = [] ∨ ∃ id inner, before.Strands library error after id inner

namespace Run.Breaks

variable {library : Library} {error : Error} {before between after : Run sheet}

theorem trans (later : before.Later between) (breaks : between.Breaks library error after) :
    before.Breaks library error after := by
  rcases breaks with idle | ⟨id, inner, strands⟩
  · exact .inl idle
  · exact .inr ⟨id, inner, later.trans strands.later, strands.callee, strands.fails, strands.waiting, strands.popped⟩

theorem pop (breaks : before.Breaks library error after) : before.Breaks library error (after.take .pop) := by
  rcases breaks with idle | ⟨id, inner, later, callee, fails, waiting, pops, history, only⟩
  · exact .inl idle
  · refine .inr ⟨id, inner, later, callee, fails, waiting, ⟨.pop, after.context.after .pop⟩ :: pops, ?_, ?_⟩
    · exact congrArg (_ :: ·) history
    · exact List.forall_mem_cons.mpr ⟨rfl, only⟩

end Run.Breaks

namespace Evaluating

variable {α β : Type} {library : Library}

/-- If the part of a run ends, the invariant holds as before, the run has gone on
orderly, and after a success the result and the run satisfy the condition. -/
def Ensures (inv : Invariant sheet library) (action : Evaluating sheet α) (before : Run sheet)
    (post : α → Run sheet → Prop) : Prop :=
  inv.run before → ∀ outcome after, action.run.run before = some (outcome, after) →
    inv.run after ∧ before.Later after ∧ (∀ value, outcome = .ok value → post value after) ∧
      ∀ error, outcome = .error error → before.Breaks library error after

variable {inv : Invariant sheet library} {before : Run sheet} {post : α → Run sheet → Prop}
  {post' : β → Run sheet → Prop}

theorem ensures_pure {value : α} (holds : post value before) : Ensures inv (pure value) before post := by
  rintro kept outcome after ⟨⟩
  exact ⟨kept, .refl before, by rintro _ ⟨⟩; exact holds, nofun⟩

theorem ensures_throw {error : Error} (idle : before.context.pending = []) :
    Ensures inv (throw error) before post := by
  rintro kept outcome after ⟨⟩
  exact ⟨kept, .refl before, nofun, fun _ _ => .inl idle⟩

theorem ensures_endless : Ensures inv endless before post := by
  rintro kept outcome after ⟨⟩

theorem Ensures.bind {action : Evaluating sheet α} {next : α → Evaluating sheet β}
    (first : Ensures inv action before post)
    (rest : ∀ value between, post value between → Ensures inv (next value) between post') :
    Ensures inv (action >>= next) before post' := by
  intro kept outcome after ends
  cases begun : action.run.run before with
  | none =>
    rw [Processing.run_bind_none begun] at ends
    cases ends
  | some ended =>
    obtain ⟨result, between⟩ := ended
    -- What the first action did holds even where it fails; the second one runs only behind a value.
    obtain ⟨kept, later, holds, breaks⟩ := first kept result between begun
    cases result with
    | error error =>
      rw [Processing.run_bind_error begun] at ends
      cases ends
      exact ⟨kept, later, nofun, by rintro _ ⟨⟩; exact breaks error rfl⟩
    | ok value =>
      rw [Processing.run_bind_ok begun] at ends
      obtain ⟨kept, later', holds', breaks'⟩ := rest value between (holds value rfl) kept outcome after ends
      exact ⟨kept, later.trans later', holds', fun error same => (breaks' error same).trans later⟩

theorem Ensures.imp {action : Evaluating sheet α} {weaker : α → Run sheet → Prop}
    (ensures : Ensures inv action before post)
    (imp : ∀ value after, before.Later after → post value after → weaker value after) :
    Ensures inv action before weaker := by
  intro kept outcome after ends
  obtain ⟨kept, later, holds, breaks⟩ := ensures kept outcome after ends
  exact ⟨kept, later, fun value same => imp value after later (holds value same), breaks⟩

theorem Ensures.withLater {action : Evaluating sheet α} (ensures : Ensures inv action before post) :
    Ensures inv action before fun value after => before.Later after ∧ post value after :=
  ensures.imp fun _ _ later holds => ⟨later, holds⟩

theorem ensures_get_bind {next : Run sheet → Evaluating sheet α}
    (rest : inv.run before → Ensures inv (next before) before post) :
    Ensures inv ((get : Evaluating sheet (Run sheet)) >>= next) before post :=
  fun kept => rest kept kept

theorem ensures_report_bind {level : Level} {message : String} {next : Unit → Evaluating sheet α}
    (rest : Ensures inv (next ()) (before.report level message) post) :
    Ensures inv (report level message >>= next) before post := by
  intro kept outcome after ends
  have reported : before.Later (before.report level message) := .of_history_eq rfl
  obtain ⟨kept, later, holds, breaks⟩ := rest (inv.steady before before.processor _ kept) outcome after ends
  exact ⟨kept, later, holds, fun error same => (breaks error same).trans reported⟩

theorem ensures_take_bind {step : Step sheet} {next : Unit → Evaluating sheet α}
    (allowed : inv.Allows before.context step) (orderly : Moment.Orderly ⟨step, before.context.after step⟩)
    (rest : Ensures inv (next ()) (before.take step) post) : Ensures inv (take step >>= next) before post := by
  intro kept outcome after ends
  have taken : before.Later (before.take step) := .take orderly
  obtain ⟨kept, later, holds, breaks⟩ := rest (inv.step before step kept allowed) outcome after ends
  exact ⟨kept, taken.trans later, holds, fun error same => (breaks error same).trans taken⟩

/-- The processor changes nothing but itself. -/
theorem ensures_process {computation : Setting → Processing α} {value : α → Prop}
    (yields : ∀ scope : Scope, (computation (scope.setting library)).Yields value)
    (breaks : ∀ error after, (process library computation).run.run before = some (.error error, after) →
      after.context = before.context → after.history = before.history → before.Breaks library error after) :
    Ensures inv (process library computation) before fun result after =>
      value result ∧ after.context = before.context ∧
        (process library computation).run.run before = some (.ok result, after) := by
  intro kept outcome after ends
  obtain ⟨⟨result, processor⟩, computed, same⟩ := Option.map_eq_some_iff.mp ends
  cases same
  refine ⟨inv.steady before processor before.log kept, .of_history_eq rfl, ?_, ?_⟩
  · rintro result rfl
    exact ⟨yields _ _ _ _ computed, rfl, ends⟩
  · rintro error rfl
    exact breaks error _ ends rfl rfl

/-- A frame is pushed before the part of the run and popped after it. -/
theorem Ensures.framed {frame : Frame sheet} {action : Evaluating sheet α} (opens : inv.Opens frame)
    (idle : before.context.pending = []) (inner : Ensures inv action (before.take (.push frame)) post)
    {post₁ : α → Run sheet → Prop}
    (popped : ∀ value after, (before.take (.push frame)).Later after → post value after →
      post₁ value (after.take .pop)) :
    Ensures inv (framed frame action) before post₁ := by
  intro kept outcome after ends
  change (action.run.run (before.take (.push frame)) >>= _) = _ at ends
  cases begun : action.run.run (before.take (.push frame)) with
  | none =>
    rw [begun] at ends
    cases ends
  | some ended =>
    rw [begun] at ends
    obtain ⟨kept, later, holds, breaks⟩ := inner (inv.step before _ kept opens) ended.1 ended.2 begun
    cases ends
    have pushed : before.Later (before.take (.push frame)) := .take idle
    have ended_popped : ended.2.Later (ended.2.take .pop) := .take trivial
    refine ⟨inv.step _ .pop kept trivial, pushed.trans (later.trans ended_popped), ?_, ?_⟩
    · intro value same
      exact popped value ended.2 later (holds value same)
    · intro error same
      exact ((breaks error same).trans pushed).pop

end Evaluating

end LessCss
