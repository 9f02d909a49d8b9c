import LessCss.Proofs.Processor.Keeps

/-! Computations of a processor that are watched, and that may run only for so long as
a clock allows. Main statement: rules to show, step by step, that a computation ends
with a given result once the clock allows enough, that it leaves the processor as it
was, and that all it was seen to do on the way is in order. -/

set_option autoImplicit false

namespace LessCss

open List

inductive Event where
  /-- A variable was entered, and these names are under evaluation now. -/
  | entered (names : List String)
  /-- A variable that is under evaluation came up again. -/
  | refused (name : String) (at_ : Token)
  /-- A loop went round. There were so many unread tokens before, and after. -/
  | turned (before after : Nat)
  deriving DecidableEq, Repr

/-- Nothing is entered twice, what comes up again is an error, and loops read on. -/
def Event.InOrder {α : Type} (result : Except Error α) : Event → Prop
  | .entered names => names.Nodup
  | .refused name at_ => result = .error (.faulty at_ (.recursiveVariable name))
  | .turned before after => after < before

structure Watch where
  processor : Processor
  /-- What was seen, the last event first. -/
  events : List Event

abbrev Watching := ExceptT Error (StateT Watch Option)

namespace Watching

variable {α β γ δ : Type}

def note (event : Event) : Watching Unit :=
  modify fun watch => { watch with events := event :: watch.events }

def change (step : Processor → Processor) : StateT Watch Option Unit :=
  modify fun watch => { watch with processor := step watch.processor }

def isGrouped : Watching Bool := return (← get).processor.isGrouped

def endless : Watching α := fun _ => none

def grouped (inner : Watching α) : Watching α :=
  (do
    change Processor.openParen
    let result ← inner.run
    change Processor.closeParen
    return result : StateT Watch Option (Except Error α))

def guarded (name : String) (at_ : Token) (inner : Watching α) : Watching α := do
  let names := (← get).processor.evaluating
  if name ∈ names then
    note (.refused name at_)
    throw (.faulty at_ (.recursiveVariable name))
  else
    note (.entered (name :: names))
    (do
      change (·.enter name)
      let result ← inner.run
      change Processor.leave
      return result : StateT Watch Option (Except Error α))

/-! ### Rules -/

/-- Once the clock allows enough, the computation ends with this result, and always after
the same events. These are in order, and the processor is what it was. -/
def Ends (processor : Processor) (result : Except Error α) (run : Nat → Watching α) : Prop :=
  ∃ enough seen, (∀ event ∈ seen, event.InOrder result) ∧ ∀ clock ≥ enough, ∀ events,
    (run clock).run.run ⟨processor, events⟩ = some (result, ⟨processor, seen ++ events⟩)

def Follows (processor : Processor) (result : Except Error α) (form : α → β) (run : Nat → Watching β) : Prop :=
  Ends processor (result.map form) run

theorem Follows.ends {processor : Processor} {result : Except Error α} {run : Nat → Watching α}
    (follows : Follows processor result id run) : Ends processor result run := by
  rwa [Follows, Except.map_id] at follows

end Watching

theorem Event.InOrder.of_ok {α β : Type} {value : α} {result : Except Error β} {event : Event}
    (order : event.InOrder (.ok value : Except Error α)) : event.InOrder result := by
  cases event with
  | refused name at_ => cases order
  | entered names => exact order
  | turned before after => exact order

theorem Event.InOrder.of_error {α β : Type} {error : Error} {event : Event}
    (order : event.InOrder (.error error : Except Error α)) : event.InOrder (.error error : Except Error β) := by
  cases event with
  | refused name at_ =>
    cases order
    rfl
  | entered names => exact order
  | turned before after => exact order

namespace Watching

variable {α β γ δ : Type} {processor : Processor}

theorem ends_pure (value : α) : Ends processor (.ok value) fun _ => pure value :=
  ⟨0, [], nofun, fun _ _ _ => rfl⟩

theorem ends_throw (error : Error) : Ends processor (.error error) fun _ => (throw error : Watching α) :=
  ⟨0, [], nofun, fun _ _ _ => rfl⟩

theorem Ends.tick {result : Except Error α} {run : Nat → Watching α}
    (ends : Ends processor result fun clock => run (clock + 1)) : Ends processor result run := by
  obtain ⟨enough, seen, order, runs⟩ := ends
  refine ⟨enough + 1, seen, order, fun clock late events => ?_⟩
  obtain ⟨earlier, rfl⟩ : ∃ earlier, clock = earlier + 1 := ⟨clock - 1, by omega⟩
  exact runs earlier (by omega) events

theorem Ends.bind_ok {value : α} {first : Nat → Watching α} {next : Nat → α → Watching β} {result : Except Error β}
    (ends : Ends processor (.ok value) first) (rest : Ends processor result fun clock => next clock value) :
    Ends processor result fun clock => first clock >>= next clock := by
  obtain ⟨enough, seen, order, runs⟩ := ends
  obtain ⟨enough', seen', order', runs'⟩ := rest
  -- Both parts have enough of the clock. The first one went well, so it has refused nothing.
  refine ⟨max enough enough', seen' ++ seen, ?_, fun clock late events => ?_⟩
  · exact forall_mem_append.mpr ⟨order', fun event member => (order event member).of_ok⟩
  · rw [Processing.run_bind_ok (runs clock (by omega) events), runs' clock (by omega), List.append_assoc]

theorem Ends.bind_error {error : Error} {first : Nat → Watching α} {next : Nat → α → Watching β}
    (ends : Ends processor (.error error) first) :
    Ends processor (.error error) fun clock => first clock >>= next clock := by
  obtain ⟨enough, seen, order, runs⟩ := ends
  refine ⟨enough, seen, fun event member => (order event member).of_error, fun clock late events => ?_⟩
  exact Processing.run_bind_error (runs clock late events)

theorem ends_note {event : Event} {result : Except Error α} {rest : Nat → Watching α} (order : event.InOrder result)
    (ends : Ends processor result rest) : Ends processor result fun clock => note event >>= fun _ => rest clock := by
  obtain ⟨enough, seen, others, runs⟩ := ends
  refine ⟨enough, seen ++ [event], ?_, fun clock late events => ?_⟩
  · exact forall_mem_append.mpr ⟨others, forall_mem_singleton.mpr order⟩
  · rw [List.append_assoc]
    exact runs clock late (event :: events)

section Follows

variable {result : Except Error α} {form : α → β} {form' : γ → δ}

theorem follows_pure (value : α) : Follows processor (.ok value) form fun _ => pure (form value) := ends_pure _

theorem follows_throw (error : Error) : Follows processor (.error error : Except Error α) form fun _ => throw error :=
  ends_throw error

theorem follows_ofExcept : Follows processor result id fun _ => (MonadExcept.ofExcept result : Watching α) := by
  cases result with
  | ok value => exact ends_pure value
  | error error => exact ends_throw error

theorem Follows.tick {run : Nat → Watching β} (follows : Follows processor result form fun clock => run (clock + 1)) :
    Follows processor result form run :=
  Ends.tick follows

theorem Follows.bind {first : Nat → Watching β} {next : Nat → β → Watching δ} {goesOn : α → Except Error γ}
    (follows : Follows processor result form first)
    (rest : ∀ value, Follows processor (goesOn value) form' fun clock => next clock (form value)) :
    Follows processor (result >>= goesOn) form' fun clock => first clock >>= next clock := by
  cases result with
  | ok value => exact Ends.bind_ok follows (rest value)
  | error error => exact Ends.bind_error follows

/-- The rule for a last step that only changes the form of the result. -/
theorem Follows.map {first : Nat → Watching β} {next : Nat → β → Watching δ} {shape : α → γ}
    (follows : Follows processor result form first)
    (rest : ∀ value, Follows processor (.ok (shape value)) form' fun clock => next clock (form value)) :
    Follows processor (result.map shape) form' fun clock => first clock >>= next clock := by
  cases result with
  | ok value => exact Ends.bind_ok follows (rest value)
  | error error => exact Ends.bind_error follows

/-- The rule for a result that is only put differently. -/
theorem Follows.reform {run : Nat → Watching δ} {form : α → δ} {goesOn : α → Except Error γ}
    (follows : Follows processor result form run) (same : ∀ value, (goesOn value).map form' = .ok (form value)) :
    Follows processor (result >>= goesOn) form' run := by
  cases result with
  | ok value =>
    change Ends processor ((goesOn value).map form') run
    rw [same]
    exact follows
  | error error => exact follows

theorem follows_ite {condition : Prop} [Decidable condition] {result' : Except Error α} {yes no : Nat → Watching β}
    (holds : condition → Follows processor result form yes) (fails : ¬condition → Follows processor result' form no) :
    Follows processor (if condition then result else result') form fun clock =>
      if condition then yes clock else no clock := by
  by_cases truth : condition
  · simp only [if_pos truth]
    exact holds truth
  · simp only [if_neg truth]
    exact fails truth

theorem follows_mapM {step : Nat → α → Watching β} {goesOn : α → Except Error β} (list : List α)
    (follows : ∀ element, Follows processor (goesOn element) id fun clock => step clock element) :
    Follows processor (list.mapM goesOn) id fun clock => list.mapM (step clock) := by
  induction list with
  | nil => exact follows_pure []
  | cons first rest ih =>
    simp only [mapM_cons]
    refine (follows first).bind fun value => ?_
    exact ih.bind fun values => follows_pure (value :: values)

/-- A loop that goes round has read on. -/
theorem follows_turned {before after : Nat} {rest : Nat → Watching β} (shorter : after < before)
    (follows : Follows processor result form rest) :
    Follows processor result form fun clock => note (.turned before after) >>= fun _ => rest clock :=
  ends_note shorter follows

theorem follows_isGrouped {next : Nat → Bool → Watching β}
    (follows : Follows processor result form fun clock => next clock processor.isGrouped) :
    Follows processor result form fun clock => isGrouped >>= next clock :=
  Ends.bind_ok ⟨0, [], nofun, fun _ _ _ => rfl⟩ follows

variable {parens : Nat} {active : List String} {run : Nat → Watching β}

theorem follows_grouped (follows : Follows ⟨parens + 1, active⟩ result form run) :
    Follows ⟨parens, active⟩ result form fun clock => grouped (run clock) := by
  obtain ⟨enough, seen, order, runs⟩ := follows
  refine ⟨enough, seen, order, fun clock late events => ?_⟩
  change ((run clock).run.run ⟨⟨parens + 1, active⟩, events⟩ >>= _) = _
  rw [runs clock late events]
  rfl

variable {name : String} {at_ : Token}

theorem ends_guarded_active (member : name ∈ active) :
    Ends ⟨parens, active⟩ (.error (.faulty at_ (.recursiveVariable name)))
      fun clock => guarded name at_ (run clock) := by
  refine ⟨0, [.refused name at_], forall_mem_singleton.mpr rfl, fun clock _ events => ?_⟩
  change (if name ∈ active then _ else _ : Watching β).run.run _ = _
  rw [if_pos member]
  rfl

theorem follows_guarded_idle (distinct : (name :: active).Nodup)
    (follows : Follows ⟨parens, name :: active⟩ result form run) :
    Follows ⟨parens, active⟩ result form fun clock => guarded name at_ (run clock) := by
  obtain ⟨enough, seen, order, runs⟩ := follows
  have idle : name ∉ active := (nodup_cons.mp distinct).1
  refine ⟨enough, seen ++ [.entered (name :: active)], ?_, fun clock late events => ?_⟩
  · exact forall_mem_append.mpr ⟨order, forall_mem_singleton.mpr distinct⟩
  · change (if name ∈ active then _ else _ : Watching β).run.run _ = _
    rw [if_neg idle, List.append_assoc]
    -- The name that is taken off at the end is the one that was put on here.
    change ((run clock).run.run ⟨⟨parens, name :: active⟩, .entered (name :: active) :: events⟩ >>= _) = _
    rw [runs clock late]
    rfl

end Follows

end Watching

end LessCss
