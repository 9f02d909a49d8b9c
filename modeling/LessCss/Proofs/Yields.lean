import LessCss.Log

/-! Computations that may fail: what they have passed through if they succeed, and
what holds of their results then. -/

set_option autoImplicit false

namespace LessCss

open List

theorem ok_of_toOption {α : Type} {result : Except Error α} {value : α}
    (found : result.toOption = some value) : result = .ok value := by
  cases result with
  | error error => cases found
  | ok value => exact congrArg Except.ok (Option.some.inj found)

variable {α β : Type} {post : α → Prop} {post' : β → Prop}

def Returns (result : Except Error α) (post : α → Prop) : Prop := ∀ value, result = .ok value → post value

theorem returns_ok {value : α} (holds : post value) : Returns (.ok value) post := by
  rintro _ ⟨⟩
  exact holds

theorem returns_error {error : Error} : Returns (.error error) post := nofun

theorem Returns.bind {result : Except Error α} {next : α → Except Error β} (first : Returns result post)
    (second : ∀ value, post value → Returns (next value) post') : Returns (result >>= next) post' := by
  cases result with
  | ok value => exact second value (first value rfl)
  | error error => exact returns_error

theorem Returns.map {result : Except Error α} {form : α → β} (returns : Returns result post)
    (holds : ∀ value, post value → post' (form value)) : Returns (result.map form) post' := by
  cases result with
  | ok value => exact returns_ok (holds value (returns value rfl))
  | error error => exact returns_error

theorem Returns.mono {result : Except Error α} {weaker : α → Prop} (returns : Returns result post)
    (implies : ∀ value, post value → weaker value) : Returns result weaker :=
  fun value same => implies value (returns value same)

theorem returns_any (result : Except Error α) : Returns result fun _ => True := fun _ _ => trivial

theorem returns_mapM {ι : Type} {step : ι → Except Error α} (list : List ι)
    (each : ∀ item ∈ list, Returns (step item) post) :
    Returns (list.mapM step) fun values => ∀ value ∈ values, post value := by
  induction list with
  | nil => exact returns_ok nofun
  | cons item rest ih =>
    obtain ⟨first, others⟩ := forall_mem_cons.mp each
    rw [mapM_cons]
    refine first.bind fun value one => (ih others).bind fun values many => ?_
    exact returns_ok (forall_mem_cons.mpr ⟨one, many⟩)

theorem returns_mapM_map {ι : Type} {step : ι → Except Error α} {form : ι → α} (list : List ι)
    (each : ∀ item ∈ list, Returns (step item) (· = form item)) : Returns (list.mapM step) (· = list.map form) := by
  induction list with
  | nil => exact returns_ok rfl
  | cons item rest ih =>
    obtain ⟨first, others⟩ := forall_mem_cons.mp each
    rw [mapM_cons]
    refine first.bind fun value one => (ih others).bind fun values many => returns_ok ?_
    rw [one, many, map_cons]

theorem returns_mapM_length {ι : Type} {step : ι → Except Error α} (list : List ι) :
    Returns (list.mapM step) fun results => results.length = list.length := by
  induction list with
  | nil => exact returns_ok rfl
  | cons item list ih =>
    rw [mapM_cons]
    refine (returns_any _).bind fun result _ => ih.bind fun results same => returns_ok ?_
    rw [length_cons, length_cons, same]

namespace Logged

variable {log log' : Log}

theorem exists_of_bind {action : Logged α} {next : α → Logged β} {value : β}
    (done : (action >>= next).run log = .ok value log') :
    ∃ between log'', action.run log = .ok between log'' ∧ (next between).run log'' = .ok value log' := by
  cases found : action.run log with
  | ok between log'' =>
    refine ⟨between, log'', rfl, ?_⟩
    rw [EStateM.run_bind, found] at done
    exact done
  | error error log'' =>
    rw [EStateM.run_bind, found] at done
    cases done

theorem exists_of_ofExcept {result : Except Error α} {next : α → Logged β} {value : β}
    (done : (ofExcept result >>= next).run log = .ok value log') :
    ∃ between, result = .ok between ∧ (next between).run log = .ok value log' := by
  cases result with
  | ok between => exact ⟨between, rfl, done⟩
  | error error => cases done

theorem exists_of_outcome {action : Logged α} {value : α} (done : action.outcome.1 = .ok value) :
    ∃ log, action.run [] = .ok value log := by
  rw [outcome] at done
  cases found : action.run [] with
  | ok between log =>
    rw [found] at done
    cases done
    exact ⟨log, rfl⟩
  | error error log =>
    rw [found] at done
    cases done

def Yields (action : Logged α) (post : α → Prop) : Prop :=
  ∀ log value log', action.run log = .ok value log' → post value

theorem yields_pure {value : α} (holds : post value) : Yields (pure value) post := by
  intro log value' log' done
  cases done
  exact holds

theorem yields_throw (error : Error) : Yields (throw error : Logged α) post := by
  intro log value log' done
  cases done

theorem yields_ofExcept {result : Except Error α} (holds : Returns result post) :
    Yields (ofExcept result) post := by
  cases result with
  | ok value => exact yields_pure (holds value rfl)
  | error error => exact yields_throw error

theorem Yields.bind {action : Logged α} {next : α → Logged β} (first : Yields action post)
    (second : ∀ value, post value → Yields (next value) post') : Yields (action >>= next) post' := by
  intro log value log' done
  obtain ⟨between, log'', begins, ends⟩ := exists_of_bind done
  exact second between (first log between log'' begins) log'' value log' ends

theorem Yields.after {action : Logged β} {next : β → Logged α} (holds : ∀ value, Yields (next value) post) :
    Yields (action >>= next) post := by
  have any : Yields action fun _ => True := fun _ _ _ _ => trivial
  exact any.bind fun value _ => holds value

theorem yields_reported {condition : Prop} [Decidable condition] {level : Level} {message : String}
    {next : Unit → Logged α} (holds : Yields (next ()) post) :
    Yields (if condition then report level message >>= next else next ()) post := by
  split
  · exact .after fun _ => holds
  · exact holds

theorem Yields.of_outcome {action : Logged α} {value : α} (yields : Yields action post)
    (done : action.outcome.1 = .ok value) : post value := by
  obtain ⟨log, found⟩ := exists_of_outcome done
  exact yields [] value log found

end Logged

end LessCss
