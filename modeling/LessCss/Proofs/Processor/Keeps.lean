import LessCss.Processor.Basic

/-! Computations that leave the processor as they found it, and rules to show
this step by step. A rule follows a computation beside another one that has no
processor, and has the same result. Where only a property of the result matters,
the computation may change the processor. -/

set_option autoImplicit false

namespace LessCss.Processing

variable {α β : Type}

def Keeps (computation : Processing α) (processor : Processor) (result : Except Error α) : Prop :=
  computation.run.run processor = some (result, processor)

variable {processor : Processor}

theorem Keeps.unique {computation : Processing α} {result result' : Except Error α}
    (keeps : Keeps computation processor result) (keeps' : Keeps computation processor result') : result = result' :=
  congrArg Prod.fst (Option.some.inj (keeps.symm.trans keeps'))

/-- A result that can be run is found by running it. -/
theorem Keeps.of_run [BEq α] [LawfulBEq α] {computation : Processing α} {result : Except Error α} {value : α}
    (keeps : Keeps computation processor result)
    (done : (computation.run.run processor).any (fun ended => ended.1.toOption.any (· == value)) = true) :
    Keeps computation processor (.ok value) := by
  rw [keeps] at done
  cases result with
  | error error => cases done
  | ok value' =>
    cases beq_iff_eq.mp done
    exact keeps

theorem keeps_pure (value : α) : Keeps (pure value) processor (.ok value) := rfl

theorem keeps_throw (error : Error) : Keeps (throw error : Processing α) processor (.error error) := rfl

theorem keeps_ofExcept (result : Except Error α) : Keeps (ofExcept result) processor result := by
  cases result <;> rfl

theorem keeps_get_bind {next : Processor → Processing α} {result : Except Error α}
    (rest : Keeps (next processor) processor result) : Keeps (get >>= next) processor result :=
  rest

-- These hold for any state, so the runs of an evaluator use them as well.
section Bind

variable {σ : Type} {first : ExceptT Error (StateT σ Option) α}
  {next : α → ExceptT Error (StateT σ Option) β} {start after : σ}

theorem run_bind_ok {value : α} (outcome : first.run.run start = some (.ok value, after)) :
    (first >>= next).run.run start = (next value).run.run after := by
  change (first.run.run start >>= _) = _
  rw [outcome]
  rfl

theorem run_bind_error {error : Error} (outcome : first.run.run start = some (.error error, after)) :
    (first >>= next).run.run start = some (.error error, after) := by
  change (first.run.run start >>= _) = _
  rw [outcome]
  rfl

theorem run_bind_none (outcome : first.run.run start = none) : (first >>= next).run.run start = none := by
  change (first.run.run start >>= _) = _
  rw [outcome]
  rfl

/-- A success of two steps is a success of each of them. -/
theorem of_run_bind_ok {result : β} (ends : (first >>= next).run.run start = some (.ok result, after)) :
    ∃ value between, first.run.run start = some (.ok value, between) ∧
      (next value).run.run between = some (.ok result, after) := by
  cases begun : first.run.run start with
  | none =>
    rw [run_bind_none begun] at ends
    cases ends
  | some ended =>
    obtain ⟨outcome, between⟩ := ended
    cases outcome with
    | error error =>
      rw [run_bind_error begun] at ends
      cases ends
    | ok value => exact ⟨value, between, rfl, by rwa [run_bind_ok begun] at ends⟩

end Bind

theorem Keeps.bind {first : Processing α} {next : α → Processing β} {result : Except Error α}
    {goesOn : α → Except Error β} (kept : Keeps first processor result)
    (rest : ∀ value, Keeps (next value) processor (goesOn value)) :
    Keeps (first >>= next) processor (result >>= goesOn) := by
  cases result with
  | ok value => exact (run_bind_ok kept).trans (rest value)
  | error error => exact run_bind_error kept

/-- The rule for a last step that only changes the form of the result. -/
theorem Keeps.map {first : Processing α} {next : α → Processing β} {form : α → β}
    {result : Except Error α} (kept : Keeps first processor result)
    (rest : ∀ value, Keeps (next value) processor (.ok (form value))) :
    Keeps (first >>= next) processor (result.map form) := by
  cases result with
  | ok value => exact (run_bind_ok kept).trans (rest value)
  | error error => exact run_bind_error kept

/-- Two computations that branch on the same condition. -/
theorem keeps_ite {condition : Prop} [Decidable condition] {yes no : Processing α}
    {yes' no' : Except Error α} (holds : condition → Keeps yes processor yes')
    (fails : ¬condition → Keeps no processor no') :
    Keeps (if condition then yes else no) processor (if condition then yes' else no') := by
  by_cases truth : condition
  · rw [if_pos truth, if_pos truth]
    exact holds truth
  · rw [if_neg truth, if_neg truth]
    exact fails truth

theorem keeps_mapM {step : α → Processing β} {result : α → Except Error β} (list : List α)
    (kept : ∀ element, Keeps (step element) processor (result element)) :
    Keeps (list.mapM step) processor (list.mapM result) := by
  induction list with
  | nil => exact keeps_pure []
  | cons first rest ih =>
    rw [List.mapM_cons, List.mapM_cons]
    refine (kept first).bind fun value => ?_
    exact ih.bind fun values => keeps_pure (value :: values)

/-- A parenthesis that is opened around a computation is closed after it. -/
theorem keeps_grouped {inner : Processing α} {result : Except Error α} {parens : Nat}
    {active : List String} (kept : Keeps inner ⟨parens + 1, active⟩ result) :
    Keeps (grouped inner) ⟨parens, active⟩ result := by
  change (inner.run.run ⟨parens + 1, active⟩ >>= _) = _
  rw [kept]
  rfl

section Guarded

variable {inner : Processing α} {at_ : Token} {parens : Nat} {active : List String} {name : String}

theorem keeps_guarded_active (member : name ∈ active) :
    Keeps (guarded name at_ inner) ⟨parens, active⟩
      (.error (.faulty at_ (.recursiveVariable name))) := by
  change (if name ∈ active then _ else _ : Processor.Action _).run _ = _
  rw [if_pos member]
  rfl

/-- A name that was not under evaluation is left again. -/
theorem keeps_guarded_idle {result : Except Error α} (idle : name ∉ active)
    (kept : Keeps inner ⟨parens, name :: active⟩ result) :
    Keeps (guarded name at_ inner) ⟨parens, active⟩ result := by
  change (if name ∈ active then _ else _ : Processor.Action _).run _ = _
  rw [if_neg idle]
  -- The name that is taken off at the end is the one that was put on here.
  change (inner.run.run ⟨parens, name :: active⟩ >>= _) = _
  rw [kept]
  rfl

end Guarded

/-! ### Results -/

def Yields (computation : Processing α) (post : α → Prop) : Prop :=
  ∀ before value after, computation.run.run before = some (.ok value, after) → post value

section Yields

variable {post : α → Prop} {post' : β → Prop}

theorem yields_any (computation : Processing α) : computation.Yields fun _ => True := fun _ _ _ _ => trivial

theorem yields_pure {value : α} (holds : post value) : Yields (pure value) post := by
  rintro before _ after ⟨⟩
  exact holds

theorem yields_throw {error : Error} : Yields (throw error) post := by
  rintro before value after ⟨⟩

theorem Yields.bind {first : Processing α} {next : α → Processing β} (yields : first.Yields post)
    (rest : ∀ value, post value → (next value).Yields post') : Yields (first >>= next) post' := by
  intro before result after ends
  obtain ⟨value, between, begun, ends⟩ := of_run_bind_ok ends
  exact rest value (yields before value between begun) between result after ends

theorem yields_mapM {step : α → Processing β} (list : List α) (each : ∀ element, (step element).Yields post') :
    Yields (list.mapM step) fun values => ∀ value ∈ values, post' value := by
  induction list with
  | nil => exact yields_pure nofun
  | cons first rest ih =>
    rw [List.mapM_cons]
    refine (each first).bind fun value one => ih.bind fun values many => ?_
    exact yields_pure (List.forall_mem_cons.mpr ⟨one, many⟩)

end Yields

end LessCss.Processing
