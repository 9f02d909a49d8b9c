import LessCss.Proofs.Processor.Values
import LessCss.Proofs.Spacing.Readers

/-! Whole values and conditions in tokens that differ in their places and in how blanks
are cut. Main statement: in scopes that hold such tokens under the same names, a value
evaluates to such tokens, and a condition to the same truth value. -/

set_option autoImplicit false

namespace LessCss

open List

namespace Tokens

variable {strict : Bool} {tokens others : Tokens}

theorem spanGroup_blanks (depth : Nat) {run : Tokens} (blank : Blank run) (tokens : Tokens) :
    spanGroup depth (run ++ tokens) = (run ++ (spanGroup depth tokens).1, (spanGroup depth tokens).2) := by
  induction run with
  | nil => rfl
  | cons token run ih =>
    obtain ⟨first, more⟩ := forall_mem_cons.mp blank
    obtain ⟨_, _, opens, closes⟩ := unbracketed_of_blank first
    rw [cons_append, spanGroup, if_neg closes, if_neg opens, ih more]
    rfl

theorem computes_gaps (library : Library) {run : Tokens} (each : ∀ token ∈ run, token.Gap) (tokens : Tokens) :
    computes library (run ++ tokens) = computes library tokens := by
  induction run with
  | nil => rfl
  | cons token run ih =>
    obtain ⟨first, more⟩ := forall_mem_cons.mp each
    rw [cons_append, computes, first.kind, ih more]
    rfl

namespace Respaced

theorem spanGroup (depth : Nat) (respaced : Respaced strict tokens others) :
    RespacedGroup strict (Tokens.spanGroup depth tokens) (Tokens.spanGroup depth others) := by
  induction respaced generalizing depth with
  | nil => exact ⟨.nil, .nil⟩
  | solid twin rest ih =>
    rw [Tokens.spanGroup, Tokens.spanGroup, twin.kind]
    split
    · split
      · exact ⟨.singleton twin, rest⟩
      · exact ⟨.solid twin (ih _).1, (ih _).2⟩
    · exact ⟨.solid twin (ih _).1, (ih _).2⟩
  | @gap run gap tokens others covers rest ih =>
    rw [spanGroup_blanks depth covers.blank, show gap :: others = [gap] ++ others from rfl,
      spanGroup_blanks depth (forall_mem_singleton.mpr covers.whole.isBlank : Blank [gap])]
    exact ⟨.gap covers (ih depth).1, (ih depth).2⟩

theorem computes (library : Library) (respaced : Respaced strict tokens others) :
    Tokens.computes library others = Tokens.computes library tokens := by
  induction respaced with
  | nil => rfl
  | solid twin rest ih => rw [Tokens.computes, Tokens.computes, twin.kind, twin.text, rest.headIs, ih]
  | @gap run gap tokens others covers _ ih =>
    rw [computes_gaps library covers.each, ← ih]
    exact computes_gaps library (forall_mem_singleton.mpr covers.whole) others

theorem lastKind? (respaced : Respaced strict tokens others) :
    others.getLast?.map Token.kind = tokens.getLast?.map Token.kind := by
  induction respaced with
  | nil => rfl
  | solid twin rest ih =>
    cases rest with
    | nil => exact congrArg some twin.kind
    | solid => exact ih
    | gap covers =>
      obtain ⟨first, more, rfl⟩ := exists_cons_of_ne_nil covers.ne_nil
      exact ih
  | @gap run gap tokens others covers rest ih =>
    -- A run of blanks at the end gives the kind; in front of other tokens it does not.
    cases empty : tokens.isEmpty with
    | true =>
      have none_ := List.isEmpty_iff.mp empty
      have none_' := rest.nil_iff.mp none_
      subst none_ none_'
      rw [append_nil, List.getLast?_eq_some_getLast covers.ne_nil]
      exact congrArg some (covers.whole.kind.trans (covers.each _ (getLast_mem _)).kind.symm)
    | false =>
      have some_ : tokens ≠ [] := by simpa using empty
      have some_' : others ≠ [] := mt rest.nil_iff.mpr some_
      obtain ⟨_, _, rfl⟩ := exists_cons_of_ne_nil some_'
      rw [List.getLast?_append_of_ne_nil _ some_, ← ih]
      rfl

end Respaced

end Tokens

namespace Environment.Respaced

variable {strict : Bool} {env env' : Environment} {token token' : Token}

/-! ### Items -/

/-- Tokens that are filled one by one: gaps stay, and twins become related tokens. -/
theorem fill {f g : Token → Except Error Tokens} (stays : ∀ token, token.Gap → f token = .ok [token])
    (stays' : ∀ token, token.Gap → g token = .ok [token])
    (step : ∀ token token', token.Twin token' → Agree (Tokens.Respaced strict) (f token) (g token'))
    {tokens others : Tokens} (respaced : Tokens.Respaced strict tokens others) :
    Agree (Tokens.Respaced strict) ((tokens.mapM f).map List.flatten) ((others.mapM g).map List.flatten) := by
  have cons (h : Token → Except Error Tokens) (token : Token) (rest : Tokens) :
      ((token :: rest).mapM h).map List.flatten = h token >>= fun first => ((rest.mapM h).map List.flatten).map (first ++ ·) := by
    rw [mapM_cons]
    cases h token with
    | error => rfl
    | ok first => cases rest.mapM h <;> rfl
  -- A whole run of blanks stays, by induction on the run.
  have run_stays (run rest : Tokens) (each : ∀ token ∈ run, token.Gap) :
      ((run ++ rest).mapM f).map List.flatten = ((rest.mapM f).map List.flatten).map (run ++ ·) := by
    induction run with
    | nil =>
      rw [nil_append]
      cases rest.mapM f <;> rfl
    | cons token run ih =>
      obtain ⟨first, more⟩ := forall_mem_cons.mp each
      rw [cons_append, cons, stays token first, ih more]
      cases rest.mapM f <;> rfl
  induction respaced with
  | nil => exact .ok .nil
  | solid twin _ ih =>
    rw [cons, cons]
    refine (step _ _ twin).bind fun first first' same => ?_
    exact ih.map fun rest rest' same' => same.append same'
  | @gap run gap tokens others covers _ ih =>
    rw [run_stays run tokens covers.each, cons, stays' gap covers.whole]
    exact ih.map fun rest rest' same => .gap covers same

section

variable (related : Respaced strict env env')

include related

theorem substitute (grouped : Bool) {tokens others : Tokens} (respaced : Tokens.Respaced strict tokens others) :
    Agree (Tokens.Respaced strict) (env.substitute grouped tokens) (env'.substitute grouped others) := by
  have other {token : Token} (gap : token.Gap) : ¬ token.kind = .atKeyword := by simp [gap.kind]
  refine fill (fun token gap => if_neg (other gap)) (fun token gap => if_neg (other gap)) ?_ respaced
  intro token token' twin
  rw [twin.kind]
  exact Agree.ite (fun _ => related.resolve grouped twin) fun _ => .ok (.singleton twin)

theorem interpolateTokens (grouped : Bool) {tight : Bool} {tokens others : Tokens}
    (respaced : Tokens.Respaced tight tokens others) :
    Agree (Tokens.Respaced tight) (tokens.mapM (env.interpolateToken grouped))
      (others.mapM (env'.interpolateToken grouped)) := by
  have singles (env : Environment) (tokens : Tokens) : tokens.mapM (env.interpolateToken grouped) =
      (tokens.mapM fun token => (env.interpolateToken grouped token).map fun token => [token]).map List.flatten := by
    induction tokens with
    | nil => rfl
    | cons token rest ih =>
      rw [mapM_cons, mapM_cons, ih]
      cases env.interpolateToken grouped token with
      | error => rfl
      | ok first => cases rest.mapM fun token => (env.interpolateToken grouped token).map fun token => [token] <;> rfl
  rw [singles, singles]
  refine fill (fun token gap => ?_) (fun token gap => ?_) ?_ respaced
  · rw [env.interpolateToken_of_gap grouped gap]
    rfl
  · rw [env'.interpolateToken_of_gap grouped gap]
    rfl
  · intro token token' twin
    exact (related.interpolateToken grouped twin).map fun _ _ twin => .singleton twin

theorem carryIdentifier (grouped : Bool) (twin : token.Twin token')
    {tokens others : Tokens} (respaced : Tokens.Respaced strict tokens others) :
    Agree (Upto.Respaced strict (Tokens.Respaced strict)) (env.carryIdentifier grouped token tokens)
      (env'.carryIdentifier grouped token' others) := by
  have filled := related.interpolateToken grouped twin
  rcases respaced.cases_head with ⟨rfl, rfl⟩ | ⟨next, next', rest, rest', rfl, rfl, twin', same⟩ |
    ⟨next, next', rest, rest', rfl, rfl, gap, gap'⟩
  · exact filled.map fun _ _ twin => ⟨.singleton twin, .nil⟩
  · rw [Environment.carryIdentifier, Environment.carryIdentifier, twin'.kind, twin.text]
    refine Agree.ite (fun _ => filled.map fun _ _ twin => ⟨.singleton twin, respaced⟩) fun _ => ?_
    refine Agree.ite (fun _ => ?_) fun _ => filled.map fun _ _ twin => ⟨.solid twin (.singleton twin'), same⟩
    have group := same.spanGroup 0
    exact (related.substitute grouped group.1).map fun _ _ inner => ⟨.solid twin (.solid twin' inner), group.2⟩
  · rw [Environment.carryIdentifier, Environment.carryIdentifier, gap.kind, gap'.kind]
    exact filled.map fun _ _ twin => ⟨.singleton twin, respaced⟩

theorem carry (grouped : Bool) (twin : token.Twin token')
    {tokens others : Tokens} (respaced : Tokens.Respaced strict tokens others) :
    Agree (Upto.Respaced strict (Tokens.Respaced strict)) (env.carry grouped token tokens)
      (env'.carry grouped token' others) := by
  have filled := related.interpolateToken grouped twin
  rw [Environment.carry, Environment.carry, twin.kind]
  cases token.kind with
  | atKeyword => exact (related.resolve grouped twin).map fun _ _ value => ⟨value, respaced⟩
  | identifier => exact related.carryIdentifier grouped twin respaced
  | string => exact filled.map fun _ _ twin => ⟨.singleton twin, respaced⟩
  | url => exact filled.map fun _ _ twin => ⟨.singleton twin, respaced⟩
  | _ => exact .ok ⟨.singleton twin, respaced⟩

end

theorem gap (last : Option Kind) {tokens others : Tokens} (respaced : Tokens.Respaced strict tokens others) :
    Tokens.Respaced strict (Environment.gap last tokens) (Environment.gap last others) := by
  rw [Environment.gap, Environment.gap, respaced.head_isBlank]
  split
  · exact .cons_space .nil
  · exact .nil

theorem lastKind (last : Option Kind) {written written' : Tokens} (same : Tokens.Respaced strict written written') :
    Environment.lastKind last written' = Environment.lastKind last written := by
  rw [Environment.lastKind, Environment.lastKind, same.lastKind?]

theorem items (related : Respaced strict env env') (grouped : Bool) (last : Option Kind) {tokens others : Tokens}
    (respaced : Tokens.Respaced strict tokens others) :
    Agree (Tokens.Respaced strict) (env.evaluateItems grouped last tokens)
      (env'.evaluateItems grouped last others) := by
  have space := gap last respaced
  rw [Environment.evaluateItems, Environment.evaluateItems]
  rcases respaced.trimLeft_cases with ⟨start, start'⟩ | ⟨first, first', rest, rest', start, start', twin, same⟩
  · split
    · split
      · exact .ok .nil
      · rename_i found
        cases start'.symm.trans found
    · rename_i found
      cases start.symm.trans found
  · have shorter := tokens.length_lt_of_trimLeft start
    split
    · rename_i found
      cases start.symm.trans found
    · rename_i found
      cases start.symm.trans found
      split
      · rename_i found'
        cases start'.symm.trans found'
      · rename_i found'
        cases start'.symm.trans found'
        -- The statement begins where the blanks end, so what it leaves does not begin with one.
        refine (related.statement grouped (.solid twin same)).bind fun reading reading' read => ?_
        cases read with
        | @found value left left' fewer fewer' after =>
          have within : left.length ≤ rest.length := Nat.le_of_lt_succ fewer
          have written := space.append (.singleton (value.twin_toToken first first'))
          dsimp only
          rw [lastKind last written]
          exact (related.items grouped _ after).bind fun _ _ more => .ok (written.append more)
        | @absent left left' bounded bounded' after start =>
          rcases after.cases_head with ⟨rfl, rfl⟩ | ⟨token, token', more, more', rfl, rfl, twin', after'⟩ |
            ⟨token, _, _, _, rfl, _, blank, _⟩
          · exact .ok space
          · have within : more.length ≤ rest.length := Nat.le_of_succ_le_succ bounded
            refine (related.carry grouped twin' after').bind fun carried carried' carry => ?_
            have written := space.append carry.result
            have within' := carried.bounded
            dsimp only
            rw [lastKind last written]
            exact (related.items grouped _ carry.rest).bind fun _ _ more => .ok (written.append more)
          · have solid := Tokens.Respaced.solid_of_trimLeft start.symm
            rw [blank.isBlank] at solid
            cases solid
termination_by tokens.length
decreasing_by all_goals omega

theorem evaluate (related : Respaced strict env env') (grouped : Bool) {tokens others : Tokens}
    (respaced : Tokens.Respaced strict tokens others) :
    Agree (Tokens.Respaced strict) (env.evaluate grouped tokens) (env'.evaluate grouped others) := by
  rw [Environment.evaluate, Environment.evaluate, related.library, respaced.computes]
  exact Agree.ite (fun _ => related.items grouped none respaced) fun _ => related.interpolateTokens grouped respaced

theorem evaluateSingle (related : Respaced strict env env') (grouped : Bool) {tokens others : Tokens}
    (respaced : Tokens.Respaced strict tokens others) :
    Agree Eq (env.evaluateSingle grouped tokens) (env'.evaluateSingle grouped others) := by
  rw [Environment.evaluateSingle, Environment.evaluateSingle]
  refine (related.statement grouped respaced).bind fun reading reading' read => ?_
  cases read with
  | found value rest =>
    dsimp only
    rw [rest.trimLeft.isEmpty]
    exact .ok rfl
  | absent => exact .ok rfl

/-! ### Conditions -/

theorem conjunct (related : Respaced strict env env') (grouped : Bool) (at_ at_' : Token) {tokens others : Tokens}
    (respaced : Tokens.Respaced strict tokens others) :
    Agree (Upto.Respaced strict Eq) (env.conjunct grouped at_ tokens) (env'.conjunct grouped at_' others) := by
  have negated : (others.trimLeft.headText? == some "not") = (tokens.trimLeft.headText? == some "not") :=
    respaced.trimLeft.headText? (by decide +kernel)
  rw [Environment.conjunct, Environment.conjunct]
  have start : Tokens.Respaced strict
      (if (tokens.trimLeft.headText? == some "not") = true then Tokens.trimLeft tokens.trimLeft.tail else tokens.trimLeft)
      (if (others.trimLeft.headText? == some "not") = true then Tokens.trimLeft others.trimLeft.tail else others.trimLeft) := by
    rw [negated]
    split
    · exact respaced.tail_trimLeft.trimLeft
    · exact respaced.trimLeft
  refine (related.statement grouped start).bind fun reading reading' read => ?_
  cases read with
  | absent => exact .error _ _
  | found value rest =>
    cases value with
    | boolean holds => exact .ok ⟨by rw [negated], rest⟩
    | _ => exact .error _ _

theorem conjunction (related : Respaced strict env env') (grouped : Bool) (at_ at_' : Token) {tokens others : Tokens}
    (respaced : Tokens.Respaced strict tokens others) :
    Agree Eq (env.conjunction grouped at_ tokens) (env'.conjunction grouped at_' others) := by
  rw [Environment.conjunction, Environment.conjunction]
  refine (related.conjunct grouped at_ at_' respaced).bind fun read read' same => ?_
  obtain ⟨holds, rest, bounded⟩ := read
  obtain ⟨holds', rest', bounded'⟩ := read'
  obtain ⟨equal, same⟩ := same
  dsimp only at equal same ⊢
  subst equal
  refine Agree.ite (fun _ => .ok rfl) fun _ => ?_
  rcases same.trimLeft_cases with ⟨start, start'⟩ | ⟨token, token', after, after', start, start', twin, following⟩
  · rw [start, start']
    exact .ok rfl
  · have shorter := Nat.lt_of_lt_of_le (rest.length_lt_of_trimLeft start) bounded
    rw [start, start']
    dsimp only
    rw [twin.text]
    exact Agree.ite (fun _ => related.conjunction grouped at_ at_' following) fun _ => .error _ _
termination_by tokens.length

theorem holds (related : Respaced strict env env') (grouped : Bool) {condition condition' : Tokens}
    (respaced : Tokens.Respaced strict condition condition') :
    Agree Eq (env.holds grouped condition) (env'.holds grouped condition') :=
  related.conjunction grouped _ _ respaced.trim

end Environment.Respaced

/-! ### Scopes -/

namespace Scope

def Respaced (strict : Bool) (scope scope' : Scope) : Prop :=
  ∀ name, Option.Rel (Tokens.Respaced strict) (scope.find? name) (scope'.find? name)

namespace Respaced

variable {strict : Bool} {scope scope' : Scope} (library : Library)

theorem definition (related : Respaced strict scope scope') (active : List String) (name : String) :
    Option.Rel (Definition.Respaced strict) (scope.definition? library active name)
      (scope'.definition? library active name) := by
  have found := related name
  cases first : scope.find? name with
  | none =>
    cases second : scope'.find? name with
    | none =>
      rw [definition?_absent first, definition?_absent second]
      exact .none
    | some =>
      rw [first, second] at found
      cases found
  | some tokens =>
    cases second : scope'.find? name with
    | none =>
      rw [first, second] at found
      cases found
    | some tokens' =>
      rw [first, second] at found
      cases found with
      | some same =>
        rw [definition?_found first, definition?_found second]
        -- A name that is active already is an error on both sides; otherwise it becomes active.
        by_cases member : name ∈ active
        · rw [if_pos member, if_pos member]
          exact .some ⟨fun _ _ _ => .error _ _, fun _ _ _ => .error _ _⟩
        · rw [if_neg member, if_neg member]
          have inner : Environment.Respaced strict ⟨library, scope.definition? library (name :: active)⟩
              ⟨library, scope'.definition? library (name :: active)⟩ :=
            ⟨rfl, fun key => definition related (name :: active) key⟩
          refine .some ⟨fun grouped _ _ => inner.evaluateSingle grouped same, fun grouped _ _ => ?_⟩
          exact (inner.evaluate grouped same).map fun _ _ value => value.trim
termination_by scope.idle active
decreasing_by exact idle_cons_lt (mem_names_of_find? first) member

theorem environment (related : Respaced strict scope scope') :
    (scope.environment library).Respaced strict (scope'.environment library) :=
  ⟨rfl, related.definition library []⟩

variable {tokens others : Tokens}

theorem evaluate (related : Respaced strict scope scope') (respaced : Tokens.Respaced strict tokens others) :
    Agree (Tokens.Respaced strict) (scope.evaluate library tokens) (scope'.evaluate library others) :=
  (related.environment library).evaluate false respaced

theorem holds (related : Respaced strict scope scope') (respaced : Tokens.Respaced strict tokens others) :
    Agree Eq (scope.holds library tokens) (scope'.holds library others) :=
  (related.environment library).holds false respaced

theorem interpolateTokens (related : Respaced strict scope scope') {tight : Bool}
    (respaced : Tokens.Respaced tight tokens others) :
    Agree (Tokens.Respaced tight) (scope.interpolateTokens library tokens) (scope'.interpolateTokens library others) :=
  (related.environment library).interpolateTokens false respaced

end Respaced

end Scope

end LessCss
