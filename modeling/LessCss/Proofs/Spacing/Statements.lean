import LessCss.Mixin
import LessCss.Proofs.Spacing.Heads

/-! Statements in tokens that differ in their places and in how blanks are cut. Main
statements: a statement has the same form on both sides, and a call fits the same
definitions there, with the same bindings. -/

set_option autoImplicit false

namespace LessCss

open List Tokens

variable {strict : Bool} {tokens others : Tokens}

/-! ### Declarations and directives -/

namespace Statement

theorem splitColon?_blanks (depth : Nat) {run : Tokens} (blank : Tokens.Blank run) (tokens : Tokens) :
    splitColon? depth (run ++ tokens) = (splitColon? depth tokens).map fun parts => (run ++ parts.1, parts.2) := by
  induction run with
  | nil => cases found : splitColon? depth tokens <;> simp [found]
  | cons token run ih =>
    obtain ⟨first, more⟩ := forall_mem_cons.mp blank
    obtain ⟨opens, closes, _, _⟩ := unbracketed_of_blank first
    have level : token.kind.depthAfter depth = depth := by simp [Kind.depthAfter, opens, closes]
    have other : token.kind ≠ .colon := by
      intro same
      rw [Token.isBlank, same] at first
      cases first
    rw [cons_append, splitColon?, level, ih more, Option.map_map]
    simp only [other, decide_false, Bool.and_false, Bool.false_eq_true, if_false]
    rfl

theorem respaced_splitColon (depth : Nat) (respaced : Tokens.Respaced strict tokens others) :
    Option.Rel (Tokens.RespacedGroup strict) (splitColon? depth tokens) (splitColon? depth others) := by
  induction respaced generalizing depth with
  | nil => exact .none
  | solid twin rest ih =>
    rw [splitColon?, splitColon?, twin.kind]
    split
    · exact .some ⟨.nil, rest⟩
    · exact rel_map_option (ih _) fun _ _ same => ⟨.solid twin same.1, same.2⟩
  | @gap run gap tokens others covers rest ih =>
    rw [splitColon?_blanks depth covers.blank, show gap :: others = [gap] ++ others from rfl,
      splitColon?_blanks depth (forall_mem_singleton.mpr covers.whole.isBlank : Tokens.Blank [gap])]
    exact rel_map_option (ih depth) fun _ _ same => ⟨.gap covers same.1, same.2⟩

theorem respaced_declaration (respaced : Tokens.Respaced strict tokens others) :
    Option.Rel (Tokens.RespacedGroup strict) (declaration? tokens) (declaration? others) := by
  have parts := respaced_splitColon 0 respaced
  unfold declaration?
  generalize splitColon? 0 tokens = first at parts ⊢
  generalize splitColon? 0 others = second at parts ⊢
  cases parts with
  | none => exact .none
  | some same =>
    have property := same.1.trim
    dsimp only
    rw [property.isEmpty, property.any_whitespace]
    split
    · exact .none
    · exact .some ⟨property, same.2.trim⟩

theorem reverse_of_trimRight {value front : Tokens} {word : Token} (ends : value.trimRight = front ++ [word]) :
    value.reverse.dropWhile Token.isBlank = word :: front.reverse := by
  simpa [trimRight] using congrArg List.reverse ends

theorem reverse_of_trimRight_nil {value : Tokens} (ends : value.trimRight = []) :
    value.reverse.dropWhile Token.isBlank = [] := by
  simpa [trimRight] using congrArg List.reverse ends

theorem stripImportant_of_short {value : Tokens}
    (short : value.trimRight = [] ∨ ∃ front word, value.trimRight = front ++ [word] ∧ trimRight front = []) :
    stripImportant value = (value.trimRight, false) := by
  rcases short with ends | ⟨front, word, ends, alone⟩
  · rw [stripImportant, reverse_of_trimRight_nil ends]
  · rw [stripImportant, reverse_of_trimRight ends]
    dsimp only
    rw [reverse_of_trimRight_nil alone]

theorem stripImportant_of_words {value front front' : Tokens} {word mark : Token}
    (ends : value.trimRight = front ++ [word]) (ends' : front.trimRight = front' ++ [mark]) :
    stripImportant value =
      if word.text = "important" && mark.text = "!" then (front'.trimRight, true) else (value.trimRight, false) := by
  rw [stripImportant, reverse_of_trimRight ends]
  dsimp only
  rw [reverse_of_trimRight ends']
  rfl

theorem last_solid {value front : Tokens} {word : Token} (ends : value.trimRight = front ++ [word]) :
    word.isBlank = false := by
  have start := Tokens.Respaced.solid_of_trimLeft (congrArg List.head? (reverse_of_trimRight ends))
  exact start

theorem respaced_stripImportant (respaced : Tokens.Respaced strict tokens others) :
    Tokens.Respaced strict (stripImportant tokens).1 (stripImportant others).1 ∧
      (stripImportant others).2 = (stripImportant tokens).2 := by
  have trimmed := respaced.trimRight
  have never {list front : Tokens} {word : Token} (gap : word.Gap) : list.trimRight ≠ front ++ [word] := fun ends => by
    have solid := last_solid ends
    rw [gap.isBlank] at solid
    cases solid
  rcases trimmed.cases_last with ⟨nil, nil'⟩ | ⟨front, front', word, word', same, same', twin, before⟩ |
    ⟨_, _, _, _, same, _, gap, _⟩
  · rw [stripImportant_of_short (.inl nil), stripImportant_of_short (.inl nil')]
    exact ⟨trimmed, rfl⟩
  · rcases before.trimRight.cases_last with ⟨nil, nil'⟩ |
      ⟨front₂, front₂', mark, mark', same₂, same₂', twin₂, before₂⟩ | ⟨_, _, _, _, same₂, _, gap, _⟩
    · rw [stripImportant_of_short (.inr ⟨_, _, same, nil⟩), stripImportant_of_short (.inr ⟨_, _, same', nil'⟩)]
      exact ⟨trimmed, rfl⟩
    · rw [stripImportant_of_words same same₂, stripImportant_of_words same' same₂', twin.text, twin₂.text]
      split
      · exact ⟨before₂.trimRight, rfl⟩
      · exact ⟨trimmed, rfl⟩
    · exact absurd same₂ (never gap)
  · exact absurd same (never gap)

theorem respaced_stripImportOptions (respaced : Tokens.Respaced strict tokens others) :
    Tokens.Respaced strict (stripImportOptions tokens) (stripImportOptions others) := by
  have dropped : Tokens.Respaced strict (tokens.dropWhile fun token => token.kind != .parenClose).tail
      (others.dropWhile fun token => token.kind != .parenClose).tail := by
    induction respaced with
    | nil => exact .nil
    | solid twin rest ih =>
      rw [dropWhile_cons, dropWhile_cons, twin.kind]
      split
      · exact ih
      · exact rest
    | @gap run gap tokens others covers rest ih =>
      have other : ∀ token ∈ run, (token.kind != .parenClose) = true := fun token member => by
        rw [(covers.each token member).kind]
        rfl
      rw [dropWhile_append_of_pos other, dropWhile_cons_of_pos (by rw [covers.whole.kind]; rfl)]
      exact ih
  rw [stripImportOptions, stripImportOptions, respaced.headIs]
  split
  · exact dropped.trimLeft
  · exact respaced

theorem extends?_of_other (other : tokens.headText? ≠ some "&") : extends? tokens = none := by
  rw [extends?, if_neg other]

/-- In the loose reading there must be no directive. -/
theorem respaced_extends (respaced : Tokens.Respaced strict tokens others)
    (plain : strict = false → ∀ token ∈ tokens, token.text ≠ "extend") :
    Option.Rel (List.Forall₂ (Extend.Respaced strict)) (extends? tokens) (extends? others) := by
  have word : others.headText? = some "&" ↔ tokens.headText? = some "&" := by
    have same : (others.headText? == some "&") = (tokens.headText? == some "&") :=
      respaced.headText? (by decide +kernel)
    rw [← beq_iff_eq, same, beq_iff_eq]
  have read := Selector.respaced_read respaced plain
  by_cases parent : tokens.headText? = some "&"
  · rw [extends?, extends?, if_pos parent, if_pos (word.mpr parent)]
    dsimp only
    have directives := read.extensions
    generalize (Selector.read tokens).extensions = list at directives ⊢
    generalize (Selector.read others).extensions = list' at directives ⊢
    cases directives with
    | nil =>
      simp only [isEmpty_nil, Bool.not_true, Bool.and_false, Bool.false_eq_true, if_false]
      exact .none
    | cons first rest =>
      -- There is a directive, so this is the strict reading and lengths are the same.
      have tight := first.strict
      subst tight
      rw [(respaced_true_iff.mp read.tokens).length_eq, isEmpty_cons, isEmpty_cons]
      split
      · exact .some (.cons first rest)
      · exact .none
  · rw [extends?_of_other parent, extends?_of_other (mt word.mp parent)]
    exact .none

end Statement

/-! ### Calls -/

structure MixinCall.Respaced (strict : Bool) (call call' : MixinCall) : Prop where
  name : Tokens.Respaced strict call.name call'.name
  path : call'.path = call.path
  arguments : Tokens.RespacedParts strict call.arguments call'.arguments
  named : Variables.Respaced strict call.named call'.named
  important : call'.important = call.important

namespace MixinCall

theorem readPath_gaps {run : Tokens} (each : ∀ token ∈ run, token.Gap) (tokens : Tokens) :
    readPath true (run ++ tokens) =
      (run ++ (readPath true tokens).1, (readPath true tokens).2.1, (readPath true tokens).2.2) := by
  induction run with
  | nil => rfl
  | cons token run ih =>
    obtain ⟨first, more⟩ := forall_mem_cons.mp each
    have other : token.kind ≠ .hash := by simp [first.kind]
    rw [cons_append, readPath.eq_def]
    simp only [other, first.isBlank, ih more, Bool.true_or, Bool.true_and, if_true, if_false]
    rfl

theorem readPath_of_gap {token : Token} (gap : token.Gap) (rest : Tokens) :
    readPath false (token :: rest) = ([], [], token :: rest) := by
  have other : token.kind ≠ .hash := by simp [gap.kind]
  rw [readPath.eq_def]
  cases rest with
  | nil => simp [other]
  | cons word tail => simp [other, gap.isMark]

theorem respaced_readPath (started : Bool) {tokens others : Tokens} (respaced : Tokens.Respaced strict tokens others) :
    Tokens.Respaced strict (readPath started tokens).1 (readPath started others).1 ∧
      (readPath started others).2.1 = (readPath started tokens).2.1 ∧
      Tokens.Respaced strict (readPath started tokens).2.2 (readPath started others).2.2 := by
  rcases respaced.cases_run with ⟨rfl, rfl⟩ | ⟨token, token', rest, rest', start, start', twin, same⟩ |
    ⟨run, gap, rest, rest', start, start', covers, same⟩
  · exact ⟨.nil, rfl, .nil⟩
  · have shorter : rest.length + 1 = tokens.length := by rw [start]; rfl
    rw [start, start'] at respaced ⊢
    have mark := twin.isMark ">"
    have point := twin.isMark "."
    rw [readPath.eq_def started (token :: rest), readPath.eq_def started (token' :: rest')]
    dsimp only
    rw [twin.kind, twin.solid, twin.solid', mark, twin.text]
    split
    · obtain ⟨name, path, after⟩ := respaced_readPath true same
      exact ⟨.solid twin name, congrArg (Fragment.id token.text :: ·) path, after⟩
    split
    · obtain ⟨name, path, after⟩ := respaced_readPath true same
      exact ⟨.solid twin name, path, after⟩
    rcases same.cases_head with ⟨rfl, rfl⟩ | ⟨word, word', tail, tail', rfl, rfl, twin', same'⟩ |
      ⟨word, word', tail, tail', rfl, rfl, gap, gap'⟩
    · exact ⟨.nil, rfl, respaced⟩
    · have shorter' : tail.length + 2 = tokens.length := shorter
      dsimp only
      rw [point, twin'.kind, twin'.text]
      split
      · obtain ⟨name, path, after⟩ := respaced_readPath true same'
        exact ⟨.solid twin (.solid twin' name), congrArg (Fragment.cls word.text :: ·) path, after⟩
      · exact ⟨.nil, rfl, respaced⟩
    · dsimp only
      rw [gap.kind, gap'.kind, show (Kind.whitespace == Kind.identifier) = false from rfl, Bool.and_false, Bool.and_false]
      exact ⟨.nil, rfl, respaced⟩
  · have shorter : rest.length < tokens.length := by
      have := length_pos_of_ne_nil covers.ne_nil
      rw [start, length_append]
      omega
    -- Blanks are part of a path that has started, and no path starts with them.
    cases started with
    | true =>
      have whole : ∀ token ∈ [gap], token.Gap := forall_mem_singleton.mpr covers.whole
      obtain ⟨name, path, after⟩ := respaced_readPath true same
      rw [start, start', readPath_gaps covers.each, show gap :: rest' = [gap] ++ rest' from rfl, readPath_gaps whole]
      exact ⟨.gap covers name, path, after⟩
    | false =>
      obtain ⟨first, more, rfl⟩ := exists_cons_of_ne_nil covers.ne_nil
      rw [start, start'] at respaced ⊢
      rw [cons_append, readPath_of_gap (covers.each first mem_cons_self), readPath_of_gap covers.whole]
      exact ⟨.nil, rfl, respaced⟩
termination_by tokens.length

theorem readNamed?_of_gap {token : Token} (gap : token.Gap) (rest : Tokens) : readNamed? (token :: rest) = none := by
  simp only [readNamed?]
  split
  · rw [gap.kind]
    rfl
  · rfl

section

variable (respaced : Tokens.Respaced strict tokens others)

include respaced

theorem respaced_readNamed :
    Option.Rel (fun entry entry' : String × Tokens => entry'.1 = entry.1 ∧ Tokens.Respaced strict entry.2 entry'.2)
      (readNamed? tokens) (readNamed? others) := by
  rcases respaced.cases_head with ⟨rfl, rfl⟩ | ⟨name, name', rest, rest', rfl, rfl, twin, same⟩ |
    ⟨name, name', rest, rest', rfl, rfl, gap, gap'⟩
  · exact .none
  · unfold readNamed?
    rcases same.trimLeft_cases with ⟨start, start'⟩ | ⟨mark, mark', value, value', start, start', twin', same'⟩
    · dsimp only
      rw [start, start']
      exact .none
    · dsimp only
      rw [start, start']
      dsimp only
      rw [twin.kind, twin.text, twin'.kind]
      split
      · exact .some ⟨rfl, same'.trimLeft⟩
      · exact .none
  · rw [readNamed?_of_gap gap, readNamed?_of_gap gap']
    exact .none

theorem respaced_readArguments :
    Tokens.RespacedParts strict (readArguments tokens).1 (readArguments others).1 ∧
      Variables.Respaced strict (readArguments tokens).2 (readArguments others).2 := by
  have parts := respaced.parts tokens.groupSeparator
  rw [readArguments, readArguments, respaced.groupSeparator]
  have named := rel_filterMap (fun _ _ same => respaced_readNamed same) parts
  refine ⟨rel_filter (fun part part' same => ?_) parts, .ofEntries named⟩
  show (readNamed? part).isNone = true ↔ (readNamed? part').isNone = true
  rw [← Option.not_isSome, ← Option.not_isSome, isSome_of_rel (respaced_readNamed same)]

theorem respaced_readImportant : readImportant? others = readImportant? tokens := by
  unfold readImportant?
  rcases respaced.trimLeft_cases with ⟨start, start'⟩ | ⟨mark, mark', rest, rest', start, start', twin, same⟩
  · rw [start, start']
  · rw [start, start']
    dsimp only
    rw [twin.text]
    rcases same.trimLeft_cases with ⟨start, start'⟩ | ⟨word, word', after, after', start, start', twin', same'⟩
    · rw [start, start']
    · rw [start, start']
      dsimp only
      rw [twin'.text, same'.trim.isEmpty]

theorem respaced_readGroup :
    Option.Rel (Tokens.RespacedGroup strict) (readGroup? tokens) (readGroup? others) := by
  rw [readGroup?, readGroup?, respaced.headIs]
  rcases respaced.cases_head with ⟨rfl, rfl⟩ | ⟨_, _, _, _, rfl, rfl, _, same⟩ | ⟨_, _, _, _, rfl, rfl, gap, _⟩
  · exact .some ⟨.nil, .nil⟩
  · split
    · exact same.takeGroup? 0
    · exact .some ⟨.nil, respaced⟩
  · rw [headIs, headKind?, List.head?_cons, Option.map_some, gap.kind]
    exact .some ⟨.nil, respaced⟩

theorem respaced_read : Option.Rel (MixinCall.Respaced strict) (read? tokens) (read? others) := by
  obtain ⟨name, path, after⟩ := respaced_readPath false respaced.trim
  have group := respaced_readGroup after
  rw [read?, read?]
  dsimp only
  rw [path]
  split
  · exact .none
  · generalize readGroup? (readPath false tokens.trim).2.2 = first at group ⊢
    generalize readGroup? (readPath false others.trim).2.2 = second at group ⊢
    cases group with
    | none => exact .none
    | @some group group' same =>
      have arguments := respaced_readArguments same.1
      change Option.Rel _ (readImportant? group.2 >>= _) (readImportant? group'.2 >>= _)
      rw [respaced_readImportant same.2]
      cases readImportant? group.2 with
      | none => exact .none
      | some important => exact .some ⟨name.trim, rfl, arguments.1, arguments.2, rfl⟩

end

end MixinCall

/-! ### Fitting a call to a definition -/

theorem Fragment.ofBranch?_gaps {run : Tokens} (each : ∀ token ∈ run, token.Gap) (tokens : Tokens) :
    ofBranch? (run ++ tokens) = ofBranch? tokens := by
  induction run with
  | nil => rfl
  | cons token run ih =>
    obtain ⟨first, more⟩ := forall_mem_cons.mp each
    have other : token.kind ≠ .hash := by simp [first.kind]
    rw [cons_append, ofBranch?.eq_def]
    simp only [other, first.isBlank, ih more, Bool.true_or, if_true, if_false]

theorem Fragment.respaced_ofBranch {tokens others : Tokens} (respaced : Tokens.Respaced strict tokens others) :
    ofBranch? others = ofBranch? tokens := by
  rcases respaced.cases_run with ⟨rfl, rfl⟩ | ⟨token, token', rest, rest', start, start', twin, same⟩ |
    ⟨run, gap, rest, rest', start, start', covers, same⟩
  · rfl
  · have shorter : rest.length + 1 = tokens.length := by rw [start]; rfl
    rw [start, start', ofBranch?.eq_def (token :: rest), ofBranch?.eq_def (token' :: rest')]
    dsimp only
    rw [twin.kind, twin.solid, twin.solid', twin.isMark, twin.text, respaced_ofBranch same]
    rcases same.cases_head with ⟨rfl, rfl⟩ | ⟨word, word', tail, tail', rfl, rfl, twin', same'⟩ |
      ⟨word, word', tail, tail', rfl, rfl, gap, gap'⟩
    · rfl
    · have shorter' : tail.length + 2 = tokens.length := shorter
      dsimp only
      rw [twin.isMark, twin'.kind, twin'.text, respaced_ofBranch same']
    · dsimp only
      rw [gap.kind, gap'.kind]
      simp only [show (Kind.whitespace == Kind.identifier) = false from rfl, Bool.and_false, Bool.false_eq_true, if_false]
  · have shorter : rest.length < tokens.length := by
      have := length_pos_of_ne_nil covers.ne_nil
      rw [start, length_append]
      omega
    have whole : ∀ token ∈ [gap], token.Gap := forall_mem_singleton.mpr covers.whole
    rw [start, start', ofBranch?_gaps covers.each, show gap :: rest' = [gap] ++ rest' from rfl, ofBranch?_gaps whole]
    exact respaced_ofBranch same
termination_by tokens.length

theorem ParameterList.Respaced.loosen {list list' : ParameterList} (respaced : ParameterList.Respaced strict list list') :
    ParameterList.Respaced false list list' := by
  refine ⟨List.Forall₂.imp (fun first second same => ⟨same.name, ?_⟩) respaced.parameters, respaced.rest⟩
  have fallback := same.fallback
  generalize first.fallback = value at fallback ⊢
  generalize second.fallback = value' at fallback ⊢
  cases fallback with
  | none => exact .none
  | some value => exact .some value.loosen

namespace MixinCall

theorem respaced_walk {call call' : MixinCall} (path : call'.path = call.path)
    (respaced : Tokens.Respaced strict tokens others) (offset : Nat) :
    call'.walk others offset = call.walk tokens offset := by
  have parts := respaced.branches
  unfold walk
  generalize tokens.branches = list at parts ⊢
  generalize others.branches = list' at parts ⊢
  induction parts with
  | nil => rfl
  | cons first _ ih =>
    rw [List.findSome?_cons, List.findSome?_cons, Fragment.respaced_ofBranch first, ih, path]

def RespacedAssignment (strict : Bool) (first second : List (String × Tokens) × List Tokens) : Prop :=
  List.Forall₂ (fun entry entry' : String × Tokens => entry'.1 = entry.1 ∧ Tokens.Respaced strict entry.2 entry'.2)
    first.1 second.1 ∧ Tokens.RespacedParts strict first.2 second.2

theorem respaced_assign {named named' : Variables} (same : Variables.Respaced strict named named')
    {parameters parameters' : List Parameter} (list : List.Forall₂ (Parameter.Respaced strict) parameters parameters')
    {arguments arguments' : List Tokens} (given : Tokens.RespacedParts strict arguments arguments') :
    Option.Rel (RespacedAssignment strict) (assign? named parameters arguments) (assign? named' parameters' arguments') := by
  induction list generalizing arguments arguments' with
  | nil => exact .some ⟨.nil, given⟩
  | @cons parameter parameter' parameters parameters' first _ ih =>
    obtain ⟨name, value?⟩ := parameter
    obtain ⟨name', value?'⟩ := parameter'
    obtain ⟨equal, fallback⟩ := first
    dsimp only at equal fallback
    subst equal
    -- One value is given on both sides, and the rest is assigned by induction.
    have more {value value' : Tokens} (one : Tokens.Respaced strict value value') {left left' : List Tokens}
        (others : Tokens.RespacedParts strict left left') :
        Option.Rel (RespacedAssignment strict)
          (assign? named parameters left >>= fun result => some ((name', value) :: result.1, result.2))
          (assign? named' parameters' left' >>= fun result => some ((name', value') :: result.1, result.2)) := by
      have rest := ih others
      generalize assign? named parameters left = first at rest ⊢
      generalize assign? named' parameters' left' = second at rest ⊢
      cases rest with
      | none => exact .none
      | some rest => exact .some ⟨.cons ⟨rfl, one⟩ rest.1, rest.2⟩
    have found := same.get? name'
    rw [assign?.eq_def, assign?.eq_def named']
    dsimp only
    generalize named.get? name' = value at found ⊢
    generalize named'.get? name' = value' at found ⊢
    cases found with
    | some one => exact more one given
    | none =>
      cases given with
      | cons one others => exact more one others
      | nil =>
        cases fallback with
        | none => exact .none
        | some one => exact more one .nil

theorem Respaced.hasArguments {call call' : MixinCall} (respaced : Respaced strict call call') :
    call'.hasArguments = call.hasArguments := by
  rw [MixinCall.hasArguments, MixinCall.hasArguments, isEmpty_of_forall₂ respaced.arguments,
    isEmpty_of_forall₂ respaced.named]

theorem respaced_bind {call call' : MixinCall} (called : Respaced false call call') {selector selector' : Selector}
    (head : selector.Respaced strict selector') :
    Option.Rel (Variables.Respaced false) (call.bind? selector) (call'.bind? selector') := by
  have listed := head.parameters
  unfold bind?
  rw [called.hasArguments]
  generalize selector.parameters = list? at listed ⊢
  generalize selector'.parameters = list?' at listed ⊢
  cases listed with
  | none =>
    dsimp only
    split
    · exact .none
    · exact .some .empty
  | @some list list' same =>
    have assigned := respaced_assign called.named same.loosen.parameters called.arguments
    have unlimited : list'.unlimited = list.unlimited := by
      rw [ParameterList.unlimited, ParameterList.unlimited, same.rest]
    dsimp only
    rw [unlimited, same.rest]
    generalize assign? call.named list.parameters call.arguments = first at assigned ⊢
    generalize assign? call'.named list'.parameters call'.arguments = second at assigned ⊢
    cases assigned with
    | none => exact .none
    | @some first second both =>
      obtain ⟨assigned, left⟩ := first
      obtain ⟨assigned', left'⟩ := second
      obtain ⟨values, surplus⟩ := both
      dsimp only at values surplus
      -- All arguments together are joined by single spaces, whatever stood between them.
      have all : List.Forall₂ (fun entry entry' : String × Tokens =>
          entry'.1 = entry.1 ∧ Tokens.Respaced false entry.2 entry'.2)
          [(allArguments, joinSpaced (assigned.map Prod.snd ++ left))]
          [(allArguments, joinSpaced (assigned'.map Prod.snd ++ left'))] := by
        refine .cons ⟨rfl, .joinSpaced ?_⟩ .nil
        exact rel_append (rel_map (fun _ _ same => same.2) values) surplus
      change Option.Rel _ (if _ then _ else _) (if _ then _ else _)
      rw [isEmpty_of_forall₂ surplus]
      split
      · exact .none
      · refine .some (.ofEntries (rel_append (rel_append values ?_) all))
        cases list.rest with
        | named name => exact .cons ⟨rfl, .joinSpaced surplus⟩ .nil
        | absent => exact .nil
        | anonymous => exact .nil

end MixinCall

end LessCss
