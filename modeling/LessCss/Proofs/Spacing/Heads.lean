import LessCss.Evaluation.Statement
import LessCss.Proofs.Spacing.Tokens
import LessCss.Variables

/-! Heads of rulesets and statements in tokens that differ in their places and in how blanks
are cut. Main statement: a head is cut into the same selector, parameters, guards and
directives on both sides. Directives are compared token by token later, so they are read in
the strict reading only. -/

set_option autoImplicit false

namespace LessCss

open List Tokens ParameterList

variable {strict : Bool} {tokens others : Tokens}

/-! ### Variables -/

namespace Variables

def Respaced (strict : Bool) (vars vars' : Variables) : Prop :=
  List.Forall₂ (fun entry entry' : String × Tokens => entry'.1 = entry.1 ∧ Tokens.Respaced strict entry.2 entry'.2)
    vars.entries vars'.entries

namespace Respaced

variable {vars vars' : Variables}

theorem empty : Respaced strict .empty .empty := .nil

section

variable (related : Respaced strict vars vars')

include related

theorem get? (name : String) : Option.Rel (Tokens.Respaced strict) (vars.get? name) (vars'.get? name) := by
  obtain ⟨entries⟩ := vars
  obtain ⟨entries'⟩ := vars'
  unfold Variables.get?
  unfold Respaced at related
  dsimp only at related ⊢
  induction related with
  | nil => exact .none
  | @cons entry entry' _ _ same _ ih =>
    obtain ⟨key, value⟩ := entry
    obtain ⟨key', value'⟩ := entry'
    obtain ⟨rfl, same⟩ := same
    rw [lookup_cons, lookup_cons]
    cases name == key' with
    | true => exact .some same
    | false => exact ih

theorem contains (name : String) : vars'.contains name = vars.contains name :=
  isSome_of_rel (related.get? name)

theorem insert (name : String) {value value' : Tokens}
    (same : Tokens.Respaced strict value value') : Respaced strict (vars.insert name value) (vars'.insert name value') := by
  obtain ⟨entries⟩ := vars
  obtain ⟨entries'⟩ := vars'
  unfold Respaced Variables.insert at *
  dsimp only at related ⊢
  induction related with
  | nil => exact .cons ⟨rfl, same⟩ .nil
  | cons first rest ih =>
    rw [insertEntry, insertEntry, first.1]
    split
    · exact .cons ⟨rfl, same⟩ rest
    · exact .cons first ih

theorem merge {more more' : Variables} (others : Respaced strict more more') :
    Respaced strict (vars.merge more) (vars'.merge more') := by
  obtain ⟨entries⟩ := more
  obtain ⟨entries'⟩ := more'
  unfold Variables.merge
  unfold Respaced at others
  dsimp only at others ⊢
  induction others generalizing vars vars' with
  | nil => exact related
  | cons first _ ih =>
    rw [foldl_cons, foldl_cons, first.1]
    exact ih (related.insert _ first.2)

end

theorem ofEntries {entries entries' : List (String × Tokens)}
    (same : List.Forall₂ (fun entry entry' : String × Tokens =>
      entry'.1 = entry.1 ∧ Tokens.Respaced strict entry.2 entry'.2) entries entries') :
    Respaced strict (.ofEntries entries) (.ofEntries entries') :=
  empty.merge same

end Respaced

end Variables

/-! ### Parameter lists -/

theorem exists_of_isEllipsis (dots : isEllipsis tokens = true) : ∃ first second third rest,
    tokens = first :: second :: third :: rest ∧ first.text = "." ∧ second.text = "." ∧ third.text = "." := by
  unfold isEllipsis at dots
  rcases tokens with _ | ⟨first, _ | ⟨second, _ | ⟨third, rest⟩⟩⟩
  · simp at dots
  · simp at dots
  · simp at dots
  · exact ⟨first, second, third, rest, rfl, by simpa using dots⟩

namespace Tokens.Respaced

section

variable (respaced : Respaced strict tokens others)

include respaced

/-- A list that begins with a word on one side begins with the same token on both. -/
theorem uncons_of_text {word : String} (start : tokens.headText? = some word ∨ others.headText? = some word)
    (solid : word.toList.all Text.isBlank = false) : ∃ first second rest rest', tokens = first :: rest ∧ others = second :: rest' ∧
      first.Twin second ∧ Respaced strict rest rest' := by
  rcases respaced.cases_head with ⟨rfl, rfl⟩ | found | ⟨_, _, _, _, rfl, rfl, gap, gap'⟩
  · rcases start with start | start <;> cases start
  · exact found
  · rcases start with start | start
    · exact absurd (Option.some.inj start) (gap.text_ne solid)
    · exact absurd (Option.some.inj start) (gap'.text_ne solid)

/-- Three points at the front are three points on both sides, without a blank among them. -/
theorem uncons_ellipsis (dots : isEllipsis tokens = true ∨ isEllipsis others = true) :
    isEllipsis tokens = true ∧ isEllipsis others = true ∧ ∃ front front' rest rest', tokens = front ++ rest ∧
      others = front' ++ rest' ∧ front.length = 3 ∧ front'.length = 3 ∧ Respaced strict rest rest' := by
  have texts : (∃ first second third rest, tokens = first :: second :: third :: rest ∧
      first.text = "." ∧ second.text = "." ∧ third.text = ".") ∨ ∃ first second third rest,
      others = first :: second :: third :: rest ∧ first.text = "." ∧ second.text = "." ∧ third.text = "." :=
    dots.imp exists_of_isEllipsis exists_of_isEllipsis
  -- A point is no blank, so on either side it stands first on both.
  have next {tokens others : Tokens} (respaced : Respaced strict tokens others)
      (start : tokens.headText? = some "." ∨ others.headText? = some ".") :=
    respaced.uncons_of_text start (by decide +kernel)
  obtain ⟨a, a', rest, rest', rfl, rfl, twin, respaced⟩ := next respaced (by
    rcases texts with ⟨_, _, _, _, rfl, text, _, _⟩ | ⟨_, _, _, _, rfl, text, _, _⟩
    · exact .inl (congrArg some text)
    · exact .inr (congrArg some text))
  obtain ⟨b, b', rest, rest', rfl, rfl, twin', respaced⟩ := next respaced (by
    rcases texts with ⟨_, _, _, _, same, _, text, _⟩ | ⟨_, _, _, _, same, _, text, _⟩
    · cases same
      exact .inl (congrArg some text)
    · cases same
      exact .inr (congrArg some text))
  obtain ⟨c, c', rest, rest', rfl, rfl, twin'', respaced⟩ := next respaced (by
    rcases texts with ⟨_, _, _, _, same, _, _, text⟩ | ⟨_, _, _, _, same, _, _, text⟩
    · cases same
      exact .inl (congrArg some text)
    · cases same
      exact .inr (congrArg some text))
  have same : isEllipsis (a' :: b' :: c' :: rest') = isEllipsis (a :: b :: c :: rest) := by
    simp [isEllipsis, twin.text, twin'.text, twin''.text]
  have both : isEllipsis (a :: b :: c :: rest) = true := dots.elim id (same.symm.trans ·)
  exact ⟨both, same.trans both, [a, b, c], [a', b', c'], rest, rest', rfl, rfl, rfl, rfl, respaced⟩

theorem isEllipsis : LessCss.isEllipsis others = LessCss.isEllipsis tokens := by
  rw [Bool.eq_iff_iff]
  exact ⟨fun dots => (respaced.uncons_ellipsis (.inr dots)).1, fun dots => (respaced.uncons_ellipsis (.inl dots)).2.1⟩

theorem only_ellipsis :
    (LessCss.isEllipsis others && others.length == 3) = (LessCss.isEllipsis tokens && tokens.length == 3) := by
  cases dots : LessCss.isEllipsis tokens with
  | false => rw [respaced.isEllipsis, dots]; rfl
  | true =>
    obtain ⟨_, both, front, front', rest, rest', rfl, rfl, three, three', same⟩ := respaced.uncons_ellipsis (.inl dots)
    rw [both, length_append, length_append, three, three']
    have empty := same.isEmpty
    cases rest <;> cases rest' <;> simp_all

end

end Tokens.Respaced

structure Parameter.Respaced (strict : Bool) (first second : Parameter) : Prop where
  name : second.name = first.name
  fallback : Option.Rel (Tokens.Respaced strict) first.fallback second.fallback

structure ParameterList.Respaced (strict : Bool) (list list' : ParameterList) : Prop where
  parameters : List.Forall₂ (Parameter.Respaced strict) list.parameters list'.parameters
  rest : list'.rest = list.rest

theorem ParameterList.Respaced.cons {list list' : ParameterList} {name : String} {fallback fallback' : Option Tokens}
    (same : Option.Rel (Tokens.Respaced strict) fallback fallback') (rest : ParameterList.Respaced strict list list') :
    ParameterList.Respaced strict { list with parameters := ⟨name, fallback⟩ :: list.parameters }
      { list' with parameters := ⟨name, fallback'⟩ :: list'.parameters } :=
  ⟨.cons ⟨rfl, same⟩ rest.parameters, rest.rest⟩

theorem ParameterList.respaced_ofParts {parts parts' : List Tokens} (respaced : Tokens.RespacedParts strict parts parts') :
    Option.Rel (ParameterList.Respaced strict) (ofParts? parts) (ofParts? parts') := by
  induction respaced with
  | nil => exact .some ⟨.nil, rfl⟩
  | @cons part part' parts parts' same rest ih =>
    have ends := isEmpty_of_forall₂ rest
    have dots := same.isEllipsis
    rcases same.cases_head with ⟨rfl, rfl⟩ | ⟨name, name', after, after', rfl, rfl, twin, following⟩ |
      ⟨name, name', after, after', rfl, rfl, gap, gap'⟩
    · exact .none
    · rw [ofParts?, ofParts?, dots, ends, twin.kind, twin.text]
      split
      · split
        · exact .some ⟨.nil, rfl⟩
        · exact .none
      split
      · exact .none
      -- Behind the name may stand nothing, a colon and a fallback, or the points of a rest.
      rcases following.trimLeft_cases with ⟨start, start'⟩ | ⟨mark, mark', value, value', start, start', twin', same'⟩
      · rw [start, start']
        exact rel_map_option ih fun _ _ list => list.cons .none
      · have dots' := (Tokens.Respaced.solid twin' same').only_ellipsis
        have size (value : Tokens) : (value.length == 2) = (value.length + 1 == 3) := by simp
        rw [start, start']
        dsimp only
        rw [twin'.kind, same'.trim.isEmpty, size, size]
        rw [length_cons, length_cons] at dots'
        rw [dots']
        split
        · split
          · exact .none
          · exact rel_map_option ih fun _ _ list => list.cons (.some same'.trim)
        · split
          · exact .some ⟨.nil, rfl⟩
          · exact .none
    · rw [ofParts?, ofParts?, dots, ends, gap.kind, gap'.kind]
      split
      · split
        · exact .some ⟨.nil, rfl⟩
        · exact .none
      · exact .none

theorem ParameterList.respaced_read (respaced : Tokens.Respaced strict tokens others) :
    Option.Rel (ParameterList.Respaced strict) (read? tokens) (read? others) := by
  rw [read?, read?, respaced.groupSeparator]
  exact respaced_ofParts (respaced.parts _)

/-! ### Directives -/

def Token.Like (first second : Token) : Prop :=
  first.Twin second ∨ (first.Gap ∧ second.Gap ∧ second.text = first.text)

/-- In the strict reading tokens correspond one by one. -/
theorem Tokens.respaced_true_iff : Respaced true tokens others ↔ List.Forall₂ Token.Like tokens others := by
  constructor
  · intro respaced
    induction respaced with
    | nil => exact .nil
    | solid twin _ ih => exact .cons (.inl twin) ih
    | @gap run gap tokens others covers _ ih =>
      obtain ⟨only, rfl⟩ := length_eq_one_iff.mp (covers.single rfl)
      have same : gap.text = only.text := by simpa [text] using covers.text
      exact .cons (.inr ⟨covers.each only mem_cons_self, covers.whole, same⟩) ih
  · intro all
    induction all with
    | nil => exact .nil
    | cons like _ ih =>
      rcases like with twin | ⟨gap, gap', same⟩
      · exact .solid twin ih
      · exact ih.cons_gap gap gap' same

theorem Tokens.Respaced.drop (tight : strict = true) (respaced : Respaced strict tokens others) (n : Nat) :
    Respaced strict (tokens.drop n) (others.drop n) := by
  subst tight
  exact respaced_true_iff.mpr (forall₂_drop n (respaced_true_iff.mp respaced))

theorem Token.Like.kind {first second : Token} (like : first.Like second) : second.kind = first.kind :=
  like.elim Token.Twin.kind fun gaps => gaps.2.1.kind.trans gaps.1.kind.symm

theorem Token.Like.text {first second : Token} (like : first.Like second) : second.text = first.text :=
  like.elim Token.Twin.text fun gaps => gaps.2.2

/-- Directives are compared token by token, so their targets have to be the same in the strict reading. -/
structure Extend.Respaced (strict : Bool) (first second : Extend) : Prop where
  strict : strict = true
  target : Tokens.Respaced true first.target second.target
  all : second.all = first.all

theorem Extend.respaced_ofTarget (respaced : Tokens.Respaced true tokens others) :
    Extend.Respaced true (.ofTarget tokens) (.ofTarget others) := by
  have reversed := rel_reverse (respaced_true_iff.mp respaced)
  rw [Extend.ofTarget, Extend.ofTarget]
  generalize tokens.reverse = first at reversed ⊢
  generalize others.reverse = second at reversed ⊢
  cases reversed with
  | nil => exact ⟨rfl, respaced, rfl⟩
  | cons like rest =>
    dsimp only
    rw [like.text]
    split
    · exact ⟨rfl, (respaced_true_iff.mpr (rel_reverse rest)).trimRight, rfl⟩
    · exact ⟨rfl, respaced, rfl⟩

theorem Extend.respaced_readGroup (tight : strict = true) (respaced : Tokens.Respaced strict tokens others) :
    List.Forall₂ (Extend.Respaced strict) (Extend.readGroup tokens) (Extend.readGroup others) := by
  subst tight
  exact rel_map (fun _ _ same => respaced_ofTarget same) respaced.branches

/-! ### Heads of rulesets -/

structure Selector.Respaced (strict : Bool) (first second : Selector) : Prop where
  tokens : Tokens.Respaced strict first.tokens second.tokens
  parameters : Option.Rel (ParameterList.Respaced strict) first.parameters second.parameters
  conditions : Tokens.RespacedParts strict first.conditions second.conditions
  extensions : List.Forall₂ (Extend.Respaced strict) first.extensions second.extensions

namespace Selector

theorem respaced_empty : Respaced strict empty empty := ⟨.nil, .none, .nil, .nil⟩

theorem Respaced.isMixin {first second : Selector} (respaced : Respaced strict first second) :
    second.isMixin = first.isMixin :=
  isSome_of_rel respaced.parameters

theorem Respaced.isGuarded {first second : Selector} (respaced : Respaced strict first second) :
    second.isGuarded = first.isGuarded := by
  rw [Selector.isGuarded, Selector.isGuarded, isEmpty_of_forall₂ respaced.conditions]

theorem respaced_endsInName {seen seen' : Tokens} (behind : Tokens.Respaced strict seen.reverse seen'.reverse) :
    endsInName seen' = endsInName seen := by
  have flip {seen front : Tokens} {last : Token} (same : seen.reverse = front ++ [last]) :
      seen = last :: front.reverse := by simpa using congrArg List.reverse same
  rcases behind.cases_last with ⟨nil, nil'⟩ | ⟨front, front', last, last', same, same', twin, before⟩ |
    ⟨front, front', last, last', same, same', gap, gap'⟩
  · rw [reverse_eq_nil_iff.mp nil, reverse_eq_nil_iff.mp nil']
  · rw [flip same, flip same', endsInName, endsInName, twin.kind]
    congr 2
    rcases before.cases_last with ⟨rfl, rfl⟩ | ⟨_, _, _, _, rfl, rfl, twin', _⟩ | ⟨_, _, _, _, rfl, rfl, gap, gap'⟩
    · rfl
    · simp [twin'.isMark]
    · simp [gap.isMark, gap'.isMark]
  · rw [flip same, flip same', endsInName, endsInName, gap.kind, gap'.kind]
    rfl

theorem respaced_opensExtend (respaced : Tokens.Respaced strict tokens others) :
    opensExtend others = opensExtend tokens := by
  have word : (others.headText? == some "extend") = (tokens.headText? == some "extend") :=
    respaced.headText? (by decide +kernel)
  unfold opensExtend
  rcases respaced.cases_head with ⟨rfl, rfl⟩ | ⟨_, _, _, _, rfl, rfl, _, rest⟩ | ⟨first, _, rest, _, rfl, rfl, gap, _⟩
  · rfl
  · rw [word, drop_succ_cons, drop_zero, drop_succ_cons, drop_zero, rest.headIs]
  · have none_ : (headText? (first :: rest) == some "extend") = false :=
      beq_eq_false_iff_ne.mpr fun same => gap.text_ne (by decide +kernel) (Option.some.inj same)
    rw [word, none_]
    rfl

theorem exists_of_opensExtend (opens : opensExtend tokens = true) : ∃ token ∈ tokens, token.text = "extend" := by
  rw [opensExtend, Bool.and_eq_true] at opens
  cases tokens with
  | nil => cases opens.1
  | cons token rest => exact ⟨token, mem_cons_self, by simpa [headText?] using opens.1⟩

theorem respaced_opensGuard {seen seen' : Tokens} {token token' : Token} (twin : token.Twin token')
    (behind : Tokens.Respaced strict seen.reverse seen'.reverse) :
    opensGuard token' seen' = opensGuard token seen := by
  have solid : seen'.any (fun before => !before.isBlank) = seen.any (fun before => !before.isBlank) := by
    simpa using behind.any_solid
  have blank : seen'.head?.any Token.isBlank = seen.head?.any Token.isBlank := by
    rw [← List.getLast?_reverse, ← List.getLast?_reverse]
    rcases behind.cases_last with ⟨nil, nil'⟩ | ⟨_, _, _, _, same, same', twin, _⟩ | ⟨_, _, _, _, same, same', gap, gap'⟩
    · rw [nil, nil']
    · simp [same, same', twin.solid, twin.solid']
    · simp [same, same', gap.isBlank, gap'.isBlank]
  rw [opensGuard, opensGuard, twin.kind, twin.text, solid, blank]

theorem readFrom_gaps (seen : Tokens) (selector : Selector) {run : Tokens} (each : ∀ token ∈ run, token.Gap)
    (tokens : Tokens) : readFrom seen selector (run ++ tokens) = readFrom (run.reverse ++ seen) selector tokens := by
  induction run generalizing seen with
  | nil => rfl
  | cons token run ih =>
    obtain ⟨first, more⟩ := forall_mem_cons.mp each
    have guard : opensGuard token seen = false := by rw [opensGuard, first.kind]; rfl
    rw [cons_append, readFrom, first.kind, guard, reverse_cons, List.append_assoc]
    exact ih (token :: seen) more

theorem subset_takeGroup (tokens : Tokens) : (takeGroup tokens).2 ⊆ tokens := by
  have within (depth : Nat) (group : Tokens × Tokens) (found : takeGroup? depth tokens = some group) :
      group.2 ⊆ tokens := by
    induction tokens generalizing depth group with
    | nil => cases found
    | cons token rest ih =>
      rw [takeGroup?] at found
      have step {depth : Nat} (found : (takeGroup? depth rest).map (fun group => (token :: group.1, group.2)) =
          some group) : group.2 ⊆ token :: rest := by
        obtain ⟨inner, read, rfl⟩ := Option.map_eq_some_iff.mp found
        exact subset_cons_of_subset _ (ih _ inner read)
      split at found
      · split at found
        · cases found
          exact subset_cons_self _ _
        · exact step found
      · exact step found
  unfold takeGroup
  cases found : takeGroup? 0 tokens with
  | none => exact List.nil_subset _
  | some group => exact within 0 group found

/-- In the loose reading there must be no directive. -/
theorem respaced_readFrom {seen seen' : Tokens} {selector selector' : Selector}
    (behind : Tokens.Respaced strict seen.reverse seen'.reverse) (parts : Respaced strict selector selector')
    {tokens others : Tokens} (respaced : Tokens.Respaced strict tokens others)
    (plain : strict = false → ∀ token ∈ tokens, token.text ≠ "extend") :
    Respaced strict (readFrom seen selector tokens) (readFrom seen' selector' others) := by
  have later {rest : Tokens} (inside : rest ⊆ tokens) : strict = false → ∀ token ∈ rest, token.text ≠ "extend" :=
    fun loose token member => plain loose token (inside member)
  rcases respaced.cases_run with ⟨rfl, rfl⟩ | ⟨token, token', rest, rest', start, start', twin, same⟩ |
    ⟨run, gap, rest, rest', start, start', covers, same⟩
  · rw [readFrom, readFrom]
    exact { parts with tokens := behind.trim }
  · have shorter : rest.length + 1 = tokens.length := by rw [start]; rfl
    have within : rest ⊆ tokens := by rw [start]; exact subset_cons_self _ _
    have after : (takeGroup rest).2.length ≤ rest.length := length_takeGroup_le rest
    have after' : (takeGroup (rest.drop 2)).2.length ≤ rest.length :=
      Nat.le_trans (length_takeGroup_le _) (drop_sublist 2 rest).length_le
    have group := same.takeGroup
    have none_ : selector'.parameters.isNone = selector.parameters.isNone := by
      have mixin := parts.isMixin
      unfold isMixin at mixin
      rw [← Option.not_isSome, ← Option.not_isSome, mixin]
    rw [start, start', readFrom, readFrom, twin.kind, respaced_opensExtend same, respaced_endsInName behind,
      respaced_opensGuard twin behind, none_]
    split
    · rename_i opens
      rw [Bool.and_eq_true] at opens
      -- A directive is read by its blanks, so it is compared in the strict reading only.
      rcases Bool.eq_false_or_eq_true strict with tight | loose
      · have group := (same.drop tight 2).takeGroup
        have added := rel_append parts.extensions (Extend.respaced_readGroup tight group.1)
        refine respaced_readFrom behind ?_ group.2 ?_
        · exact ⟨parts.tokens, parts.parameters, parts.conditions, added⟩
        · exact later (List.Subset.trans (List.Subset.trans (subset_takeGroup _) (drop_subset 2 rest)) within)
      · obtain ⟨word, member, text⟩ := exists_of_opensExtend opens.2
        exact absurd text (later within loose word member)
    split
    · have read := respaced_read group.1
      dsimp only
      generalize read? (takeGroup rest).1 = list at read ⊢
      generalize read? (takeGroup rest').1 = list' at read ⊢
      cases read with
      | some list =>
        refine respaced_readFrom behind ?_ group.2 (later (List.Subset.trans (subset_takeGroup rest) within))
        exact ⟨parts.tokens, .some list, parts.conditions, parts.extensions⟩
      | none =>
        have close : (Token.derived .parenClose ")" token).Twin (.derived .parenClose ")" token') := ⟨rfl, rfl, rfl⟩
        refine respaced_readFrom ?_ parts group.2 (later (List.Subset.trans (subset_takeGroup rest) within))
        have all := ((behind.append (.singleton twin)).append group.1).append (.singleton close)
        simpa using all
    split
    · exact { parts with conditions := same.branches, tokens := behind.trim }
    · refine respaced_readFrom ?_ parts same (later within)
      simpa using behind.append (.singleton twin)
  · have shorter : rest.length < tokens.length := by
      have := length_pos_of_ne_nil covers.ne_nil
      rw [start, length_append]
      omega
    have whole : ∀ token ∈ [gap], token.Gap := forall_mem_singleton.mpr covers.whole
    rw [start, start', readFrom_gaps seen selector covers.each, show gap :: rest' = [gap] ++ rest' from rfl,
      readFrom_gaps seen' selector' whole]
    refine respaced_readFrom ?_ parts same (later (by rw [start]; exact subset_append_right _ _))
    simpa using behind.append (.gap covers .nil)
termination_by tokens.length

theorem respaced_read (respaced : Tokens.Respaced strict tokens others)
    (plain : strict = false → ∀ token ∈ tokens, token.text ≠ "extend") : Respaced strict (read tokens) (read others) :=
  respaced_readFrom .nil respaced_empty respaced plain

/-! ### Nesting -/

theorem isParentMark_of_gap {token : Token} (gap : token.Gap) : isParentMark token = false :=
  beq_eq_false_iff_ne.mpr (gap.text_ne (by decide +kernel))

theorem isParentMark_twin {first second : Token} (twin : first.Twin second) :
    isParentMark second = isParentMark first := by
  rw [isParentMark, isParentMark, twin.text]

theorem respaced_any_parentMark (respaced : Tokens.Respaced strict tokens others) :
    others.any isParentMark = tokens.any isParentMark := by
  induction respaced with
  | nil => rfl
  | solid twin _ ih => rw [any_cons, any_cons, isParentMark_twin twin, ih]
  | @gap run gap _ _ covers _ ih =>
    have none_ : run.any isParentMark = false :=
      any_eq_false.mpr fun token member => by rw [isParentMark_of_gap (covers.each token member)]; exact Bool.false_ne_true
    rw [any_cons, any_append, none_, isParentMark_of_gap covers.whole, ih]

theorem respaced_nestBranch {outer outer' : Tokens} (around : Tokens.Respaced strict outer outer')
    (respaced : Tokens.Respaced strict tokens others) :
    Tokens.Respaced strict (nestBranch outer tokens) (nestBranch outer' others) := by
  -- No blank is a parent mark, so runs of blanks are left as they are.
  have replaced : Tokens.Respaced strict
      (tokens.flatMap fun token => if isParentMark token then outer else [token])
      (others.flatMap fun token => if isParentMark token then outer' else [token]) := by
    induction respaced with
    | nil => exact .nil
    | solid twin _ ih =>
      rw [flatMap_cons, flatMap_cons, isParentMark_twin twin]
      split
      · exact around.append ih
      · exact .solid twin ih
    | @gap run gap tokens others covers _ ih =>
      have kept : run.flatMap (fun token => if isParentMark token then outer else [token]) = run := by
        have each : ∀ token ∈ run, (if isParentMark token then outer else [token]) = [token] := fun token member => by
          rw [isParentMark_of_gap (covers.each token member)]
          rfl
        rw [flatMap_congr each]
        exact flatMap_singleton' run
      rw [flatMap_append, kept, flatMap_cons, isParentMark_of_gap covers.whole]
      exact .gap covers ih
  rw [nestBranch, nestBranch, respaced_any_parentMark respaced]
  split
  · exact replaced
  · exact around.append respaced.cons_space

theorem respaced_nest {outer outer' : Tokens} (around : Tokens.Respaced strict outer outer')
    (respaced : Tokens.Respaced strict tokens others) :
    Tokens.Respaced strict (nest outer tokens) (nest outer' others) := by
  rw [nest, nest, isEmpty_of_forall₂ around.branches]
  split
  · exact .joinBranches respaced.branches
  · refine .joinBranches (rel_flatMap around.branches fun branch branch' same => ?_)
    exact rel_map (fun _ _ same' => respaced_nestBranch same same') respaced.branches

end Selector

end LessCss
