import Mathlib.Data.List.Forall2
import LessCss.Proofs.Token.Branches
import LessCss.Proofs.Token.Reads

/-! Tokens that differ only in their places and in how the blanks between them are
cut into tokens. Main statement: trimming, cutting at separators, taking groups
and joining turn such tokens into such tokens.

In the strict reading each blank token is one blank token on the other side too;
in the loose one it may stand for several of them with the same text. -/

set_option autoImplicit false

namespace LessCss

open List

theorem rel_map_option {α α' β β' : Type} {R : α → α' → Prop} {S : β → β' → Prop} {f : α → β} {g : α' → β'}
    {first : Option α} {second : Option α'} (rel : Option.Rel R first second)
    (step : ∀ a b, R a b → S (f a) (g b)) : Option.Rel S (first.map f) (second.map g) := by
  cases rel with
  | none => exact .none
  | some same => exact .some (step _ _ same)

theorem isSome_of_rel {α β : Type} {R : α → β → Prop} {first : Option α} {second : Option β}
    (rel : Option.Rel R first second) : second.isSome = first.isSome := by
  cases rel <;> rfl

theorem isEmpty_of_forall₂ {α β : Type} {R : α → β → Prop} {first : List α} {second : List β}
    (all : List.Forall₂ R first second) : second.isEmpty = first.isEmpty := by
  cases all <;> rfl

structure Token.Gap (token : Token) : Prop where
  kind : token.kind = .whitespace
  blank : ∀ c ∈ token.text.toList, Text.isBlank c = true

theorem Token.gap_space : Token.space.Gap :=
  ⟨rfl, all_eq_true.mp (show " ".toList.all Text.isBlank = true by decide +kernel)⟩

theorem Token.Gap.isBlank {token : Token} (gap : token.Gap) : token.isBlank = true := by
  rw [Token.isBlank, gap.kind]
  rfl

theorem Token.Gap.text_ne {token : Token} (gap : token.Gap) {word : String}
    (solid : word.toList.all Text.isBlank = false) : token.text ≠ word := by
  rintro rfl
  rw [all_eq_true.mpr gap.blank] at solid
  cases solid

theorem Token.Gap.isMark {token : Token} (gap : token.Gap) (text : String) : token.isMark text = false := by
  rw [Token.isMark, gap.kind]
  rfl

structure Token.Twin (first second : Token) : Prop where
  kind : second.kind = first.kind
  text : second.text = first.text
  solid : first.isBlank = false

theorem Token.Twin.solid' {first second : Token} (twin : first.Twin second) : second.isBlank = false := by
  rw [Token.isBlank, twin.kind]
  exact twin.solid

theorem Token.Twin.isMark {first second : Token} (twin : first.Twin second) (text : String) :
    second.isMark text = first.isMark text := by
  rw [Token.isMark, Token.isMark, twin.kind, twin.text]

namespace Tokens

/-- Blanks that are cut into several tokens on the one side, and into one on the other. -/
structure Covers (strict : Bool) (run : Tokens) (gap : Token) : Prop where
  ne_nil : run ≠ []
  each : ∀ token ∈ run, token.Gap
  whole : gap.Gap
  text : gap.text = Tokens.text run
  single : strict = true → run.length = 1

theorem Covers.blank {strict : Bool} {run : Tokens} {gap : Token} (covers : Covers strict run gap) : Blank run :=
  fun token member => (covers.each token member).isBlank

/-- The same tokens, at other places and with the blanks cut in another way. -/
inductive Respaced (strict : Bool) : Tokens → Tokens → Prop where
  | nil : Respaced strict [] []
  | solid {first second : Token} {tokens others : Tokens} (twin : first.Twin second)
      (rest : Respaced strict tokens others) : Respaced strict (first :: tokens) (second :: others)
  | gap {run : Tokens} {gap : Token} {tokens others : Tokens} (covers : Covers strict run gap)
      (rest : Respaced strict tokens others) : Respaced strict (run ++ tokens) (gap :: others)

variable {strict : Bool} {tokens others : Tokens}

namespace Respaced

/-! ### Building -/

theorem append {tokens' others' : Tokens} (first : Respaced strict tokens others)
    (second : Respaced strict tokens' others') : Respaced strict (tokens ++ tokens') (others ++ others') := by
  induction first with
  | nil => exact second
  | solid twin _ ih => exact .solid twin ih
  | gap covers _ ih =>
    rw [List.append_assoc]
    exact .gap covers ih

theorem cons_gap {gap gap' : Token} (first : gap.Gap) (second : gap'.Gap) (same : gap'.text = gap.text)
    (rest : Respaced strict tokens others) : Respaced strict (gap :: tokens) (gap' :: others) := by
  have covers : Covers strict [gap] gap' :=
    ⟨cons_ne_nil _ _, forall_mem_singleton.mpr first, second, by simpa using same, fun _ => rfl⟩
  exact .gap covers rest

theorem cons_space (rest : Respaced strict tokens others) :
    Respaced strict (Token.space :: tokens) (Token.space :: others) :=
  rest.cons_gap Token.gap_space Token.gap_space rfl

theorem singleton {first second : Token} (twin : first.Twin second) : Respaced strict [first] [second] :=
  .solid twin .nil

/-! ### What both sides have in common -/

section

variable (respaced : Respaced strict tokens others)

include respaced

theorem text : Tokens.text others = Tokens.text tokens := by
  induction respaced with
  | nil => rfl
  | solid twin _ ih => rw [text_cons, text_cons, twin.text, ih]
  | gap covers _ ih => rw [text_cons, text_append, covers.text, ih]

theorem normalized : others.normalized = tokens.normalized := by
  rw [Tokens.normalized, Tokens.normalized, respaced.text]

theorem nil_iff : tokens = [] ↔ others = [] := by
  cases respaced with
  | nil => exact Iff.rfl
  | solid => simp
  | gap covers => simp [covers.ne_nil]

theorem isEmpty : others.isEmpty = tokens.isEmpty := by
  rw [Bool.eq_iff_iff, List.isEmpty_iff, List.isEmpty_iff, respaced.nil_iff]

/-- A list of tokens begins on both sides with the same token, or with the same blanks, or not at all. -/
theorem cases_run :
    (tokens = [] ∧ others = []) ∨
    (∃ first second rest rest', tokens = first :: rest ∧ others = second :: rest' ∧ first.Twin second ∧
      Respaced strict rest rest') ∨
    ∃ run gap rest rest', tokens = run ++ rest ∧ others = gap :: rest' ∧ Covers strict run gap ∧
      Respaced strict rest rest' := by
  cases respaced with
  | nil => exact .inl ⟨rfl, rfl⟩
  | solid twin rest => exact .inr (.inl ⟨_, _, _, _, rfl, rfl, twin, rest⟩)
  | gap covers rest => exact .inr (.inr ⟨_, _, _, _, rfl, rfl, covers, rest⟩)

/-- The first tokens are the same one on both sides, or gaps. -/
theorem cases_head :
    (tokens = [] ∧ others = []) ∨
    (∃ first second rest rest', tokens = first :: rest ∧ others = second :: rest' ∧ first.Twin second ∧
      Respaced strict rest rest') ∨
    ∃ first second rest rest', tokens = first :: rest ∧ others = second :: rest' ∧ first.Gap ∧ second.Gap := by
  rcases respaced.cases_run with nil | solid | ⟨run, gap, rest, rest', same, same', covers, _⟩
  · exact .inl nil
  · exact .inr (.inl solid)
  · obtain ⟨first, more, rfl⟩ := exists_cons_of_ne_nil covers.ne_nil
    exact .inr (.inr ⟨first, gap, more ++ rest, rest', same, same', covers.each first mem_cons_self,
      covers.whole⟩)

theorem headKind? : others.headKind? = tokens.headKind? := by
  rcases respaced.cases_head with ⟨rfl, rfl⟩ | ⟨_, _, _, _, rfl, rfl, twin, _⟩ | ⟨_, _, _, _, rfl, rfl, gap, gap'⟩
  · rfl
  · exact congrArg some twin.kind
  · exact congrArg some (gap'.kind.trans gap.kind.symm)

theorem headIs (kind : Kind) : others.headIs kind = tokens.headIs kind := by
  rw [Tokens.headIs, Tokens.headIs, respaced.headKind?]

theorem head_isBlank : others.head?.any Token.isBlank = tokens.head?.any Token.isBlank := by
  rcases respaced.cases_head with ⟨rfl, rfl⟩ | ⟨_, _, _, _, rfl, rfl, twin, _⟩ | ⟨_, _, _, _, rfl, rfl, gap, gap'⟩
  · rfl
  · exact twin.solid'.trans twin.solid.symm
  · exact gap'.isBlank.trans gap.isBlank.symm

theorem headText? {word : String}
    (solid : word.toList.all Text.isBlank = false) : (others.headText? == some word) = (tokens.headText? == some word) := by
  rcases respaced.cases_head with ⟨rfl, rfl⟩ | ⟨_, _, _, _, rfl, rfl, twin, _⟩ | ⟨_, _, _, _, rfl, rfl, gap, gap'⟩
  · rfl
  · rw [Tokens.headText?, Tokens.headText?, List.head?_cons, List.head?_cons, Option.map_some, Option.map_some,
      twin.text]
  · have first := gap.text_ne solid
    have second := gap'.text_ne solid
    simp [Tokens.headText?, first, second]

/-- A list of tokens ends on both sides with the same token, or with blanks, or is empty. -/
theorem cases_last :
    (tokens = [] ∧ others = []) ∨
    (∃ front front' last last', tokens = front ++ [last] ∧ others = front' ++ [last'] ∧ last.Twin last' ∧
      Respaced strict front front') ∨
    ∃ front front' last last', tokens = front ++ [last] ∧ others = front' ++ [last'] ∧ last.Gap ∧ last'.Gap := by
  induction respaced with
  | nil => exact .inl ⟨rfl, rfl⟩
  | @solid first second tokens others twin rest ih =>
    rcases ih with ⟨rfl, rfl⟩ | ⟨front, front', last, last', rfl, rfl, twin', same⟩ |
      ⟨front, front', last, last', rfl, rfl, gap, gap'⟩
    · exact .inr (.inl ⟨[], [], first, second, rfl, rfl, twin, .nil⟩)
    · exact .inr (.inl ⟨first :: front, second :: front', last, last', rfl, rfl, twin', .solid twin same⟩)
    · exact .inr (.inr ⟨first :: front, second :: front', last, last', rfl, rfl, gap, gap'⟩)
  | @gap run gap tokens others covers rest ih =>
    rcases ih with ⟨rfl, rfl⟩ | ⟨front, front', last, last', rfl, rfl, twin', same⟩ |
      ⟨front, front', last, last', rfl, rfl, gap₂, gap₂'⟩
    · refine .inr (.inr ⟨run.dropLast, [], run.getLast covers.ne_nil, gap, ?_, rfl, ?_, covers.whole⟩)
      · rw [append_nil, dropLast_append_getLast]
      · exact covers.each _ (getLast_mem _)
    · refine .inr (.inl ⟨run ++ front, gap :: front', last, last', ?_, rfl, twin', .gap covers same⟩)
      rw [List.append_assoc]
    · refine .inr (.inr ⟨run ++ front, gap :: front', last, last', ?_, rfl, gap₂, gap₂'⟩)
      rw [List.append_assoc]

theorem loosen : Respaced false tokens others := by
  induction respaced with
  | nil => exact .nil
  | solid twin _ ih => exact .solid twin ih
  | gap covers _ ih => exact .gap ⟨covers.ne_nil, covers.each, covers.whole, covers.text, nofun⟩ ih

theorem any_solid : others.any (fun token => !token.isBlank) = tokens.any (fun token => !token.isBlank) := by
  induction respaced with
  | nil => rfl
  | solid twin _ ih => rw [any_cons, any_cons, twin.solid, twin.solid', ih]
  | @gap run _ _ _ covers _ ih =>
    have none_ : run.any (fun token : Token => !token.isBlank) = false :=
      any_eq_false.mpr fun token member => by simp [covers.blank token member]
    rw [any_cons, any_append, none_, covers.whole.isBlank, ih]
    rfl

theorem any_whitespace : others.any (·.kind == .whitespace) = tokens.any (·.kind == .whitespace) := by
  induction respaced with
  | nil => rfl
  | solid twin _ ih => rw [any_cons, any_cons, twin.kind, ih]
  | gap covers _ ih =>
    obtain ⟨first, more, rfl⟩ := exists_cons_of_ne_nil covers.ne_nil
    rw [any_cons, cons_append, any_cons, covers.whole.kind,
      (covers.each first mem_cons_self).kind]
    rfl

/-! ### Trimming -/

theorem trimLeft : Respaced strict (Tokens.trimLeft tokens) (Tokens.trimLeft others) := by
  induction respaced with
  | nil => exact .nil
  | solid twin rest =>
    rw [Tokens.trimLeft, Tokens.trimLeft, dropWhile_cons_of_neg (by simp [twin.solid]),
      dropWhile_cons_of_neg (by simp [twin.solid'])]
    exact .solid twin rest
  | gap covers _ ih =>
    rw [Tokens.trimLeft, Tokens.trimLeft, dropWhile_append_of_pos covers.blank,
      dropWhile_cons_of_pos covers.whole.isBlank]
    exact ih

end

theorem solid_of_trimLeft {token : Token} (start : (Tokens.trimLeft tokens).head? = some token) :
    token.isBlank = false :=
  trimLeft_eq_self_iff.mp (trimLeft_trimLeft tokens) token start

/-- Behind the blanks there is the same token on both sides, or nothing. -/
theorem trimLeft_cases (respaced : Respaced strict tokens others) :
    (Tokens.trimLeft tokens = [] ∧ Tokens.trimLeft others = []) ∨
    ∃ first second rest rest', Tokens.trimLeft tokens = first :: rest ∧ Tokens.trimLeft others = second :: rest' ∧
      first.Twin second ∧ Respaced strict rest rest' := by
  rcases respaced.trimLeft.cases_head with same | same | ⟨first, _, _, _, start, _, gap, _⟩
  · exact .inl same
  · exact .inr same
  · have solid := solid_of_trimLeft ((congrArg List.head? start).trans rfl)
    rw [gap.isBlank] at solid
    cases solid

theorem tail_trimLeft (respaced : Respaced strict tokens others) :
    Respaced strict (Tokens.trimLeft tokens).tail (Tokens.trimLeft others).tail := by
  rcases respaced.trimLeft_cases with ⟨start, start'⟩ | ⟨_, _, _, _, start, start', _, same⟩
  · rw [start, start']
    exact .nil
  · rw [start, start']
    exact same

end Respaced

theorem trimRight_cons (token : Token) (tokens : Tokens) : trimRight (token :: tokens) =
    if token.isBlank && (trimRight tokens).isEmpty then [] else token :: trimRight tokens := by
  unfold trimRight
  rw [reverse_cons, dropWhile_append, isEmpty_reverse]
  cases empty : (List.dropWhile Token.isBlank tokens.reverse).isEmpty with
  | false => simp
  | true => cases blank : token.isBlank <;> simp [blank, List.isEmpty_iff.mp empty]

theorem trimRight_blanks {run : Tokens} (blank : Blank run) (tokens : Tokens) : trimRight (run ++ tokens) =
    if (trimRight tokens).isEmpty then [] else run ++ trimRight tokens := by
  induction run with
  | nil =>
    rw [nil_append, nil_append]
    split
    · exact List.isEmpty_iff.mp (by assumption)
    · rfl
  | cons token run ih =>
    obtain ⟨first, others⟩ := forall_mem_cons.mp blank
    rw [cons_append, trimRight_cons, first, ih others, Bool.true_and]
    cases empty : (trimRight tokens).isEmpty with
    | true => rfl
    | false =>
      have some_ : (run ++ trimRight tokens).isEmpty = false := by
        cases run with
        | nil => exact empty
        | cons _ _ => rfl
      rw [if_neg Bool.false_ne_true, if_neg Bool.false_ne_true, some_]
      rfl

namespace Respaced

theorem trimRight (respaced : Respaced strict tokens others) :
    Respaced strict (Tokens.trimRight tokens) (Tokens.trimRight others) := by
  induction respaced with
  | nil => exact .nil
  | solid twin _ ih =>
    rw [trimRight_cons, trimRight_cons, twin.solid, twin.solid']
    exact .solid twin ih
  | gap covers _ ih =>
    rw [trimRight_blanks covers.blank, trimRight_cons, covers.whole.isBlank, Bool.true_and, ih.isEmpty]
    split
    · exact .nil
    · exact .gap covers ih

theorem trim (respaced : Respaced strict tokens others) :
    Respaced strict (Tokens.trim tokens) (Tokens.trim others) :=
  respaced.trimLeft.trimRight

end Respaced

/-! ### Cutting at separators -/

abbrev RespacedParts (strict : Bool) : List Tokens → List Tokens → Prop := List.Forall₂ (Respaced strict)

theorem uncut_of_blank {separator : String} {depth : Nat} {run : Tokens} (blank : Blank run) :
    Uncut separator depth run := by
  induction run generalizing depth with
  | nil => trivial
  | cons token run ih =>
    obtain ⟨first, others⟩ := forall_mem_cons.mp blank
    refine ⟨?_, ih others⟩
    have kind : token.kind ≠ .other ∧ token.kind ≠ .delimiter := by
      constructor
      all_goals
        intro same
        rw [Token.isBlank, same] at first
        cases first
    simp [separates, kind]

theorem stretches_blanks (separator : String) (depth : Nat) {run : Tokens} (blank : Blank run) (tokens : Tokens) :
    ∃ part parts, stretches separator depth tokens = part :: parts ∧
      stretches separator depth (run ++ tokens) = (run ++ part) :: parts := by
  obtain ⟨part, parts, same⟩ := exists_cons_of_ne_nil (stretches_ne_nil separator depth tokens)
  refine ⟨part, parts, same, stretches_append (uncut_of_blank blank) ?_⟩
  rw [depthAfter_of_blank blank, same]

theorem separates_twin {first second : Token} (twin : first.Twin second) (separator : String) :
    separates separator second = separates separator first := by
  rw [separates, separates, twin.kind, twin.text]

namespace Respaced

theorem consHead {first second : Token} (twin : first.Twin second) {parts parts' : List Tokens}
    (respaced : RespacedParts strict parts parts') :
    RespacedParts strict (Tokens.consHead first parts) (Tokens.consHead second parts') := by
  cases respaced with
  | nil => exact .cons (.singleton twin) .nil
  | cons part rest => exact .cons (.solid twin part) rest

theorem stretches (separator : String) (depth : Nat) (respaced : Respaced strict tokens others) :
    RespacedParts strict (Tokens.stretches separator depth tokens) (Tokens.stretches separator depth others) := by
  induction respaced generalizing depth with
  | nil => exact .cons .nil .nil
  | solid twin _ ih =>
    rw [Tokens.stretches, Tokens.stretches, separates_twin twin, twin.kind]
    split
    · exact .cons .nil (ih 0)
    · exact consHead twin (ih _)
  | @gap run gap tokens others covers _ ih =>
    obtain ⟨part, parts, same, same'⟩ := stretches_blanks separator depth covers.blank tokens
    obtain ⟨part₂, parts₂, same₂, same₂'⟩ := stretches_blanks separator depth
      (forall_mem_singleton.mpr covers.whole.isBlank : Blank [gap]) others
    have both := ih depth
    rw [same, same₂] at both
    rw [same', show gap :: others = [gap] ++ others from rfl, same₂']
    cases both with
    | cons first rest => exact .cons (.gap covers first) rest

theorem parts (separator : String) (respaced : Respaced strict tokens others) :
    RespacedParts strict (tokens.parts separator) (others.parts separator) := by
  refine rel_filter (fun part part' same => ?_) (rel_map (fun _ _ same => same.trim)
    (respaced.stretches separator 0))
  show (!part.isEmpty) = true ↔ (!part'.isEmpty) = true
  rw [same.isEmpty]

theorem branches (respaced : Respaced strict tokens others) :
    RespacedParts strict tokens.branches others.branches :=
  respaced.parts ","

end Respaced

/-! ### Groups -/

theorem unbracketed_of_blank {token : Token} (blank : token.isBlank = true) :
    token.kind.opens = false ∧ token.kind.closes = false ∧ token.kind ≠ .parenOpen ∧ token.kind ≠ .parenClose := by
  unfold Token.isBlank Kind.isBlank at blank
  unfold Kind.opens Kind.closes
  cases kind : token.kind <;> simp_all

theorem hasTopLevel_gaps (word : String) (depth : Nat) {run : Tokens}
    (each : ∀ token ∈ run, token.isBlank = true ∧ token.text ≠ word) (tokens : Tokens) :
    hasTopLevel.go word depth (run ++ tokens) = hasTopLevel.go word depth tokens := by
  induction run with
  | nil => rfl
  | cons token run ih =>
    obtain ⟨⟨blank, other⟩, more⟩ := forall_mem_cons.mp each
    obtain ⟨opens, closes, _, _⟩ := unbracketed_of_blank blank
    have level : token.kind.depthAfter depth = depth := by simp [Kind.depthAfter, opens, closes]
    rw [cons_append, hasTopLevel.go, level, ih more, beq_eq_false_iff_ne.mpr other, Bool.and_false,
      Bool.false_or]

theorem takeGroup?_blanks (depth : Nat) {run : Tokens} (blank : Blank run) (tokens : Tokens) :
    takeGroup? depth (run ++ tokens) = (takeGroup? depth tokens).map fun group => (run ++ group.1, group.2) := by
  induction run with
  | nil => cases found : takeGroup? depth tokens <;> simp [found]
  | cons token run ih =>
    obtain ⟨first, more⟩ := forall_mem_cons.mp blank
    obtain ⟨_, _, opens, closes⟩ := unbracketed_of_blank first
    rw [cons_append, takeGroup?, if_neg closes, if_neg opens, ih more, Option.map_map]
    rfl

def RespacedGroup (strict : Bool) (group group' : Tokens × Tokens) : Prop :=
  Respaced strict group.1 group'.1 ∧ Respaced strict group.2 group'.2

namespace Respaced

theorem hasTopLevel {word : String} (solid : word.toList.all Text.isBlank = false)
    (respaced : Respaced strict tokens others) : others.hasTopLevel word = tokens.hasTopLevel word := by
  have all : ∀ depth, hasTopLevel.go word depth others = hasTopLevel.go word depth tokens := by
    induction respaced with
    | nil => exact fun _ => rfl
    | solid twin _ ih =>
      intro depth
      rw [hasTopLevel.go, hasTopLevel.go, twin.kind, twin.text, ih]
    | @gap run gap tokens others covers _ ih =>
      intro depth
      have first := hasTopLevel_gaps word depth
        (fun token inside => ⟨covers.blank token inside, (covers.each token inside).text_ne solid⟩) tokens
      have only : ∀ token ∈ [gap], token.isBlank = true ∧ token.text ≠ word :=
        forall_mem_singleton.mpr ⟨covers.whole.isBlank, covers.whole.text_ne solid⟩
      rw [first, ← ih]
      exact hasTopLevel_gaps word depth only others
  exact all 0

theorem groupSeparator (respaced : Respaced strict tokens others) :
    others.groupSeparator = tokens.groupSeparator := by
  have same : others.hasTopLevel ";" = tokens.hasTopLevel ";" :=
    respaced.hasTopLevel (by decide +kernel)
  rw [Tokens.groupSeparator, Tokens.groupSeparator, same]

theorem takeGroup? (depth : Nat) (respaced : Respaced strict tokens others) :
    Option.Rel (RespacedGroup strict) (Tokens.takeGroup? depth tokens) (Tokens.takeGroup? depth others) := by
  induction respaced generalizing depth with
  | nil => exact .none
  | solid twin rest ih =>
    rw [Tokens.takeGroup?, Tokens.takeGroup?, twin.kind]
    split
    · split
      · exact .some ⟨.nil, rest⟩
      · exact rel_map_option (ih _) fun _ _ same => ⟨.solid twin same.1, same.2⟩
    · exact rel_map_option (ih _) fun _ _ same => ⟨.solid twin same.1, same.2⟩
  | @gap run gap tokens others covers rest ih =>
    rw [takeGroup?_blanks depth covers.blank, show gap :: others = [gap] ++ others from rfl,
      takeGroup?_blanks depth (forall_mem_singleton.mpr covers.whole.isBlank : Blank [gap])]
    exact rel_map_option (ih depth) fun group group' same => ⟨.gap covers same.1, same.2⟩

theorem takeGroup (respaced : Respaced strict tokens others) :
    RespacedGroup strict (Tokens.takeGroup tokens) (Tokens.takeGroup others) := by
  have read := respaced.takeGroup? 0
  unfold Tokens.takeGroup
  generalize Tokens.takeGroup? 0 tokens = first at read ⊢
  generalize Tokens.takeGroup? 0 others = second at read ⊢
  cases read with
  | none => exact ⟨respaced, .nil⟩
  | some same => exact same

/-! ### Joining -/

theorem intercalate {separator separator' : Tokens} (between : Respaced strict separator separator')
    {parts parts' : List Tokens} (respaced : RespacedParts strict parts parts') :
    Respaced strict (separator.intercalate parts) (separator'.intercalate parts') := by
  induction respaced with
  | nil => exact .nil
  | cons first rest ih =>
    cases rest with
    | nil =>
      rw [intercalate_singleton, intercalate_singleton]
      exact first
    | cons second more =>
      rw [intercalate_cons_cons, intercalate_cons_cons]
      exact (first.append between).append ih

theorem joinBranches {parts parts' : List Tokens} (respaced : RespacedParts strict parts parts') :
    Respaced strict (Tokens.joinBranches parts) (Tokens.joinBranches parts') :=
  intercalate (.solid ⟨rfl, rfl, rfl⟩ (cons_space .nil)) respaced

theorem joinSpaced {parts parts' : List Tokens} (respaced : RespacedParts strict parts parts') :
    Respaced strict (Tokens.joinSpaced parts) (Tokens.joinSpaced parts') :=
  intercalate (cons_space .nil) respaced

end Respaced

end Tokens

end LessCss
