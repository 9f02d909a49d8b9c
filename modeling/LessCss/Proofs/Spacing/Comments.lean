import LessCss.Compile
import LessCss.Proofs.Spacing.Evaluation
import LessCss.Proofs.Spacing.Scans

/-! Comments stand for spaces. Main statement: a space in the place of a comment leaves what
a text compiles to, if it does not join a sign with a number, and if directives that extend
selectors do not see how blanks in a selector are cut. -/

set_option autoImplicit false

namespace LessCss

open List Tokens Token Draft Phase

open Draft (asRead)

/-! ### Comments as spaces -/

@[simp] theorem Draft.asRead_asRead (token : Token) : asRead (asRead token) = asRead token := by
  by_cases comment : token.kind = .comment
  · have space : asRead token = .derived .whitespace " " token := if_pos comment
    rw [space]
    rfl
  · have same : asRead token = token := if_neg comment
    rw [same, same]

@[simp] theorem Draft.isBlank_asRead (token : Token) : (asRead token).isBlank = token.isBlank := by
  by_cases comment : token.kind = .comment
  · rw [asRead, if_pos comment, isBlank, isBlank, comment]
    rfl
  · rw [asRead, if_neg comment]

theorem Draft.asRead_of_solid {token : Token} (solid : token.isBlank = false) : asRead token = token := by
  refine if_neg fun comment => ?_
  rw [isBlank, comment] at solid
  cases solid

theorem Draft.asRead_comment {token : Token} (comment : token.kind = .comment) : (asRead token).Gap := by
  rw [asRead, if_pos comment]
  exact ⟨rfl, gap_space.blank⟩

theorem Draft.run_asRead (ending : Except Error Position) (draft : Draft) (phase : Phase) (tokens : Tokens) :
    draft.run ending phase (tokens.map asRead) = draft.run ending phase tokens := by
  have within (draft : Draft) (advance : Except Error Unit) (first : Token) (seen : Tokens) (depth : Nat) (token : Token) :
      draft.stepWithin advance first seen depth (asRead token) = draft.stepWithin advance first seen depth token := by
    by_cases comment : token.kind = .comment
    · rw [stepWithin, stepWithin, asRead_asRead, comment, (asRead_comment comment).kind]
      rfl
    · rw [asRead, if_neg comment]
  have step_eq (draft : Draft) (phase : Phase) (advance : Except Error Unit) (token : Token) :
      draft.step phase advance (asRead token) = draft.step phase advance token := by
    cases phase with
    | within first seen depth => exact within draft advance first seen depth token
    | between =>
      cases blank : token.isBlank with
      | false => rw [asRead_of_solid blank]
      | true => rw [step, step, stepBetween, stepBetween, isBlank_asRead, blank, if_pos rfl, if_pos rfl]
  induction tokens generalizing draft phase with
  | nil => rfl
  | cons token rest ih =>
    rw [map_cons, run, run, isEmpty_map, step_eq]
    simp only [ih]

/-! ### Places -/

theorem Phase.placeAfter_asRead (place : Option (Token × Nat)) (token : Token) :
    placeAfter place (asRead token) = placeAfter place token := by
  by_cases comment : token.kind = .comment
  · cases place with
    | none =>
      rw [placeAfter, placeAfter, isBlank_asRead, isBlank, comment]
      rfl
    | some here =>
      obtain ⟨first, depth⟩ := here
      rw [placeAfter, placeAfter, placeWithin, placeWithin, comment, (asRead_comment comment).kind]
      rfl
  · rw [asRead, if_neg comment]

theorem Phase.placeAfter_gap (place : Option (Token × Nat)) {token : Token} (gap : token.Gap) :
    placeAfter place token = place := by
  cases place with
  | none => exact if_pos (by rw [gap.isBlank, Bool.true_or])
  | some here =>
    obtain ⟨first, depth⟩ := here
    rw [placeAfter, placeWithin, gap.kind]
    rfl

theorem Token.solid_of_kind {token : Token} (comment : token.kind ≠ .comment) (space : token.isSpace = false) :
    token.isBlank = false := by
  rw [isSpace, beq_eq_false_iff_ne] at space
  rw [isBlank, Kind.isBlank]
  simp [comment, space]

namespace Tokens

variable {tokens others : Tokens}

theorem place_asRead (place : Option (Token × Nat)) (tokens : Tokens) :
    (tokens.map asRead).foldl placeAfter place = tokens.foldl placeAfter place := by
  induction tokens generalizing place with
  | nil => rfl
  | cons token rest ih => rw [map_cons, foldl_cons, foldl_cons, placeAfter_asRead, ih]

theorem place_gaps (place : Option (Token × Nat)) (gaps : ∀ token ∈ tokens, token.Gap) :
    tokens.foldl placeAfter place = place := by
  induction tokens with
  | nil => rfl
  | cons token rest ih =>
    obtain ⟨first, others⟩ := forall_mem_cons.mp gaps
    rw [foldl_cons, placeAfter_gap place first, ih others]

theorem opensBlock_asRead (depth : Nat) (tokens : Tokens) :
    opensBlock depth (tokens.map asRead) = opensBlock depth tokens := by
  induction tokens generalizing depth with
  | nil => rfl
  | cons token rest ih =>
    by_cases comment : token.kind = .comment
    · rw [map_cons, opensBlock, opensBlock, comment, (asRead_comment comment).kind, ih]
      rfl
    · rw [map_cons, asRead, if_neg comment, opensBlock, opensBlock, ih]

theorem inSelector_asRead (place : Option (Token × Nat)) (tokens : Tokens) :
    inSelector place (tokens.map asRead) = inSelector place tokens := by
  unfold inSelector
  simp only [opensBlock_asRead]

theorem inSelector_gaps (place : Option (Token × Nat)) {run : Tokens} (gaps : ∀ token ∈ run, token.Gap) (tokens : Tokens) :
    inSelector place (run ++ tokens) = inSelector place tokens := by
  unfold inSelector
  simp only [opensBlock_gaps _ gaps]

/-- Tokens with the same spelling are the same tokens, or the same blanks, once comments are read. -/
theorem like_asRead (gaps : ∀ token ∈ tokens, token.isSpace = true → token.Gap)
    (same : spelling others = spelling tokens) :
    List.Forall₂ Token.Like (tokens.map asRead) (others.map asRead) := by
  -- A comment is read as a blank on both sides; all else keeps its text.
  have one {token other : Token} (gap : token.isSpace = true → token.Gap) (alike : other.spelling = token.spelling) :
      (asRead token).Like (asRead other) := by
    have kind : other.kind = token.kind := congrArg Prod.fst alike
    have text : other.text = token.text := congrArg Prod.snd alike
    by_cases comment : token.kind = .comment
    · have comment' := kind.trans comment
      refine .inr ⟨asRead_comment comment, asRead_comment comment', ?_⟩
      rw [asRead, asRead, if_pos comment, if_pos comment']
      rfl
    · rw [asRead, asRead, if_neg comment, if_neg (by rwa [kind])]
      cases space : token.isSpace with
      | true =>
        have gap := gap space
        exact .inr ⟨gap, ⟨kind.trans gap.kind, by rw [text]; exact gap.blank⟩, text⟩
      | false => exact .inl ⟨kind, text, solid_of_kind comment space⟩
  induction tokens generalizing others with
  | nil =>
    cases map_eq_nil_iff.mp same
    exact .nil
  | cons token rest ih =>
    obtain ⟨first, more⟩ := forall_mem_cons.mp gaps
    obtain ⟨other, others, rfl, alike, same⟩ := map_eq_cons_iff.mp same
    exact .cons (one first alike) (ih more same)

def touchesSpace (before after : Tokens) : Bool :=
  before.getLast?.any isSpace || after.head?.any isSpace

theorem spaces_of_touchesSpace {before after : Tokens} (apart : touchesSpace before after = false) :
    before.rtakeWhile isSpace = [] ∧ after.takeWhile isSpace = [] := by
  obtain ⟨ahead, behind⟩ := Bool.or_eq_false_iff.mp apart
  constructor
  · rw [rtakeWhile_eq_nil_iff]
    intro some_
    rw [List.getLast?_eq_some_getLast some_] at ahead
    exact Bool.eq_false_iff.mp ahead
  · cases after with
    | nil => rfl
    | cons token rest => exact takeWhile_cons_of_neg (Bool.eq_false_iff.mp behind)

end Tokens

/-! ### Texts -/

section Replacing

variable {source rest : String} {before after : Tokens} {comment : Token}

/-- The space and the blanks beside it cover what they are cut into by the comment. -/
theorem covers_comment (kind : comment.kind = .comment) {left right : Tokens} (gaps : ∀ token ∈ left, token.Gap)
    (gaps' : ∀ token ∈ right, token.Gap) {gap : Token}
    (spelled : gap.spelling = (.whitespace, text left ++ " " ++ text right)) (strict : Bool)
    (tight : strict = true → left = [] ∧ right = []) : Tokens.Covers strict (left ++ asRead comment :: right) gap := by
  have white : gap.kind = .whitespace := congrArg Prod.fst spelled
  have text : gap.text = text left ++ " " ++ text right := congrArg Prod.snd spelled
  have shown : (asRead comment).text = " " := by
    rw [asRead, if_pos kind]
    rfl
  refine ⟨by simp, ?_, ⟨white, ?_⟩, ?_, ?_⟩
  · exact forall_mem_append.mpr ⟨gaps, forall_mem_cons.mpr ⟨asRead_comment kind, gaps'⟩⟩
  · rw [text, String.append_assoc, String.toList_append, String.toList_append]
    refine forall_mem_append.mpr ⟨blank_text gaps, forall_mem_append.mpr ⟨?_, blank_text gaps'⟩⟩
    exact gap_space.blank
  · rw [text, text_append, text_cons, shown, String.append_assoc]
  · intro strict
    obtain ⟨rfl, rfl⟩ := tight strict
    rfl

theorem map_asRead_of_gaps {run : Tokens} (gaps : ∀ token ∈ run, token.Gap) : run.map asRead = run := by
  refine (map_congr_left fun token member => ?_).trans (map_id run)
  exact if_neg (by simp [(gaps token member).kind])

/-- A sheet is read from the tokens around a comment, and from these tokens with one gap for the
comment and the blanks beside it. -/
theorem respaced_run_comment {strict : Bool} {ending ending' : Except Error Position}
    (ends : Agree (fun _ _ => True) ending ending') (kind : comment.kind = .comment)
    {front left right back front' back' : Tokens} {gap : Token} (gaps : ∀ token ∈ left, token.Gap)
    (gaps' : ∀ token ∈ right, token.Gap) (like : List.Forall₂ Token.Like (front.map asRead) (front'.map asRead))
    (spelled : gap.spelling = (.whitespace, text left ++ " " ++ text right))
    (like' : List.Forall₂ Token.Like (back.map asRead) (back'.map asRead))
    (plain : strict = false → ∀ token ∈ front ++ back, token.text ≠ "extend")
    (allowed : strict = true → (left = [] ∧ right = []) ∨
      inSelector ((front ++ left).foldl placeAfter none) (right ++ back) = false) :
    Logged.Agree (Sheet.Respaced strict) (empty.run ending .between (front ++ left ++ comment :: (right ++ back)))
      (empty.run ending' .between (front' ++ gap :: back')) := by
  have covers := covers_comment kind gaps gaps' spelled
  have loose := covers false nofun
  have read : (front ++ left ++ comment :: (right ++ back)).map asRead =
      front.map asRead ++ ((left ++ asRead comment :: right) ++ back.map asRead) := by
    rw [map_append, map_append, map_cons, map_append, map_asRead_of_gaps gaps, map_asRead_of_gaps gaps']
    simp
  have read' : (front' ++ gap :: back').map asRead = front'.map asRead ++ gap :: back'.map asRead := by
    have kept : asRead gap = gap := if_neg (by simp [loose.whole.kind])
    rw [map_append, map_cons, kept]
  have start : Draft.Respaced strict empty empty := ⟨⟨.nil, .nil, .empty⟩, rfl⟩
  rw [← run_asRead, read, ← run_asRead ending', read']
  -- The comment and the blanks beside it are the one place where the two texts differ.
  refine start.run_around ends like loose like' .between ?_ ?_
  · cases strict with
    | false => exact .inl loose
    | true =>
      refine (allowed rfl).imp (fun alone => covers true fun _ => alone) fun outside => ?_
      rwa [foldl_append, place_gaps _ gaps, inSelector_gaps _ gaps', ← place_asRead,
        ← inSelector_asRead] at outside
  · intro loosely token member
    rw [← read] at member
    obtain ⟨token, here, rfl⟩ := mem_map.mp member
    by_cases isComment : token.kind = .comment
    · exact (asRead_comment isComment).text_ne (by decide +kernel)
    · rw [asRead, if_neg isComment]
      simp only [mem_append, mem_cons] at here
      rcases here with (ahead | blank) | rfl | blank | behind
      · exact plain loosely token (mem_append_left _ ahead)
      · exact (gaps token blank).text_ne (by decide +kernel)
      · exact absurd kind isComment
      · exact (gaps' token blank).text_ne (by decide +kernel)
      · exact plain loosely token (mem_append_right _ behind)

theorem respaced_read_comment
    (scanned : (Scan.ofText source (before.text ++ comment.text ++ rest)).tokens = before ++ comment :: after)
    (kind : comment.kind = .comment) (unsigned : after.startsSigned = false) {strict : Bool}
    (plain : strict = false → ∀ token ∈ before ++ after, token.text ≠ "extend")
    (allowed : strict = true → touchesSpace before after = false ∨
      inSelector (before.foldl placeAfter none) after = false) :
    Logged.Agree (Sheet.Respaced strict) (Sheet.read source (before.text ++ comment.text ++ rest))
      (Sheet.read source (before.text ++ " " ++ rest)) := by
  obtain ⟨front, gap, back, tokens, same, spelled, following, ends⟩ := Scan.exists_replaced source scanned kind unsigned
  have gaps (token : Token) (member : token ∈ before ++ comment :: after) (space : token.isSpace = true) : token.Gap :=
    Scan.gap_of_mem (.start source) (scanned ▸ member) space
  have cut : before.rdropWhile isSpace ++ before.rtakeWhile isSpace = before :=
    rdropWhile_append_rtakeWhile ..
  have cut' : after.takeWhile isSpace ++ after.dropWhile isSpace = after := takeWhile_append_dropWhile
  have inside {token : Token} (member : token ∈ before.rdropWhile isSpace ∨ token ∈ before.rtakeWhile isSpace) :
      token ∈ before := cut ▸ mem_append.mpr member
  have inside' {token : Token} (member : token ∈ after.takeWhile isSpace ∨ token ∈ after.dropWhile isSpace) :
      token ∈ after := cut' ▸ mem_append.mpr member
  rw [Sheet.read, Sheet.read, Sheet.ofScan, Sheet.ofScan, scanned, tokens]
  generalize (Scan.ofText source (before.text ++ comment.text ++ rest)).ending = ending at ends ⊢
  generalize (Scan.ofText source (before.text ++ " " ++ rest)).ending = ending' at ends ⊢
  -- The blanks beside the comment go with it, as the scan joins them to the space.
  rw [← cut, ← cut']
  refine respaced_run_comment ends kind ?_ ?_ (like_asRead ?_ same) spelled (like_asRead ?_ following) ?_ ?_
  · intro token member
    exact gaps token (by simp [inside (.inr member)]) (mem_rtakeWhile_imp member)
  · intro token member
    exact gaps token (by simp [inside' (.inl member)]) (mem_takeWhile_imp member)
  · exact fun token member => gaps token (by simp [inside (.inl member)])
  · exact fun token member => gaps token (by simp [inside' (.inr member)])
  · intro loose token member
    refine plain loose token (mem_append.mpr ?_)
    exact (mem_append.mp member).imp (fun ahead => inside (.inl ahead)) fun behind => inside' (.inr behind)
  · intro tight
    rw [cut, cut']
    exact (allowed tight).imp spaces_of_touchesSpace id

end Replacing

theorem Css.Stylesheet.Respaced.print {strict : Bool} {nodes nodes' : Css.Stylesheet} (same : nodes.Respaced strict nodes')
    (minify : Bool) : Css.print minify nodes' = Css.print minify nodes := by
  unfold Css.print
  rw [same.pretty, same.minified]

theorem respaced_compileWith {strict : Bool} (library : Library) (options : Options) {text text' : String}
    (read : Logged.Agree (Sheet.Respaced strict) (Sheet.read (options.sourceName.getD defaultSourceName) text)
      (Sheet.read (options.sourceName.getD defaultSourceName) text')) :
    (compileWith library options text').outcome.1.toOption = (compileWith library options text).outcome.1.toOption := by
  have agree : Logged.Agree Eq (compileWith library options text) (compileWith library options text') :=
    read.bind fun sheet sheet' sheets => (sheets.evaluate library).bind fun nodes nodes' same =>
      Logged.agree_pure (same.print options.minify).symm
  have outcomes := agree.outcome
  generalize (compileWith library options text).outcome.1 = first at outcomes ⊢
  generalize (compileWith library options text').outcome.1 = second at outcomes ⊢
  cases outcomes with
  | ok same => exact congrArg some same.symm
  | error => rfl

/-- A text with a comment compiles to what it compiles to with a space in place of the comment, or
both are refused. A minus in front of a number must not come to stand behind the space, since it
is read as the sign of the number there. If there are blanks beside the comment and a directive
extends selectors, then the comment must not stand within a selector. -/
theorem comment_worth_space (options : Options) {before after : Tokens} {comment : Token} {rest : String}
    (scanned : (Scan.ofText (options.sourceName.getD defaultSourceName)
      (before.text ++ comment.text ++ rest)).tokens = before ++ comment :: after)
    (kind : comment.kind = .comment) (unsigned : after.startsSigned = false)
    (uncut : touchesSpace before after = true → (∀ token ∈ before ++ after, token.text ≠ "extend") ∨
      inSelector (before.foldl placeAfter none) after = false) :
    (compile options (before.text ++ " " ++ rest)).outcome.1.toOption =
      (compile options (before.text ++ comment.text ++ rest)).outcome.1.toOption := by
  by_cases plain : touchesSpace before after = true ∧ ∀ token ∈ before ++ after, token.text ≠ "extend"
  · have loose := @respaced_read_comment _ _ _ _ _ scanned kind unsigned false (fun _ => plain.2) nofun
    exact respaced_compileWith .builtin options loose
  · refine @respaced_compileWith true .builtin options _ _ (respaced_read_comment scanned kind unsigned nofun fun _ => ?_)
    cases touches : touchesSpace before after with
    | false => exact .inl rfl
    | true => exact .inr ((uncut touches).resolve_left fun none_ => plain ⟨touches, none_⟩)

def splitComment (text : String) : Tokens × Token × Tokens :=
  let (before, rest) := (Scan.ofText defaultSourceName text).tokens.span fun token => token.kind != .comment
  (before, rest.headD .space, rest.tail)

def lengthBehindComment : String :=
  ".a:extend(.b) \x7b width: 1px /* - */ -2px \x7d .b \x7b top: 0 \x7d"

theorem lengthBehindComment_unchanged : ∃ (before after : Tokens) (comment : Token),
    (Scan.ofText defaultSourceName lengthBehindComment).tokens = before ++ comment :: after ∧
    comment.kind = .comment ∧ after.startsSigned = false ∧ touchesSpace before after = true ∧
    inSelector (before.foldl placeAfter none) after = false ∧
    (compile ⟨false, none⟩ ".a:extend(.b) \x7b width: 1px   -2px \x7d .b \x7b top: 0 \x7d").outcome.1.toOption =
      (compile ⟨false, none⟩ lengthBehindComment).outcome.1.toOption := by
  have facts : ∃ parts, parts = splitComment lengthBehindComment ∧
      (Scan.ofText defaultSourceName lengthBehindComment).tokens = parts.1 ++ parts.2.1 :: parts.2.2 ∧
      parts.2.1.kind = .comment ∧ startsSigned parts.2.2 = false ∧ touchesSpace parts.1 parts.2.2 = true ∧
      inSelector (parts.1.foldl placeAfter none) parts.2.2 = false ∧
      text parts.1 = ".a:extend(.b) \x7b width: 1px " ∧ parts.2.1.text = "/* - */" :=
    ⟨_, rfl, by decide +kernel⟩
  obtain ⟨⟨before, comment, after⟩, _, scanned, kind, unsigned, touches, outside, ahead, shown⟩ := facts
  refine ⟨before, after, comment, scanned, kind, unsigned, touches, outside, ?_⟩
  have same := @comment_worth_space ⟨false, none⟩ before after comment " -2px \x7d .b \x7b top: 0 \x7d"
    (by rw [ahead, shown]; exact scanned) kind unsigned fun _ => .inr outside
  rw [ahead, shown] at same
  exact same

def minusBehindComment : String := ".a \x7b width: 1/**/-2 \x7d"

/-- A space in place of the comment makes two numbers of a difference. -/
theorem minusBehindComment_told_apart : ∃ (before after : Tokens) (comment : Token),
    (Scan.ofText defaultSourceName minusBehindComment).tokens = before ++ comment :: after ∧
    comment.kind = .comment ∧ minusBehindComment = before.text ++ comment.text ++ "-2 \x7d" ∧
    (compile ⟨false, none⟩ minusBehindComment).outcome.1.toOption = some ".a \x7b\n  width: -1;\n\x7d" ∧
    (compile ⟨false, none⟩ (before.text ++ " " ++ "-2 \x7d")).outcome.1.toOption =
      some ".a \x7b\n  width: 1 -2;\n\x7d" := by
  have facts : (Scan.ofText defaultSourceName minusBehindComment).tokens = (splitComment minusBehindComment).1 ++
        (splitComment minusBehindComment).2.1 :: (splitComment minusBehindComment).2.2 ∧
      (splitComment minusBehindComment).2.1.kind = .comment ∧
      minusBehindComment = (splitComment minusBehindComment).1.text ++ (splitComment minusBehindComment).2.1.text ++
        "-2 \x7d" := by decide +kernel
  refine ⟨_, _, _, facts.1, facts.2.1, facts.2.2, ?_⟩
  decide +kernel

end LessCss
