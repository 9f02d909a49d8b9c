import LessCss.Proofs.Sheet.Printed

/-! The head of a ruleset as the head of a block. Main statement: where a text without
holes and comments is read, each branch of a selector in it is printed as a fair branch. -/

set_option autoImplicit false

namespace LessCss

open List Selector

open Tokens

namespace Tokens

variable {tokens : Tokens}

/-- A sign is joined with the number behind it, or nothing is changed. -/
theorem signed_cases (tokens : Tokens) : tokens.signed = tokens ∨ ∃ sign number rest, tokens = sign :: number :: rest ∧
    sign.isMark "-" = true ∧ number.kind.isNumeric = true ∧
      tokens.signed = .synthetic number.kind ("-" ++ number.text) :: rest := by
  rcases tokens with _ | ⟨sign, _ | ⟨number, rest⟩⟩
  · exact .inl rfl
  · exact .inl rfl
  · by_cases both : (sign.isMark "-" && number.kind.isNumeric) = true
    · obtain ⟨mark, numeric⟩ := Bool.and_eq_true_iff.mp both
      exact .inr ⟨sign, number, rest, rfl, mark, numeric, if_pos both⟩
    · exact .inl (if_neg both)

def isInert (token : Token) : Bool := token.kind.isNumeric || token.isMark "-"

section

variable {token : Token} (inert : isInert token = true)

include inert

theorem kind_of_isInert : token.kind = .number ∨ token.kind = .percentage ∨ token.kind = .dimension ∨
    token.kind = .other ∧ token.text = "-" := by
  simpa [isInert, Kind.isNumeric, Token.isMark, or_assoc] using inert

theorem isBlank_of_isInert : token.isBlank = false := by
  rcases kind_of_isInert inert with kind | kind | kind | ⟨kind, _⟩ <;> rw [Token.isBlank, kind] <;> rfl

theorem depthAfter_of_isInert (depth : Nat) : token.kind.depthAfter depth = depth := by
  rcases kind_of_isInert inert with kind | kind | kind | ⟨kind, _⟩ <;> rw [kind] <;> rfl

theorem through_inert (depth : Nat) (rest : Tokens) : through depth (token :: rest) = through depth rest := by
  rw [through, depthAfter_of_isInert inert, if_neg]
  rcases kind_of_isInert inert with kind | kind | kind | ⟨kind, _⟩ <;> simp [kind]

theorem uncut_inert {depth : Nat} {rest : Tokens} : Uncut "," depth (token :: rest) ↔ Uncut "," depth rest := by
  have other : separates "," token = false := by
    rcases kind_of_isInert inert with kind | kind | kind | ⟨kind, text⟩ <;> simp [separates, *]
  rw [Uncut, depthAfter_of_isInert inert, other, Bool.and_false]
  exact and_iff_right rfl

theorem kept_inert {rest : Tokens} : Selector.Kept false false (token :: rest) ↔ Selector.Kept false false rest := by
  have plain : token.kind.opens = false ∧ endsName false token = false ∧ token.isMark "." = false := by
    rcases kind_of_isInert inert with kind | kind | kind | ⟨kind, text⟩ <;>
      simp [Kind.opens, endsName, Token.isMark, *]
  constructor
  · intro kept
    simpa [plain] using kept.step_of_plain plain.1
  · intro kept
    exact .cons_of_plain plain.1 (by simpa [plain] using kept)

theorem noExtend_inert (rest : Tokens) : noExtend (token :: rest) = noExtend rest := by
  have other : token.kind ≠ .colon := by
    rcases kind_of_isInert inert with kind | kind | kind | ⟨kind, _⟩ <;> simp [kind]
  simp [noExtend, other]

theorem noGuard_inert (rest : Tokens) : noGuard (token :: rest) = noGuard rest := by
  have other : token.kind ≠ .identifier := by
    rcases kind_of_isInert inert with kind | kind | kind | ⟨kind, _⟩ <;> simp [kind]
  simp [noGuard, other]

end

theorem uncut_canonical (separator : String) (depth : Nat) (tokens : Tokens) :
    Uncut separator depth tokens.canonical ↔ Uncut separator depth tokens := by
  induction tokens generalizing depth with
  | nil => exact Iff.rfl
  | cons token rest ih => rw [canonical_cons, Uncut, Uncut, separates_canonical, Token.kind_canonical, ih]

theorem IsPart.canonical {separator : String} (part : IsPart separator tokens) : IsPart separator tokens.canonical where
  trimmed := by rw [← canonical_trim, part.trimmed]
  ne_nil := fun empty => part.ne_nil (map_eq_nil_iff.mp empty)
  closed := by rw [Closed, depthAfter_canonical]; exact part.closed
  uncut := (uncut_canonical separator 0 tokens).mpr part.uncut

theorem Reads.stretch {last : Option Token} {after : List Char} {before others : Tokens}
    (reads : Reads last after (before ++ tokens ++ others)) (some_ : others ≠ []) :
    ∃ after', after' ≠ [] ∧ Reads (lastSeen last before) after' tokens := by
  rw [List.append_assoc, reads_append, reads_append] at reads
  refine ⟨(text others).toList ++ after, ?_, reads.2.1⟩
  obtain ⟨token, rest, rfl⟩ := exists_cons_of_ne_nil some_
  obtain ⟨c, own, spelled, _⟩ := reads.2.2.head
  simp [spelled]

end Tokens

namespace Css

structure BranchForm (branch : Tokens) : Prop where
  canonical : branch.canonical = branch
  part : IsPart "," branch
  whole : through 0 branch = some 0
  plain : ∀ token ∈ branch, token.kind ≠ .comment ∧ '@' ∉ token.text.toList
  kept : Selector.Kept false false branch
  extends_ : noExtend branch = true
  guards : noGuard branch = true

variable {branch : Tokens}

theorem BranchForm.fair (form : BranchForm branch)
    (reads : ∀ after, startsCalm after = true → Reads none after branch) : FairBranch branch where
  reads := reads
  canonical := form.canonical
  trimmed := form.part.trimmed
  whole := form.whole
  plain := form.plain
  part := form.part
  kept := form.kept
  extends_ := form.extends_
  guards := form.guards

/-- A sign that is joined with its number changes nothing for a selector. -/
theorem BranchForm.signed (form : BranchForm branch) : BranchForm branch.signed := by
  rcases signed_cases branch with same | ⟨sign, number, rest, rfl, mark, numeric, same⟩
  · rwa [same]
  · rw [same]
    obtain ⟨canonical, part, whole, plain, kept, extends_, guards⟩ := form
    have first : isInert sign = true := by rw [isInert, mark, Bool.or_true]
    have second : isInert number = true := by rw [isInert, numeric, Bool.true_or]
    have joined : isInert (.synthetic number.kind ("-" ++ number.text)) = true := by
      rw [isInert, Token.synthetic, numeric, Bool.true_or]
    -- Neither the two tokens nor the joined one is a bracket, a comma or a word, so each part of the form carries over.
    refine ⟨?_, ⟨?_, cons_ne_nil _ _, ?_, ?_⟩, ?_, ?_, ?_, ?_, ?_⟩
    · have back : Tokens.canonical rest = rest := (List.cons.inj (List.cons.inj canonical).2).2
      have white : number.kind ≠ .whitespace := kind_of_solid (isBlank_of_isInert second)
      rw [canonical_cons, back, Token.canonical]
      exact congrArg (· :: rest) (congrArg (Token.synthetic number.kind) (if_neg white))
    · refine trim_eq_self (fun token found => ?_) fun token found => ?_
      · cases found
        exact isBlank_of_isInert joined
      · cases rest with
        | nil =>
          cases found
          exact isBlank_of_isInert joined
        | cons next rest => exact getLast_of_trim part.trimmed (by simpa using found)
    · have closed : depthAfter (number.kind.depthAfter (sign.kind.depthAfter 0)) rest = 0 := part.closed
      rwa [depthAfter_of_isInert first] at closed
    · exact (uncut_inert joined).mpr ((uncut_inert second).mp ((uncut_inert first).mp part.uncut))
    · rwa [through_inert first, through_inert second, ← through_inert joined] at whole
    · obtain ⟨_, plain⟩ := forall_mem_cons.mp plain
      obtain ⟨plainNumber, plain⟩ := forall_mem_cons.mp plain
      refine forall_mem_cons.mpr ⟨⟨plainNumber.1, ?_⟩, plain⟩
      simpa [Token.synthetic] using plainNumber.2
    · exact (kept_inert joined).mpr ((kept_inert second).mp ((kept_inert first).mp kept))
    · rwa [noExtend_inert first, noExtend_inert second, ← noExtend_inert joined] at extends_
    · rwa [noGuard_inert first, noGuard_inert second, ← noGuard_inert joined] at guards

theorem plain_canonical {tokens : Tokens} (plain : ∀ token ∈ tokens, token.kind ≠ .comment ∧ '@' ∉ token.text.toList) :
    ∀ token ∈ tokens.canonical, token.kind ≠ .comment ∧ '@' ∉ token.text.toList := by
  intro token member
  obtain ⟨before, found, rfl⟩ := mem_map.mp member
  refine ⟨(plain before found).1, ?_⟩
  by_cases white : before.kind = .whitespace
  · rw [Token.text_canonical_blank white]
    decide
  · rw [Token.text_canonical white]
    exact (plain before found).2

/-- A branch in a text that is read, where it is printed. -/
theorem exists_fairBranch {last : Option Token} {after : List Char} (reads : Reads last after branch) (some_ : after ≠ [])
    (part : IsPart "," branch) (whole : through 0 branch = some 0)
    (plain : ∀ token ∈ branch, token.kind ≠ .comment ∧ '@' ∉ token.text.toList) (kept : Selector.Kept false false branch)
    (extends_ : noExtend branch = true) (guards : noGuard branch = true) :
    ∃ printed, FairBranch printed ∧ text printed = render branch := by
  have noComment (token : Token) (member : token ∈ branch) : token.kind ≠ .comment := (plain token member).1
  have form : BranchForm branch.canonical := by
    refine ⟨canonical_canonical branch, part.canonical, by rw [through_canonical]; exact whole, plain_canonical plain,
      ?_, ?_, ?_⟩
    · exact kept.of_canonical (canonical_canonical branch) reads.proper (Proper.canonical branch) fun token member =>
        reads.not_atKeyword member (plain token member).2
    · rw [noExtend_canonical reads.proper]
      exact extends_
    · rw [noGuard_canonical]
      exact guards
  have calm (after' : List Char) (calm : startsCalm after' = true) : Reads last after' branch.canonical :=
    reads.canonical_sealed some_ part.trimmed noComment (fun token member => (plain token member).2) calm
  rw [render_eq_text reads part.trimmed noComment]
  cases sign : Lexeme.allowsSign last with
  | true => exact ⟨branch.canonical, form.fair fun after' calm' => (calm after' calm').congr sign, rfl⟩
  | false =>
    refine ⟨branch.canonical.signed, form.signed.fair fun after' calm' => ?_, text_signed _⟩
    exact (calm after' calm').signed sign calm' fun token member => (form.plain token member).1

theorem exists_map_eq {α β γ : Type} {good : β → Prop} {f : β → γ} {g : α → γ} {list : List α}
    (each : ∀ a ∈ list, ∃ b, good b ∧ f b = g a) : ∃ others : List β, (∀ b ∈ others, good b) ∧ others.map f = list.map g := by
  induction list with
  | nil => exact ⟨[], fun _ member => absurd member not_mem_nil, rfl⟩
  | cons a list ih =>
    obtain ⟨first, rest⟩ := forall_mem_cons.mp each
    obtain ⟨b, fine, same⟩ := first
    obtain ⟨others, fines, sames⟩ := ih rest
    exact ⟨b :: others, forall_mem_cons.mpr ⟨fine, fines⟩, by rw [map_cons, map_cons, same, sames]⟩

/-- The branches of a selector in a text that is read, where they are printed. -/
theorem exists_fairBranches {all past head : Tokens} (reads : Reads none [] all)
    (plain : ∀ token ∈ all, token.kind ≠ .comment ∧ '@' ∉ token.text.toList) (piece : Piece all past head)
    (extends_ : noExtend head = true) (noList : (read head).parameters = none)
    (unguarded : (read head).conditions = [])
    (groups : unnamed false false (read head).tokens = true ∨ isNested (read head).tokens = true)
    (guards : noGuard (read head).tokens = true) :
    Closed (read head).tokens ∧ ∃ list : List Tokens, (∀ branch ∈ list, FairBranch branch) ∧
      list.map text = (branches (read head).tokens).map render := by
  obtain ⟨behind, some_, rfl⟩ := piece.found
  obtain ⟨_, _, readsHead⟩ := reads.stretch some_
  have parens (token : Token) (member : token ∈ head) (closes : token.kind = .parenClose) : token.text = ")" :=
    readsHead.text_of_mark member (show token.kind = Lexeme.markKind ')' from closes) (.inr rfl)
  obtain ⟨kept, rest, rfl, same, closed, cuttable⟩ := exists_cuttable piece.trimmed
    (depthAfter_of_through piece.whole) parens extends_ noList unguarded groups
  obtain ⟨before, after, blank, _, split⟩ := exists_trim kept
  generalize trim kept = own at split same closed cuttable
  subst split
  have inAll (token : Token) (member : token ∈ own) : token ∈ past ++ (before ++ own ++ after ++ rest) ++ behind := by
    simp [member]
  have kinds := kinds_of_canonical same fun token member =>
    ⟨(plain token (inAll token member)).1, reads.not_atKeyword (inAll token member) (plain token (inAll token member)).2⟩
  -- Up to the form of blanks the selector is the front of the head, trimmed, and is cut as the front is.
  have alike : (branches (read (before ++ own ++ after ++ rest)).tokens).map canonical =
      own.branches.map canonical := by
    rw [← branches_canonical, same, branches_canonical]
  have guards' : noGuard own = true := by
    rw [← noGuard_canonical, ← same, noGuard_canonical]
    exact guards
  rw [map_render_of_canonical alike (fun branch member token inside => (kinds token (mem_of_mem_parts member inside)).1)
    fun branch member token inside => (plain token (inAll token (mem_of_mem_parts member inside))).1]
  refine ⟨by rw [Closed, ← depthAfter_canonical, same, depthAfter_canonical]; exact closed,
    exists_map_eq fun branch member => ?_⟩
  -- One branch: a stretch of the text, with no bracket open in front of it.
  have part := isPart_of_mem_branches closed member
  have kept := (cuttable.branches member).kept
  have inOwn (token : Token) (inside : token ∈ branch) : token ∈ own := mem_of_mem_parts member inside
  obtain ⟨front, back, rfl, level⟩ := inside_of_mem_branches member
  have level' : depthAfter 0 (before ++ front) = 0 := by rw [depthAfter_append, depthAfter_of_blank blank, level]
  have headSplit : before ++ (front ++ branch ++ back) ++ after ++ rest =
      (before ++ front) ++ branch ++ (back ++ after ++ rest) := by
    simp
  have allSplit : past ++ (before ++ (front ++ branch ++ back) ++ after ++ rest) ++ behind =
      (past ++ before ++ front) ++ branch ++ (back ++ after ++ rest ++ behind) := by
    simp
  rw [allSplit] at reads
  obtain ⟨_, some', readsBranch⟩ := reads.stretch (by simp [some_])
  have whole := piece.whole
  rw [headSplit] at whole extends_
  have whole := through_middle whole
  rw [level', part.closed] at whole
  rw [List.append_assoc] at extends_
  exact exists_fairBranch readsBranch some' part whole
    (fun token inside => plain token (inAll token (inOwn token inside))) kept
    (noExtend_front (noExtend_append _ extends_)) (noGuard_of_subset inOwn guards')

end Css

end LessCss
