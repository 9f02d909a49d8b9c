import LessCss.Proofs.Token.Cuts

/-! Heads that are selectors and nothing else. Reading such a head keeps its tokens.
A selector that has been read can be cut at its commas, written in canonical form
and joined again, and is kept when it is read once more. -/

set_option autoImplicit false

namespace LessCss

open List

open Tokens

namespace Selector

def endsName (pointed : Bool) (token : Token) : Bool :=
  token.kind == .hash || (token.kind == .identifier && pointed)

/-- Tokens in which no parenthesis behind a name opens a parameter list. `named` and `pointed`
say if the tokens in front end in a name, and in a point. -/
inductive Kept : (named pointed : Bool) → Tokens → Prop where
  | nil {named pointed : Bool} : Kept named pointed []
  | step {named pointed : Bool} {token : Token} {rest : Tokens}
      (free : (named && token.kind == .parenOpen) = false)
      (others : Kept (endsName pointed token) (token.isMark ".") rest) : Kept named pointed (token :: rest)
  | group {pointed : Bool} {token close : Token} {inner rest : Tokens} (opens : token.kind = .parenOpen)
      (closes : close.kind = .parenClose)
      (whole : takeGroup? 0 (inner ++ close :: rest) = some (inner, rest))
      (none_ : ParameterList.read? inner = none) (others : Kept false false rest) :
      Kept true pointed (token :: (inner ++ close :: rest))

def noExtend : Tokens → Bool
  | [] => true
  | token :: rest => !(token.kind == .colon && opensExtend rest) && noExtend rest

def noGuard (tokens : Tokens) : Bool :=
  tokens.all fun token => !(token.kind == .identifier && token.text == "when")

variable {named pointed : Bool} {tokens rest seen : Tokens} {selector : Selector}

theorem endsInName_cons (token : Token) (seen : Tokens) : endsInName (token :: seen) =
    endsName (seen.head?.any (·.isMark ".")) token :=
  rfl

/-! ### Reading -/

theorem readFrom_step {token : Token} (extends_ : ¬(token.kind = .colon && opensExtend rest) = true)
    (free : ¬(token.kind = .parenOpen && selector.parameters.isNone && endsInName seen) = true)
    (guard_ : ¬opensGuard token seen = true) :
    readFrom seen selector (token :: rest) = readFrom (token :: seen) selector rest := by
  rw [readFrom, if_neg extends_, if_neg free, if_neg guard_]

theorem readFrom_group {token : Token} (opens : token.kind = .parenOpen) (noList : selector.parameters = none)
    (name : endsInName seen = true) (none_ : ParameterList.read? (takeGroup rest).1 = none) :
    readFrom seen selector (token :: rest) =
      readFrom (Token.derived .parenClose ")" token :: (takeGroup rest).1.reverse ++ token :: seen) selector
        (takeGroup rest).2 := by
  rw [readFrom, if_neg (by simp [opens]), if_pos (by simp [opens, noList, name])]
  dsimp only
  rw [none_]

theorem noExtend_append (tokens : Tokens) (extends_ : noExtend (tokens ++ rest) = true) : noExtend rest = true := by
  induction tokens with
  | nil => exact extends_
  | cons token tokens ih =>
    rw [cons_append, noExtend, Bool.and_eq_true] at extends_
    exact ih extends_.2

theorem noGuard_of_subset {others : Tokens} (subset : ∀ token ∈ others, token ∈ tokens) (guards : noGuard tokens = true) :
    noGuard others = true :=
  all_eq_true.mpr fun token member => all_eq_true.mp guards token (subset token member)

theorem canonical_close {token close : Token} (closes : close.kind = .parenClose) (text : close.text = ")") :
    (Token.derived .parenClose ")" token).canonical = close.canonical := by
  rw [Token.canonical, Token.canonical, closes, text]
  rfl

/-- Tokens that are kept, up to the place of closing parentheses. -/
theorem readFrom_of_kept (kept : Kept named pointed tokens)
    (parens : ∀ token ∈ tokens, token.kind = .parenClose → token.text = ")") (extends_ : noExtend tokens = true)
    (guards : noGuard tokens = true) (noList : selector.parameters = none) (look : endsInName seen = named)
    (look' : seen.head?.any (·.isMark ".") = pointed) :
    ∃ own, own.canonical = tokens.canonical ∧
      readFrom seen selector tokens = { selector with tokens := trim (seen.reverse ++ own) } := by
  induction kept generalizing seen with
  | nil => exact ⟨[], rfl, by simp [readFrom]⟩
  | @step named pointed token rest free others ih =>
    obtain ⟨_, parens⟩ := forall_mem_cons.mp parens
    rw [noExtend, Bool.and_eq_true] at extends_
    have guards' := noGuard_of_subset (fun other => mem_cons_of_mem token) guards
    obtain ⟨own, same, read⟩ := ih parens extends_.2 guards' (by rw [endsInName_cons, look']) rfl
    refine ⟨token :: own, by rw [canonical_cons, same, canonical_cons], ?_⟩
    rw [readFrom_step, read]
    · simp
    · intro both
      rw [Bool.and_eq_true, decide_eq_true_iff] at both
      simp [both] at extends_
    · rw [look]
      revert free
      cases named <;> simp +contextual [noList]
    · have := all_eq_true.mp guards token mem_cons_self
      simp only [opensGuard]
      grind
  | @group pointed token close inner rest opens closes whole none_ others ih =>
    have inside (other : Token) (member : other ∈ rest) : other ∈ token :: (inner ++ close :: rest) := by
      simp [member]
    have extends' : noExtend rest = true := by
      apply noExtend_append (token :: inner ++ [close])
      simpa using extends_
    -- The group is no list of parameters: it is read as part of the selector, with a parenthesis put behind it.
    have taken : takeGroup (inner ++ close :: rest) = (inner, rest) := by
      rw [takeGroup, whole]
      rfl
    obtain ⟨own, same, read⟩ := ih (fun other member => parens other (inside other member)) extends'
      (noGuard_of_subset inside guards)
      (show endsInName (Token.derived .parenClose ")" token :: inner.reverse ++ token :: seen) = false from rfl) rfl
    refine ⟨token :: (inner ++ Token.derived .parenClose ")" token :: own), ?_, ?_⟩
    · simp [same, canonical_close closes (parens close (by simp) closes)]
    · rw [readFrom_group opens noList look (by rw [taken]; exact none_), taken, read]
      simp

/-! ### What has been read -/

def unnamed (named pointed : Bool) : Tokens → Bool
  | [] => true
  | token :: rest => !(named && token.kind == .parenOpen) && unnamed (endsName pointed token) (token.isMark ".") rest

theorem parameters_readFrom {list : ParameterList} (some_ : selector.parameters = some list) :
    (readFrom seen selector tokens).parameters = some list := by
  fun_induction readFrom seen selector tokens with
  | case1 => exact some_
  | case2 seen selector token rest _ group ih => exact ih some_
  | case3 seen selector token rest _ free => simp [some_] at free
  | case4 seen selector token rest _ free => simp [some_] at free
  | case5 => exact some_
  | case6 seen selector token rest _ _ _ ih => exact ih some_

theorem takeGroup?_replace {close : Token} {inner : Tokens} {depth : Nat} (closes : close.kind = .parenClose)
    (taken : takeGroup? depth (inner ++ close :: rest) = some (inner, rest)) (others : Tokens) :
    takeGroup? depth (inner ++ close :: others) = some (inner, others) := by
  have inside {token : Token} {inner : Tokens} {found : Option (Tokens × Tokens)}
      (same : found.map (fun group => (token :: group.1, group.2)) = some (token :: inner, rest)) :
      found = some (inner, rest) := by
    obtain ⟨⟨inner', rest'⟩, rfl, same⟩ := Option.map_eq_some_iff.mp same
    cases same
    rfl
  -- The group is taken by depth alone, so what follows its parenthesis has no part in it.
  induction inner generalizing depth with
  | nil =>
    rw [nil_append, takeGroup?, if_pos closes] at taken ⊢
    split at taken
    · rename_i outside
      rw [if_pos outside]
    · obtain ⟨group, _, same⟩ := Option.map_eq_some_iff.mp taken
      cases same
  | cons token inner ih =>
    rw [cons_append, takeGroup?] at taken ⊢
    split at taken
    · rename_i closes'
      rw [if_pos closes']
      split at taken
      · cases taken
      · rename_i deeper
        rw [if_neg deeper, ih (inside taken)]
        rfl
    · rename_i other
      rw [if_neg other, ih (inside taken)]
      rfl

/-- A head that is no definition is kept up to its guard, or has a group that is not closed. -/
theorem exists_kept (parens : ∀ token ∈ tokens, token.kind = .parenClose → token.text = ")")
    (extends_ : noExtend tokens = true) (noList : (readFrom seen selector tokens).parameters = none)
    (unguarded : (readFrom seen selector tokens).conditions = []) :
    ∃ own kept rest, tokens = kept ++ rest ∧ (∀ depth, depthAfter depth rest = depth) ∧
      (readFrom seen selector tokens).tokens = trim (seen.reverse ++ own) ∧
      (own.canonical = kept.canonical ∧ Kept (endsInName seen) (seen.head?.any (·.isMark ".")) kept ∨
        rest = [] ∧ unnamed (endsInName seen) (seen.head?.any (·.isMark ".")) kept = false ∧
          ∃ close : Token, close.kind = .parenClose ∧ own.canonical = canonical (kept ++ [close])) := by
  -- One case for each way to read a token: an end, an extension, a list of parameters, another group,
  -- a guard, and a token that is kept.
  fun_induction readFrom seen selector tokens with
  | case1 => exact ⟨[], [], [], rfl, fun _ => rfl, by simp, .inl ⟨rfl, .nil⟩⟩
  | case2 seen selector token rest both =>
    rw [Bool.and_eq_true, decide_eq_true_iff] at both
    simp [noExtend, both] at extends_
  | case3 seen selector token rest _ _ group list read =>
    rw [parameters_readFrom rfl] at noList
    cases noList
  | case4 seen selector token rest _ free group none_ close ih =>
    simp only [Bool.and_eq_true, decide_eq_true_eq, Option.isNone_iff_eq_none] at free
    obtain ⟨⟨opens, _⟩, name⟩ := free
    have started (kept : Tokens) : unnamed (endsInName seen) (seen.head?.any (·.isMark ".")) (token :: kept) = false := by
      simp [unnamed, name, opens]
    cases taken : takeGroup? 0 rest with
    | none =>
      have whole : group = (rest, []) := by
        rw [show group = takeGroup rest from rfl, takeGroup, taken]
        rfl
      refine ⟨token :: (rest ++ [close]), token :: rest, [], by simp, fun _ => rfl, ?_,
        .inr ⟨rfl, started rest, close, rfl, rfl⟩⟩
      simp [whole, readFrom]
    | some parts =>
      obtain ⟨inner, after⟩ := parts
      have whole : group = (inner, after) := by
        rw [show group = takeGroup rest from rfl, takeGroup, taken]
        rfl
      obtain ⟨last, closes, rfl⟩ := exists_of_takeGroup? taken
      have extends' : noExtend after = true := by
        apply noExtend_append (token :: inner ++ [last])
        simpa using extends_
      have inside (other : Token) (member : other ∈ after) : other ∈ token :: (inner ++ last :: after) := by
        simp [member]
      rw [whole] at ih noList unguarded none_ ⊢
      obtain ⟨own, kept, rest, rfl, level, read, result⟩ := ih (fun other member => parens other (inside other member))
        extends' noList unguarded
      have same : close.canonical = last.canonical := canonical_close closes (parens last (by simp) closes)
      refine ⟨token :: (inner ++ close :: own), token :: (inner ++ last :: kept), rest, by simp, level, ?_, ?_⟩
      · rw [read]
        simp
      · rcases result with ⟨alike, kept'⟩ | ⟨ends, _, last', closes', alike⟩
        · refine .inl ⟨by simp [same, alike], ?_⟩
          rw [name]
          exact .group opens closes (takeGroup?_replace closes taken kept) none_ kept'
        · exact .inr ⟨ends, started _, last', closes', by simp [same, alike]⟩
  | case5 seen selector token rest _ _ guard_ =>
    refine ⟨[], [], token :: rest, rfl, fun depth => ?_, by simp, .inl ⟨rfl, .nil⟩⟩
    have word : token.kind = .identifier := by
      simp only [opensGuard, Bool.and_eq_true, beq_iff_eq] at guard_
      exact guard_.1.1.1
    change depthAfter (token.kind.depthAfter depth) rest = depth
    rw [word]
    exact depthAfter_of_gaps (gaps_of_branches unguarded) depth
  | case6 seen selector token rest extend_ free guard_ ih =>
    obtain ⟨_, parens⟩ := forall_mem_cons.mp parens
    rw [noExtend, Bool.and_eq_true] at extends_
    obtain ⟨own, kept, after, rfl, level, read, result⟩ := ih parens extends_.2 noList unguarded
    refine ⟨token :: own, token :: kept, after, by simp, level, by rw [read]; simp, ?_⟩
    have noList' : selector.parameters = none := by
      cases found : selector.parameters with
      | none => rfl
      | some list =>
        rw [parameters_readFrom found] at noList
        cases noList
    have free' : (endsInName seen && token.kind == .parenOpen) = false := by
      rw [Bool.eq_false_iff]
      intro both
      rw [Bool.and_eq_true, beq_iff_eq] at both
      simp [both, noList'] at free
    -- The token comes in front of whatever is kept behind it; only a name before a parenthesis is excluded.
    rcases result with ⟨alike, kept'⟩ | ⟨ends, named', close, closes, alike⟩
    · exact .inl ⟨by simp [alike], .step free' kept'⟩
    · refine .inr ⟨ends, ?_, close, closes, by simp [alike]⟩
      rw [unnamed, free']
      exact named'

/-! ### Putting together and cutting -/

def marksAfter (named pointed : Bool) : Tokens → Bool × Bool
  | [] => (named, pointed)
  | token :: rest => marksAfter (endsName pointed token) (token.isMark ".") rest

theorem marksAfter_append (named pointed : Bool) (tokens others : Tokens) : marksAfter named pointed (tokens ++ others) =
    marksAfter (marksAfter named pointed tokens).1 (marksAfter named pointed tokens).2 others := by
  induction tokens generalizing named pointed with
  | nil => rfl
  | cons token rest ih => exact ih _ _

theorem marks_of_closes {token : Token} (closes : token.kind.closes = true) (pointed : Bool) :
    endsName pointed token = false ∧ token.isMark "." = false := by
  unfold Kind.closes at closes
  unfold endsName Token.isMark
  cases kind : token.kind <;> simp_all

theorem Kept.append (kept : Kept named pointed tokens)
    (others : Kept (marksAfter named pointed tokens).1 (marksAfter named pointed tokens).2 rest) :
    Kept named pointed (tokens ++ rest) := by
  induction kept with
  | nil => exact others
  | step free _ ih => exact .step free (ih others)
  | @group pointed token close inner after opens closes whole none_ _ ih =>
    have marks := marks_of_closes (show close.kind.closes = true by rw [closes]; rfl)
    rw [marksAfter, marksAfter_append, marksAfter, (marks _).1, (marks true).2] at others
    rw [cons_append, List.append_assoc, cons_append]
    exact .group opens closes (takeGroup?_replace closes whole _) none_ (ih others)

theorem Kept.cases_cons {token : Token} (kept : Kept named pointed (token :: rest)) :
    (named && token.kind == .parenOpen) = false ∧ Kept (endsName pointed token) (token.isMark ".") rest ∨
    named = true ∧ token.kind = .parenOpen ∧ ∃ inner after, takeGroup? 0 rest = some (inner, after) ∧
      ParameterList.read? inner = none ∧ Kept false false after := by
  generalize same : token :: rest = all at kept
  cases kept with
  | nil => cases same
  | step free others =>
    cases same
    exact .inl ⟨free, others⟩
  | group opens closes whole none_ others =>
    cases same
    exact .inr ⟨rfl, opens, _, _, whole, none_, others⟩

theorem Kept.step_of_plain {token : Token} (plain : token.kind.opens = false) (kept : Kept named pointed (token :: rest)) :
    Kept (endsName pointed token) (token.isMark ".") rest := by
  rcases kept.cases_cons with ⟨_, others⟩ | ⟨_, opens, _⟩
  · exact others
  · rw [opens] at plain
    cases plain

theorem Kept.cons_of_plain {token : Token} (plain : token.kind.opens = false)
    (kept : Kept (endsName pointed token) (token.isMark ".") rest) : Kept named pointed (token :: rest) := by
  refine .step ?_ kept
  rw [Bool.eq_false_iff]
  intro both
  rw [Bool.and_eq_true, beq_iff_eq] at both
  rw [both.2] at plain
  cases plain

/-- What is kept can be cut behind balanced tokens. -/
theorem Kept.cut (balanced : Balanced tokens) (kept : Kept named pointed (tokens ++ rest)) :
    Kept named pointed tokens ∧ Kept (marksAfter named pointed tokens).1 (marksAfter named pointed tokens).2 rest := by
  induction balanced generalizing named pointed rest with
  | nil => exact ⟨.nil, kept⟩
  | token opens closes others ih =>
    obtain ⟨front, back⟩ := ih (kept.step_of_plain opens)
    exact ⟨.cons_of_plain opens front, back⟩
  | @group opening closing inner after pair inside others ihInside ihOthers =>
    rw [cons_append, List.append_assoc, cons_append] at kept
    obtain ⟨closes, plain⟩ : closing.kind.closes = true ∧ closing.kind.opens = false := by
      rcases pair with ⟨_, closes⟩ | ⟨_, closes⟩
      all_goals rw [closes]; exact ⟨rfl, rfl⟩
    have marks (n p : Bool) : marksAfter n p (opening :: (inner ++ closing :: after)) = marksAfter false false after := by
      rw [marksAfter, marksAfter_append, marksAfter, (marks_of_closes closes _).1, (marks_of_closes closes true).2]
    rw [marks]
    rcases kept.cases_cons with ⟨free, kept⟩ | ⟨rfl, paren, inner', after', taken, none_, kept⟩
    · obtain ⟨front, back⟩ := ihInside kept
      have back' := back.step_of_plain plain
      rw [(marks_of_closes closes _).1, (marks_of_closes closes true).2] at back'
      obtain ⟨front', back'⟩ := ihOthers back'
      refine ⟨.step free (front.append (.cons_of_plain plain ?_)), back'⟩
      rw [(marks_of_closes closes _).1, (marks_of_closes closes true).2]
      exact front'
    · -- The group that is read is the balanced one.
      have paren' : closing.kind = .parenClose := by
        rcases pair with ⟨_, closes⟩ | ⟨opens, _⟩
        · exact closes
        · rw [opens] at paren
          cases paren
      rw [inside.takeGroup?_close paren'] at taken
      cases taken
      obtain ⟨front, back⟩ := ihOthers kept
      exact ⟨.group paren paren' (inside.takeGroup?_close paren' _) none_ front, back⟩

theorem kept_of_unnamed (free : unnamed named pointed tokens = true) : Kept named pointed tokens := by
  induction tokens generalizing named pointed with
  | nil => exact .nil
  | cons token rest ih =>
    rw [unnamed, Bool.and_eq_true, Bool.not_eq_true'] at free
    exact .step free.1 (ih free.2)

theorem unnamed_append (named pointed : Bool) (tokens rest : Tokens) : unnamed named pointed (tokens ++ rest) =
    (unnamed named pointed tokens &&
      unnamed (marksAfter named pointed tokens).1 (marksAfter named pointed tokens).2 rest) := by
  induction tokens generalizing named pointed with
  | nil => simp [unnamed, marksAfter]
  | cons token tokens ih => simp only [cons_append, unnamed, marksAfter, ih, Bool.and_assoc]

/-- A head that is a selector and nothing else, and can be cut: a parenthesis stands behind a
name only if the brackets match. -/
structure Cuttable (tokens : Tokens) : Prop where
  kept : Kept false false tokens
  groups : unnamed false false tokens = true ∨ isNested tokens = true

theorem marks_of_isGap {token : Token} (gap : isGap token = true) (pointed : Bool) :
    endsName pointed token = false ∧ token.isMark "." = false := by
  unfold endsName Token.isMark
  rcases (Bool.or_eq_true _ _).mp gap with blank | comma
  · unfold Token.isBlank Kind.isBlank at blank
    cases kind : token.kind <;> simp_all
  · rw [separates, Bool.and_eq_true, beq_iff_eq] at comma
    cases kind : token.kind <;> simp_all

theorem Cuttable.cut {token : Token} (gap : isGap token = true) (whole : Cuttable (tokens ++ token :: rest))
    (closed : isNested (tokens ++ token :: rest) = true → Closed tokens) : Cuttable tokens ∧ Cuttable rest := by
  obtain ⟨opens, closes⟩ := kind_of_isGap gap
  obtain ⟨noName, noPoint⟩ := marks_of_isGap gap (marksAfter false false tokens).2
  rcases whole.groups with free | nested
  · rw [unnamed_append, unnamed, noName, noPoint, Bool.and_eq_true, Bool.and_eq_true] at free
    exact ⟨⟨kept_of_unnamed free.1, .inl free.1⟩, ⟨kept_of_unnamed free.2.2, .inl free.2.2⟩⟩
  · obtain ⟨front, back⟩ := isNested_append (closed nested) nested
    rw [isNested, nestedFrom_plain opens closes] at back
    obtain ⟨kept, others⟩ := whole.kept.cut (balanced_of_isNested front)
    have others' := others.step_of_plain opens
    rw [noName, noPoint] at others'
    exact ⟨⟨kept, .inr front⟩, ⟨others', .inr back⟩⟩

theorem Cuttable.trim (whole : Cuttable tokens) : Cuttable (trim tokens) := by
  obtain ⟨before, after, blank, blank', same⟩ := exists_trim tokens
  have front : Cuttable (Tokens.trim tokens ++ after) := by
    rw [same, List.append_assoc] at whole
    clear same
    induction before with
    | nil => exact whole
    | cons token before ih =>
      obtain ⟨first, others⟩ := forall_mem_cons.mp blank
      have split : Cuttable ([] ++ token :: (before ++ (Tokens.trim tokens ++ after))) := whole
      exact ih (split.cut (isGap_of_blank first) fun _ => rfl).2 others
  cases after with
  | nil => simpa using front
  | cons token after =>
    refine (front.cut (isGap_of_blank (blank' token mem_cons_self)) fun nested => ?_).1
    apply closed_of_isNested
    rw [isNested, nestedFrom_trim, same, List.append_assoc, nestedFrom_blank blank]
    exact nested

theorem Cuttable.branches (whole : Cuttable tokens) {branch : Tokens} (member : branch ∈ branches tokens) :
    Cuttable branch := by
  obtain ⟨stretch, inside, rfl⟩ := mem_map.mp (mem_filter.mp member).1
  refine Cuttable.trim ?_
  clear member
  -- The first stretch is cut off as long as a comma follows it.
  induction length : tokens.length using Nat.strongRecOn generalizing tokens with
  | ind n ih =>
    obtain ⟨first, others, same⟩ := exists_cons_of_ne_nil (stretches_ne_nil "," 0 tokens)
    rw [same] at inside
    rcases exists_of_stretches same with ⟨rfl, rfl⟩ | ⟨mark, rest, rfl, marks, level, rfl⟩
    · cases mem_singleton.mp inside
      exact whole
    · obtain ⟨front, back⟩ := whole.cut (isGap_of_separates marks) fun _ => level
      rcases mem_cons.mp inside with rfl | inside
      · exact front
      · refine ih rest.length ?_ back inside rfl
        rw [← length, length_append, length_cons]
        omega

theorem unnamed_canonical (named pointed : Bool) (tokens : Tokens) :
    unnamed named pointed tokens.canonical = unnamed named pointed tokens := by
  induction tokens generalizing named pointed with
  | nil => rfl
  | cons token rest ih =>
    have ends : endsName pointed token.canonical = endsName pointed token := rfl
    rw [canonical_cons, unnamed, unnamed, ends, Token.isMark_canonical, ih]
    rfl

/-- A head that is no definition is a selector up to its guard, and can be cut. -/
theorem exists_cuttable (trimmed : trim tokens = tokens) (closed : Closed tokens)
    (parens : ∀ token ∈ tokens, token.kind = .parenClose → token.text = ")") (extends_ : noExtend tokens = true)
    (noList : (read tokens).parameters = none) (unguarded : (read tokens).conditions = [])
    (groups : unnamed false false (read tokens).tokens = true ∨ isNested (read tokens).tokens = true) :
    ∃ kept rest, tokens = kept ++ rest ∧ (read tokens).tokens.canonical = canonical (trim kept) ∧
      Closed (trim kept) ∧ Cuttable (trim kept) := by
  obtain ⟨own, kept, rest, rfl, level, same, result⟩ := exists_kept parens extends_ noList unguarded
  have same' : (read (kept ++ rest)).tokens = trim own := same
  have closed' : Closed kept := by
    rwa [Closed, depthAfter_append, level] at closed
  rcases result with ⟨alike, whole⟩ | ⟨rfl, named, close, closes, alike⟩
  · have canonical' : (read (kept ++ rest)).tokens.canonical = canonical (trim kept) := by
      rw [same', canonical_trim, alike, canonical_trim]
    refine ⟨kept, rest, rfl, canonical', by rw [Closed, depthAfter_trim]; exact closed', ?_⟩
    rw [← unnamed_canonical, isNested, ← nestedFrom_canonical, canonical', unnamed_canonical, nestedFrom_canonical] at groups
    rcases groups with free | nested
    · exact ⟨kept_of_unnamed free, .inl free⟩
    · rw [nestedFrom_trim] at nested
      exact Cuttable.trim ⟨whole, .inr nested⟩
  · -- A group that is not closed would leave one bracket too many behind.
    exfalso
    have canonical' : (read (kept ++ [])).tokens.canonical = canonical (trim (kept ++ [close])) := by
      rw [same', canonical_trim, alike, canonical_trim]
    rw [← unnamed_canonical, isNested, ← nestedFrom_canonical, canonical', unnamed_canonical, nestedFrom_canonical] at groups
    rcases groups with free | nested
    · have solid : close.isBlank = false := by
        rw [Token.isBlank, closes]
        rfl
      have whole : trim (kept ++ [close]) = kept ++ [close] := by
        rw [append_nil] at trimmed
        refine trim_eq_self (fun token found => ?_) fun token found => ?_
        · cases kept with
          | nil =>
            cases found
            exact solid
          | cons first kept => exact head_of_trim trimmed found
        · rw [List.getLast?_concat] at found
          cases found
          exact solid
      have named' : unnamed false false kept = false := named
      rw [whole, unnamed_append, named'] at free
      cases free
    · rw [nestedFrom_trim] at nested
      have none_ := not_isNested_concat closed' closes
      rw [isNested, nested] at none_
      cases none_

/-! ### What has been joined -/

theorem kept_joinBranches {list : List Tokens} (each : ∀ branch ∈ list, Kept false false branch) :
    Kept false false (joinBranches list) := by
  induction list with
  | nil => exact .nil
  | cons first rest ih =>
    obtain ⟨front, others⟩ := forall_mem_cons.mp each
    cases rest with
    | nil =>
      rw [joinBranches_singleton]
      exact front
    | cons second rest =>
      rw [joinBranches_cons_cons]
      exact front.append (.cons_of_plain rfl (.cons_of_plain rfl (ih others)))

theorem noExtend_comma (extends_ : noExtend tokens = true) (others : noExtend rest = true) :
    noExtend (tokens ++ (Token.comma :: Token.space :: rest)) = true := by
  induction tokens with
  | nil => simpa [noExtend, Token.comma, Token.space, Token.synthetic] using others
  | cons token tokens ih =>
    rw [noExtend, Bool.and_eq_true] at extends_
    have same : opensExtend (tokens ++ (Token.comma :: Token.space :: rest)) = opensExtend tokens := by
      rcases tokens with _ | ⟨first, _ | ⟨second, tokens⟩⟩
      all_goals simp [opensExtend, headText?, headIs, headKind?, Token.comma, Token.synthetic]
    rw [cons_append, noExtend, same, extends_.1, ih extends_.2]
    rfl

theorem noExtend_joinBranches {list : List Tokens} (each : ∀ branch ∈ list, noExtend branch = true) :
    noExtend (joinBranches list) = true := by
  induction list with
  | nil => rfl
  | cons first rest ih =>
    obtain ⟨front, others⟩ := forall_mem_cons.mp each
    cases rest with
    | nil =>
      rw [joinBranches_singleton]
      exact front
    | cons second rest =>
      rw [joinBranches_cons_cons]
      exact noExtend_comma front (ih others)

theorem opensExtend_front (opens : opensExtend tokens = true) : opensExtend (tokens ++ rest) = true := by
  rcases tokens with _ | ⟨first, _ | ⟨second, tokens⟩⟩
  all_goals simp_all [opensExtend, headText?, headIs, headKind?]

theorem noExtend_front (extends_ : noExtend (tokens ++ rest) = true) : noExtend tokens = true := by
  induction tokens with
  | nil => rfl
  | cons token tokens ih =>
    rw [cons_append, noExtend, Bool.and_eq_true, Bool.not_eq_true'] at extends_
    rw [noExtend, ih extends_.2, Bool.and_true, Bool.not_eq_true', Bool.eq_false_iff]
    intro both
    rw [Bool.and_eq_true] at both
    rw [both.1, opensExtend_front both.2] at extends_
    cases extends_.1

/-! ### What is read again -/

theorem opensExtend_canonical (proper : Proper tokens) : opensExtend tokens.canonical = opensExtend tokens := by
  rcases tokens with _ | ⟨first, tokens⟩
  · rfl
  · have solid : "extend".toList.all Text.isBlank = false := rfl
    have same := Token.text_canonical_iff (proper first mem_cons_self) solid
    have next : headIs (canonical tokens) .parenOpen = headIs tokens .parenOpen := by
      cases tokens <;> rfl
    rw [Bool.eq_iff_iff]
    simp [opensExtend, headText?, same, next]

theorem noExtend_canonical (proper : Proper tokens) : noExtend tokens.canonical = noExtend tokens := by
  induction tokens with
  | nil => rfl
  | cons token rest ih =>
    have others := (forall_mem_cons.mp proper).2
    rw [canonical_cons, noExtend, noExtend, ih others, opensExtend_canonical others, Token.kind_canonical]

theorem noGuard_canonical (tokens : Tokens) : noGuard tokens.canonical = noGuard tokens := by
  rw [noGuard, canonical, all_map]
  refine all_congr rfl fun token => ?_
  by_cases word : token.kind = .identifier
  · simp [word, Token.text_canonical]
  · have other : (token.kind == .identifier) = false := beq_eq_false_iff_ne.mpr word
    simp [other]

theorem Kept.of_canonical (kept : Kept named pointed tokens) {others : Tokens}
    (same : others.canonical = tokens.canonical) (proper : Proper tokens) (proper' : Proper others)
    (plain : ∀ token ∈ tokens, token.kind ≠ .atKeyword) : Kept named pointed others := by
  have kind_eq {token token' : Token} (same : token'.canonical = token.canonical) : token'.kind = token.kind := by
    rw [← Token.kind_canonical token', same, Token.kind_canonical]
  induction kept generalizing others with
  | nil =>
    cases map_eq_nil_iff.mp same
    exact .nil
  | @step named pointed token rest free _ ih =>
    obtain ⟨token', rest', rfl, first, same⟩ := map_eq_cons_iff.mp same
    have ends : endsName pointed token' = endsName pointed token := by rw [endsName, endsName, kind_eq first]
    have point : token'.isMark "." = token.isMark "." := by
      rw [← Token.isMark_canonical token', first, Token.isMark_canonical]
    refine .step (by rw [kind_eq first]; exact free) ?_
    rw [ends, point]
    exact ih same (forall_mem_cons.mp proper).2 (forall_mem_cons.mp proper').2 (forall_mem_cons.mp plain).2
  | @group pointed token close inner rest opens closes whole none_ _ ih =>
    obtain ⟨token', tail, rfl, first, same⟩ := map_eq_cons_iff.mp same
    -- The other tokens have a group in the same place, and it is no list of parameters either.
    have taken : (takeGroup? 0 tail).map (fun group => (canonical group.1, canonical group.2)) =
        some (canonical inner, canonical rest) := by
      rw [← takeGroup?_canonical, canonical, same]
      exact (takeGroup?_canonical 0 (inner ++ close :: rest)).trans (by rw [whole]; rfl)
    obtain ⟨⟨inner', rest'⟩, taken', alike⟩ := Option.map_eq_some_iff.mp taken
    obtain ⟨alikeInner, alikeRest⟩ := Prod.mk.inj alike
    obtain ⟨close', closes', rfl⟩ := exists_of_takeGroup? taken'
    refine .group ((kind_eq first).trans opens) closes' taken' ?_ (ih alikeRest ?_ ?_ ?_)
    · have properInner : Proper inner := fun token member => proper token (by simp [member])
      have properInner' : Proper inner' := fun token member => proper' token (by simp [member])
      have plainInner (token : Token) (member : token ∈ inner) : token.kind ≠ .atKeyword := plain token (by simp [member])
      have plainInner' (token : Token) (member : token ∈ inner') : token.kind ≠ .atKeyword := by
        have member' := mem_map_of_mem (f := Token.canonical) member
        rw [show inner'.map Token.canonical = inner.map Token.canonical from alikeInner] at member'
        obtain ⟨other, inside, same⟩ := mem_map.mp member'
        rw [← kind_eq same]
        exact plainInner other inside
      have alike' : canonical inner' = canonical inner := alikeInner
      rw [← Option.not_isSome_iff_eq_none, ← isSome_readParameters_canonical properInner' plainInner', alike',
        isSome_readParameters_canonical properInner plainInner, none_]
      exact Bool.false_ne_true
    · exact fun token member => proper token (by simp [member])
    · exact fun token member => proper' token (by simp [member])
    · exact fun token member => plain token (by simp [member])

end Selector

end LessCss
