import LessCss.Extension
import LessCss.Token.Scan
import Mathlib.Data.List.Forall2

/-! Runs of tokens that are replaced in a branch. Main statement: there is one way to cut a branch at
runs that agree with a target such that each of them is the first one behind the run before it, and
these are the runs that are replaced. -/

set_option autoImplicit false

namespace LessCss

open List

/-- Both tokens are blank, or they have the same kind and the same text. -/
def Token.Agrees (token aimed : Token) : Prop :=
  (token.kind ∈ [.whitespace, .comment] ∧ aimed.kind ∈ [.whitespace, .comment]) ∨
    (token.kind = aimed.kind ∧ token.text = aimed.text)

instance : DecidableRel Token.Agrees := fun _ _ => inferInstanceAs (Decidable (_ ∨ _))

theorem Token.agrees_iff {token aimed : Token} : token.agrees aimed = true ↔ token.Agrees aimed := by
  simp [agrees, Agrees, same, Token.isBlank, Kind.isBlank]

namespace Tokens

variable {target branch run tokens : Tokens} {position : Nat}

/-! ### Where a target occurs -/

def Agree (tokens target : Tokens) : Prop := List.Forall₂ Token.Agrees tokens target

/-- A run from this position on agrees with the target, and all of it stands in the branch. -/
def OccursAt (target branch : Tokens) (position : Nat) : Prop :=
  ∃ run after, branch.drop position = run ++ after ∧ Agree run target

theorem startsWith_iff : startsWith target tokens = true ↔ ∃ run after, tokens = run ++ after ∧ Agree run target := by
  induction target generalizing tokens with
  | nil => exact ⟨fun _ => ⟨[], tokens, rfl, .nil⟩, fun _ => rfl⟩
  | cons aimed target ih =>
    cases tokens with
    | nil =>
      constructor
      · intro starts
        cases starts
      · rintro ⟨run, after, whole, agree⟩
        obtain ⟨rfl, rfl⟩ := append_eq_nil_iff.mp whole.symm
        cases agree
    | cons token tokens =>
      rw [startsWith, Bool.and_eq_true, ih]
      constructor
      · rintro ⟨first, run, after, rfl, agree⟩
        exact ⟨token :: run, after, rfl, .cons (Token.agrees_iff.mp first) agree⟩
      · rintro ⟨run, after, whole, agree⟩
        obtain ⟨token, run, first, others, rfl⟩ := forall₂_cons_right_iff.mp agree
        obtain ⟨rfl, rest⟩ := List.cons.inj whole
        exact ⟨Token.agrees_iff.mpr first, run, after, rest, others⟩

theorem occursAt_zero_iff : OccursAt target branch 0 ↔ startsWith target branch = true := by
  rw [startsWith_iff, OccursAt, drop_zero]

theorem occursAt_succ_iff {token : Token} : OccursAt target (token :: tokens) (position + 1) ↔
    OccursAt target tokens position :=
  Iff.rfl

theorem occursAt_length {before after : Tokens} (agree : Agree run target) :
    OccursAt target (before ++ (run ++ after)) before.length :=
  ⟨run, after, drop_left, agree⟩

theorem not_occursAt_nil (filled : target ≠ []) (position : Nat) : ¬OccursAt target [] position := by
  rintro ⟨run, after, whole, agree⟩
  rw [drop_nil] at whole
  obtain ⟨rfl, rfl⟩ := append_eq_nil_iff.mp whole.symm
  exact filled (forall₂_nil_left_iff.mp agree)

/-- The search finds the first place where the target occurs. -/
theorem indexOf?_eq_some_iff (filled : target ≠ []) {index : Nat} : indexOf? target branch = some index ↔
    OccursAt target branch index ∧ ∀ earlier < index, ¬OccursAt target branch earlier := by
  induction branch generalizing index with
  | nil => simp [indexOf?, not_occursAt_nil filled]
  | cons token tokens ih =>
    rw [indexOf?]
    split
    · rename_i starts
      rw [← occursAt_zero_iff] at starts
      constructor
      · rintro ⟨⟩
        exact ⟨starts, nofun⟩
      · rintro ⟨_, first⟩
        cases index with
        | zero => rfl
        | succ index => exact absurd starts (first 0 (Nat.succ_pos index))
    · rename_i missed
      rw [← occursAt_zero_iff] at missed
      -- The target does not start here, so the first place behind is the first place at all.
      cases index with
      | zero => simp [missed]
      | succ index =>
        rw [occursAt_succ_iff]
        constructor
        · intro found
          obtain ⟨there, first⟩ := ih.mp (by simpa using found)
          refine ⟨there, ?_⟩
          intro earlier before
          cases earlier with
          | zero => exact missed
          | succ earlier => exact first earlier (Nat.lt_of_succ_lt_succ before)
        · rintro ⟨there, first⟩
          have found := ih.mpr ⟨there, fun earlier before => first (earlier + 1) (Nat.succ_lt_succ before)⟩
          simp [found]

theorem indexOf?_eq_none_iff (filled : target ≠ []) : indexOf? target branch = none ↔
    ∀ position, ¬OccursAt target branch position := by
  constructor
  · intro none_ position
    induction position using Nat.strongRecOn with
    | ind position earlier =>
      intro there
      cases none_.symm.trans ((indexOf?_eq_some_iff filled).mpr ⟨there, earlier⟩)
  · intro absent
    cases found : indexOf? target branch with
    | none => rfl
    | some index => exact absurd ((indexOf?_eq_some_iff filled).mp found).1 (absent index)

theorem indexOfFrom?_eq_self_iff (filled : target ≠ []) : indexOfFrom? target branch position = some position ↔
    OccursAt target branch position := by
  have zero : indexOf? target (branch.drop position) = some 0 ↔ OccursAt target branch position := by
    rw [indexOf?_eq_some_iff filled]
    exact and_iff_left nofun
  rw [indexOfFrom?, if_neg (mt List.isEmpty_iff.mp filled), ← zero]
  cases indexOf? target (branch.drop position) with
  | none => simp
  | some index => simp

/-! ### Cutting a branch at the runs -/

/-- A branch that is cut at some runs: each run behind what stands before it, and what is left behind
the last one. -/
structure Cutting where
  runs : List (Tokens × Tokens)
  rest : Tokens

namespace Cutting

def whole (cutting : Cutting) : Tokens := cutting.runs.flatMap (fun cut => cut.1 ++ cut.2) ++ cutting.rest

def replaced (cutting : Cutting) (replacement : Tokens) : Tokens :=
  cutting.runs.flatMap (fun cut => cut.1 ++ replacement) ++ cutting.rest

/-- Each run agrees with the target, and the target occurs nowhere between the end of the run before
and the place where it begins, nor behind the last run. -/
inductive Leftmost (target : Tokens) : Tokens → Cutting → Prop where
  | none {branch : Tokens} (absent : ∀ position, ¬OccursAt target branch position) : Leftmost target branch ⟨[], branch⟩
  | next {branch before run after rest : Tokens} {runs : List (Tokens × Tokens)} (parts : branch = before ++ (run ++ after))
      (agree : Agree run target) (first : ∀ position < before.length, ¬OccursAt target branch position)
      (later : Leftmost target after ⟨runs, rest⟩) : Leftmost target branch ⟨(before, run) :: runs, rest⟩

namespace Leftmost

variable {cutting other : Cutting}

theorem whole_eq (leftmost : Leftmost target branch cutting) : cutting.whole = branch := by
  induction leftmost with
  | none => rfl
  | next parts _ _ _ ih =>
    rw [parts, ← ih]
    simp [whole]

/-- A token where the target does not occur stands before the first run. -/
theorem cons {token : Token} (missed : ¬OccursAt target (token :: tokens) 0) (leftmost : Leftmost target tokens cutting) :
    ∃ longer, Leftmost target (token :: tokens) longer ∧
      ∀ replacement, longer.replaced replacement = token :: cutting.replaced replacement := by
  cases leftmost with
  | none absent =>
    refine ⟨⟨[], token :: tokens⟩, .none ?_, fun replacement => rfl⟩
    intro position
    cases position with
    | zero => exact missed
    | succ position => exact absent position
  | @next _ before run after rest runs parts agree first later =>
    refine ⟨⟨(token :: before, run) :: runs, rest⟩, .next (congrArg (token :: ·) parts) agree ?_ later, fun replacement => rfl⟩
    intro position inside
    cases position with
    | zero => exact missed
    | succ position => exact first position (Nat.lt_of_succ_lt_succ inside)

/-- Two cuttings have their first runs at the same place, and so on behind them. -/
theorem unique (leftmost : Leftmost target branch cutting) (leftmost' : Leftmost target branch other) :
    other = cutting := by
  induction leftmost generalizing other with
  | none absent =>
    cases leftmost' with
    | none => rfl
    | next parts agree => exact absurd (parts ▸ occursAt_length agree) (absent _)
  | @next branch before run after rest runs parts agree first later ih =>
    cases leftmost' with
    | none absent => exact absurd (parts ▸ occursAt_length agree) (absent _)
    | @next _ before' run' after' rest' runs' parts' agree' first' later' =>
      have start : before'.length = before.length := by
        rcases Nat.lt_trichotomy before'.length before.length with less | same | more
        · exact absurd (parts' ▸ occursAt_length agree') (first _ less)
        · exact same
        · exact absurd (parts ▸ occursAt_length agree) (first' _ more)
      have size : run'.length = run.length := agree'.length_eq.trans agree.length_eq.symm
      obtain ⟨rfl, behind⟩ := append_inj (parts'.symm.trans parts) start
      obtain ⟨rfl, rfl⟩ := append_inj behind size
      cases ih later'
      rfl

end Leftmost

end Cutting

end Tokens

namespace Extension

open Tokens

variable {target : Tokens} (filled : target ≠ [])

/-! ### Replacing without indices -/

/-- The target is compared with what is left of the branch, instead of being searched from an index on. -/
def runsReplaced (target replacement : Tokens) (tokens : Tokens) : Tokens :=
  match tokens with
  | [] => []
  | token :: rest =>
    if startsWith target (token :: rest) then
      replacement ++ runsReplaced target replacement (rest.drop (target.length - 1))
    else token :: runsReplaced target replacement rest
termination_by tokens.length
decreasing_by
  · simp only [length_drop, length_cons]; omega
  · simp only [length_cons]; omega

include filled

theorem matchesAt_eq (branch : Tokens) (index : Nat) :
    matchesAt target branch index = startsWith target (branch.drop index) := by
  rw [Bool.eq_iff_iff, matchesAt, beq_iff_eq, indexOfFrom?_eq_self_iff filled, OccursAt, startsWith_iff]

theorem replaceFrom_eq (replacement branch : Tokens) (index : Nat) :
    replaceFrom target replacement branch index = runsReplaced target replacement (branch.drop index) := by
  have left {index : Nat} {token : Token} (here : branch[index]? = some token) :
      branch.drop index = token :: branch.drop (index + 1) := by
    obtain ⟨inside, rfl⟩ := List.getElem?_eq_some_iff.mp here
    exact drop_eq_getElem_cons inside
  fun_induction replaceFrom target replacement branch index with
  | case1 index past => rw [drop_eq_nil_of_le (List.getElem?_eq_none_iff.mp past), runsReplaced]
  | case2 index token here found ih =>
    have behind : index + 1 + (target.length - 1) = index + target.length := by
      have := length_pos_iff.mpr filled
      omega
    rw [matchesAt_eq filled, left here] at found
    rw [left here, runsReplaced, if_pos found, ih, drop_drop, behind]
  | case3 index token here missed ih =>
    rw [matchesAt_eq filled, left here] at missed
    rw [left here, runsReplaced, if_neg missed, ih]

theorem replaceRuns_eq (replacement branch : Tokens) :
    replaceRuns target replacement branch = runsReplaced target replacement branch :=
  replaceFrom_eq filled replacement branch 0

theorem indexOfFrom?_zero (branch : Tokens) : indexOfFrom? target branch 0 = indexOf? target branch := by
  rw [indexOfFrom?, if_neg (mt List.isEmpty_iff.mp filled)]
  exact Option.map_id_apply ..

omit filled in
/-- A branch is taken as it stands, and no index is kept. -/
theorem applyBranch_eq {extension : Extension} (filled : extension.target ≠ []) (branch : Tokens) :
    extension.applyBranch branch =
      if extension.all then
        if (indexOf? extension.target branch).isNone then []
        else extension.selector.branches.map fun added => runsReplaced extension.target added branch
      else if branch.length = extension.target.length && startsWith extension.target branch then
        extension.selector.branches
      else [] := by
  simp only [applyBranch, indexOfFrom?_zero filled, replaceRuns_eq filled, matchesAt_eq filled, drop_zero]

/-! ### The runs of a cutting -/

/-- The runs that are replaced are those of a cutting. -/
theorem exists_leftmost (replacement branch : Tokens) : ∃ cutting,
    Cutting.Leftmost target branch cutting ∧ replaceRuns target replacement branch = cutting.replaced replacement := by
  rw [replaceRuns_eq filled]
  fun_induction runsReplaced target replacement branch with
  | case1 => exact ⟨⟨[], []⟩, .none (not_occursAt_nil filled), rfl⟩
  | case2 token rest starts ih =>
    obtain ⟨run, after, parts, agree⟩ := startsWith_iff.mp starts
    obtain ⟨cutting, leftmost, same⟩ := ih
    -- Both ends of the run are known: the next search begins where it stops.
    have behind : rest.drop (target.length - 1) = after := by
      obtain ⟨aimed, others, rfl⟩ := exists_cons_of_ne_nil filled
      change (token :: rest).drop (aimed :: others).length = after
      rw [parts]
      exact drop_left' agree.length_eq
    refine ⟨⟨([], run) :: cutting.runs, cutting.rest⟩, .next parts agree nofun (behind ▸ leftmost), ?_⟩
    rw [same]
    simp [Cutting.replaced]
  | case3 token rest starts ih =>
    obtain ⟨cutting, leftmost, same⟩ := ih
    obtain ⟨longer, leftmost', put⟩ := leftmost.cons (mt occursAt_zero_iff.mp starts)
    exact ⟨longer, leftmost', by rw [put, same]⟩

/-- A branch is cut in one way at the first runs that agree with the target and do not overlap, and
these runs are replaced. There are none if and only if the search for the target finds nothing. -/
theorem leftmost_runs_replaced (replacement branch : Tokens) : ∃ cutting : Cutting,
    Cutting.Leftmost target branch cutting ∧ (∀ other, Cutting.Leftmost target branch other → other = cutting) ∧
    cutting.whole = branch ∧ replaceRuns target replacement branch = cutting.replaced replacement ∧
    (cutting.runs = [] ↔ indexOfFrom? target branch 0 = none) ∧
    ∀ position, OccursAt target branch position ↔ indexOfFrom? target branch position = some position := by
  obtain ⟨cutting, leftmost, same⟩ := exists_leftmost filled replacement branch
  have search : indexOfFrom? target branch 0 = none ↔ ∀ position, ¬OccursAt target branch position := by
    rw [← indexOf?_eq_none_iff filled, indexOfFrom?_zero filled]
  refine ⟨cutting, leftmost, fun _ => leftmost.unique, leftmost.whole_eq, same, ?_, ?_⟩
  · rw [search]
    cases leftmost with
    | none absent => exact iff_of_true rfl absent
    | next parts agree => exact iff_of_false nofun fun absent => absent _ (parts ▸ occursAt_length agree)
  · exact fun position => (indexOfFrom?_eq_self_iff filled).symm

omit filled

def twoNames : Tokens := (Scan.ofText "in" ".a .a").tokens

def threeNames : Tokens := (Scan.ofText "in" ".a/**/.a .a").tokens

/-- The comment agrees with the space of the target, and the last name is left over. -/
theorem threeNames_replaced : twoNames ≠ [] ∧ OccursAt twoNames threeNames 3 ∧ ∃ cutting : Cutting,
    Cutting.Leftmost twoNames threeNames cutting ∧ cutting = ⟨[([], threeNames.take 5)], threeNames.drop 5⟩ ∧
    (threeNames.take 5).map Token.text = [".", "a", "/**/", ".", "a"] ∧
    replaceRuns twoNames [.comma] threeNames = .comma :: threeNames.drop 5 := by
  have filled : twoNames ≠ [] := by decide +kernel
  obtain ⟨cutting, leftmost, only, _, same, _, occurs⟩ := leftmost_runs_replaced filled [.comma] threeNames
  have agree : Agree (threeNames.take 5) twoNames := by
    unfold Agree
    decide +kernel
  have absent : ∀ position, ¬OccursAt twoNames (threeNames.drop 5) position :=
    (indexOf?_eq_none_iff filled).mp (by decide +kernel)
  have cut := only ⟨[([], threeNames.take 5)], threeNames.drop 5⟩
    (.next (take_append_drop 5 threeNames).symm agree nofun (.none absent))
  exact ⟨filled, (occurs 3).mpr (by decide +kernel), cutting, leftmost, cut.symm, by decide +kernel,
    same.trans (cut ▸ rfl)⟩

end Extension

end LessCss
