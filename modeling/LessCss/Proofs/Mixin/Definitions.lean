import LessCss.Compile
import LessCss.Proofs.Mixin.Paths
import LessCss.Proofs.Sheet.SourceOrder

/-! The search for definitions along the path of a call. Main statement: a definition is
found exactly if its path can be spelled ruleset by ruleset from the outside in, where each
ruleset takes the first of its branches that the rest of the path begins with. Where no
branch of a selector begins with another one, that is every way to spell the path. -/

set_option autoImplicit false

namespace LessCss

open List MixinCall

open Tokens

namespace Fragment

def Offers (selector : Tokens) (piece : List Fragment) : Prop :=
  piece ≠ [] ∧ ∃ branch ∈ selector.branches, Spells branch piece

/-- These fragments are spelled by the first branch that spells a beginning of a path. -/
def Picks (selector : Tokens) (path piece : List Fragment) : Prop :=
  ∃ before branch behind, selector.branches = before ++ branch :: behind ∧
    Spells branch piece ∧ piece ≠ [] ∧ piece <+: path ∧
    ∀ other ∈ before, ∀ piece', Spells other piece' → piece' ≠ [] → ¬piece' <+: path

/-- No branch of the selector begins with the fragments of another one. -/
def PrefixFree (selector : Tokens) : Prop :=
  ∀ piece piece', Offers selector piece → Offers selector piece' → piece <+: piece' → piece = piece'

variable {selector : Tokens} {path piece piece' : List Fragment}

namespace Picks

theorem offers (picks : Picks selector path piece) : Offers selector piece := by
  obtain ⟨before, branch, behind, split, spells, filled, _⟩ := picks
  exact ⟨filled, branch, by simp [split], spells⟩

theorem isPrefix (picks : Picks selector path piece) : piece <+: path := by
  obtain ⟨_, _, _, _, _, _, front, _⟩ := picks
  exact front

theorem path_ne_nil (picks : Picks selector path piece) : path ≠ [] := by
  rintro rfl
  exact picks.offers.1 (prefix_nil.mp picks.isPrefix)

end Picks

theorem reach?_eq_none_iff {left : List Fragment} {branch : Tokens} : reach? left branch = none ↔
    ∀ piece, Spells branch piece → piece ≠ [] → ¬piece <+: left := by
  rw [← Option.not_isSome_iff_eq_none, Option.isSome_iff_exists]
  simp only [reach?_eq_some_iff]
  exact ⟨fun none_ piece spells filled front => none_ ⟨_, piece, spells, filled, front, rfl⟩,
    fun none_ ⟨_, piece, spells, filled, front, _⟩ => none_ piece spells filled front⟩

theorem findSome?_reach?_eq_some_iff {count : Nat} : selector.branches.findSome? (reach? path) = some count ↔
    ∃ piece, Picks selector path piece ∧ piece.length = count := by
  simp only [List.findSome?_eq_some_iff, reach?_eq_some_iff, reach?_eq_none_iff]
  constructor
  · rintro ⟨before, branch, behind, split, ⟨piece, spells, filled, front, length⟩, first⟩
    exact ⟨piece, ⟨before, branch, behind, split, spells, filled, front, first⟩, length⟩
  · rintro ⟨piece, ⟨before, branch, behind, split, spells, filled, front, first⟩, length⟩
    exact ⟨before, branch, behind, split, ⟨piece, spells, filled, front, length⟩, first⟩

theorem Picks.unique (picks : Picks selector path piece) (picks' : Picks selector path piece') : piece = piece' := by
  have found := findSome?_reach?_eq_some_iff.mpr ⟨piece, picks, rfl⟩
  have found' := findSome?_reach?_eq_some_iff.mpr ⟨piece', picks', rfl⟩
  have length : piece.length = piece'.length := Option.some.inj (found.symm.trans found')
  exact (prefix_of_prefix_length_le picks.isPrefix picks'.isPrefix length.le).eq_of_length length

/-- Some branch is picked if one spells a beginning of the path. -/
theorem Offers.exists_picks (offers : Offers selector piece) (front : piece <+: path) :
    ∃ piece', Picks selector path piece' := by
  obtain ⟨filled, branch, member, spells⟩ := offers
  cases found : selector.branches.findSome? (reach? path) with
  | some count =>
    obtain ⟨piece', picks, _⟩ := findSome?_reach?_eq_some_iff.mp found
    exact ⟨piece', picks⟩
  | none =>
    have skipped := List.findSome?_eq_none_iff.mp found branch member
    exact absurd front (reach?_eq_none_iff.mp skipped piece spells filled)

/-- Where no branch begins with another one, the order of the branches plays no part. -/
theorem PrefixFree.picks (free : PrefixFree selector) (offers : Offers selector piece) (front : piece <+: path) :
    Picks selector path piece := by
  obtain ⟨piece', picks⟩ := offers.exists_picks front
  have same : piece = piece' := by
    rcases prefix_or_prefix_of_prefix front picks.isPrefix with shorter | longer
    · exact free piece piece' offers picks.offers shorter
    · exact (free piece' piece picks.offers offers longer).symm
  rwa [same]

def pieces (selector : Tokens) : List (List Fragment) :=
  (selector.branches.filterMap ofBranch?).filter fun piece => !piece.isEmpty

theorem mem_pieces_iff : piece ∈ pieces selector ↔ Offers selector piece := by
  simp only [pieces, Offers, mem_filter, mem_filterMap, ofBranch?_eq_some_iff, Bool.not_eq_true',
    isEmpty_eq_false_iff, and_comm]

theorem prefixFree_of_pieces (free : ((pieces selector).all fun piece => (pieces selector).all fun piece' =>
    !piece.isPrefixOf piece' || piece == piece') = true) : PrefixFree selector := by
  intro piece piece' offers offers' front
  have pair := all_eq_true.mp (all_eq_true.mp free piece (mem_pieces_iff.mpr offers)) piece'
    (mem_pieces_iff.mpr offers')
  rw [ isPrefixOf_iff_prefix.mpr front] at pair
  exact beq_iff_eq.mp pair

end Fragment

open Fragment (Spells Offers Picks PrefixFree)

theorem MixinCall.walk_eq_some_iff {call : MixinCall} {selector : Tokens} {offset reached : Nat} :
    call.walk selector offset = some reached ↔
      ∃ piece, Picks selector (call.path.drop offset) piece ∧ offset + piece.length = reached := by
  rw [walk_eq, Option.map_eq_some_iff]
  simp only [Fragment.findSome?_reach?_eq_some_iff]
  exact ⟨fun ⟨_, ⟨piece, picks, length⟩, total⟩ => ⟨piece, picks, length ▸ total⟩,
    fun ⟨piece, picks, total⟩ => ⟨_, ⟨piece, picks, rfl⟩, total⟩⟩

namespace Sheet

variable {sheet : Sheet}

/-- From one ruleset to another there is a way inwards on which each ruleset takes a piece from
the front of a path, until nothing is left of it. -/
inductive Reaches (sheet : Sheet) (takes : (selector : Tokens) → (path piece : List Fragment) → Prop) :
    sheet.Id → List Fragment → sheet.Id → Prop where
  | here {id : sheet.Id} {piece : List Fragment} (taken : takes (sheet.ruleset id).selector.tokens piece piece) :
      Reaches sheet takes id piece id
  | inside {id found : sheet.Id} {child : { child : sheet.Id // id < child }} {piece left : List Fragment}
      (taken : takes (sheet.ruleset id).selector.tokens (piece ++ left) piece) (nested : child ∈ sheet.nested id)
      (deeper : Reaches sheet takes child.val left found) : Reaches sheet takes id (piece ++ left) found

/-- There is a way inwards on which each ruleset has a branch that spells its piece of the path. -/
abbrev Spelled (sheet : Sheet) : sheet.Id → List Fragment → sheet.Id → Prop :=
  Reaches sheet fun selector _ piece => Offers selector piece

/-- Each ruleset takes the first branch that spells a beginning of what is left. -/
abbrev Followed (sheet : Sheet) : sheet.Id → List Fragment → sheet.Id → Prop := Reaches sheet Picks

variable {id found : sheet.Id} {path : List Fragment}

theorem Reaches.spelled (followed : sheet.Followed id path found) : sheet.Spelled id path found := by
  induction followed with
  | here taken => exact .here taken.offers
  | inside taken nested _ ih => exact .inside taken.offers nested ih

theorem Reaches.exists_picks (followed : sheet.Followed id path found) :
    ∃ piece, Picks (sheet.ruleset id).selector.tokens path piece := by
  cases followed with
  | here taken => exact ⟨_, taken⟩
  | inside taken _ _ => exact ⟨_, taken⟩

theorem mem_preorderAt_self (id : sheet.Id) : id ∈ sheet.preorderAt id := by
  rw [preorderAt]
  exact mem_cons_self

theorem preorderAt_subset {child : { child : sheet.Id // id < child }} (nested : child ∈ sheet.nested id) :
    sheet.preorderAt child.val ⊆ sheet.preorderAt id := by
  intro other member
  rw [preorderAt.eq_def sheet id]
  exact mem_cons_of_mem _ (mem_flatMap.mpr ⟨child, nested, member⟩)

theorem Reaches.followed (spelled : sheet.Spelled id path found)
    (free : ∀ inner ∈ sheet.preorderAt id, PrefixFree (sheet.ruleset inner).selector.tokens) :
    sheet.Followed id path found := by
  induction spelled with
  | here taken => exact .here ((free _ (mem_preorderAt_self _)).picks taken prefix_rfl)
  | inside taken nested _ ih =>
    exact .inside ((free _ (mem_preorderAt_self _)).picks taken (prefix_append _ _)) nested
      (ih fun inner member => free inner (preorderAt_subset nested member))

/-- The search finds what can be reached. -/
theorem mem_definitions_iff (call : MixinCall) (offset : Nat) (id : sheet.Id) :
    found ∈ sheet.definitions call offset id ↔ sheet.Followed id (call.path.drop offset) found := by
  fun_induction Sheet.definitions sheet call offset id with
  | case1 offset id astray =>
    -- A way that begins here would pick a branch, and the walk would have taken it.
    refine ⟨fun member => absurd member not_mem_nil, fun followed => ?_⟩
    obtain ⟨piece, picks⟩ := followed.exists_picks
    rw [walk_eq_some_iff.mpr ⟨piece, picks, rfl⟩] at astray
    cases astray
  | case2 offset id along =>
    obtain ⟨piece, picks, total⟩ := walk_eq_some_iff.mp along
    -- What is picked has the length of what is left, so it is all of it.
    have whole : piece = call.path.drop offset := picks.isPrefix.eq_of_length (by rw [length_drop]; omega)
    rw [mem_singleton]
    constructor
    · rintro rfl
      exact .here (whole ▸ picks)
    · intro followed
      generalize split : call.path.drop offset = path at followed
      cases followed with
      | here => rfl
      | @inside _ _ _ piece' left taken _ deeper =>
        have same : piece = piece' := picks.unique (split ▸ taken)
        have empty : left = [] := by simpa [← same, whole] using split.symm
        obtain ⟨_, picks'⟩ := deeper.exists_picks
        exact absurd empty picks'.path_ne_nil
  | case3 offset id reached along incomplete ih =>
    obtain ⟨piece, picks, total⟩ := walk_eq_some_iff.mp along
    obtain ⟨left, split⟩ := picks.isPrefix
    have rest : call.path.drop reached = left := by
      rw [← total, ← drop_drop, ← split, drop_left]
    simp only [mem_flatMap, ih, rest]
    rw [← split] at picks ⊢
    constructor
    · rintro ⟨child, nested, deeper⟩
      exact .inside picks nested deeper
    · intro followed
      generalize same : piece ++ left = path at followed picks
      cases followed with
      | here taken =>
        -- Then the piece would be all that is left, but the walk has not come to the end of the path.
        cases picks.unique taken
        have length := congrArg List.length split
        have filled := length_pos_iff.mpr picks.offers.1
        simp only [same, length_drop] at length
        omega
      | @inside _ _ child piece' left' taken nested deeper =>
        cases picks.unique taken
        cases append_cancel_left same
        exact ⟨child, nested, deeper⟩

theorem definitions_sublist (call : MixinCall) (offset : Nat) (id : sheet.Id) :
    (sheet.definitions call offset id).Sublist (sheet.preorderAt id) := by
  fun_induction Sheet.definitions sheet call offset id with
  | case1 => exact nil_sublist _
  | case2 offset id =>
    rw [preorderAt]
    exact (nil_sublist _).cons_cons id
  | case3 offset id reached along incomplete ih =>
    rw [preorderAt]
    refine List.Sublist.cons _ ?_
    -- Both go through the same nested rulesets in the same order.
    induction sheet.nested id with
    | nil => exact .slnil
    | cons child rest ih' =>
      rw [flatMap_cons, flatMap_cons]
      exact (ih child).append ih'

/-- Whatever was read, and from whichever ruleset the search starts, it finds the definitions to
which a way leads that takes the first branch possible in each ruleset, in the order of the
text and each one once. All of these have the path of the call. They are all that have it if no
branch of the rulesets in which is searched begins with another one. -/
theorem definitions_along_path {source text : String} (read : (Sheet.read source text).outcome.1 = .ok sheet)
    (call : MixinCall) (id : sheet.Id) :
    (∀ found, found ∈ sheet.definitions call 0 id ↔ sheet.Followed id call.path found) ∧
    (∀ found ∈ sheet.definitions call 0 id, sheet.Spelled id call.path found) ∧
    ((∀ inner ∈ sheet.preorderAt id, PrefixFree (sheet.ruleset inner).selector.tokens) →
      ∀ found, sheet.Spelled id call.path found → found ∈ sheet.definitions call 0 id) ∧
    (sheet.definitions call 0 id).Pairwise (· < ·) := by
  have visits := (Draft.Grown.empty.run _ _ _).of_outcome read
  refine ⟨fun found => mem_definitions_iff call 0 id, fun found member => ?_, fun free found spelled => ?_, ?_⟩
  · exact ((mem_definitions_iff call 0 id).mp member).spelled
  · exact (mem_definitions_iff call 0 id).mpr (spelled.followed free)
  · have increasing := pairwise_lt_range.sublist (preorderAt_sublist visits id)
    exact (pairwise_map.mp increasing).sublist (definitions_sublist call 0 id)

def twoWays : String :=
  "#ns \x7b .a, .b > .c \x7b .d \x7b color: red \x7d \x7d .b.c \x7b .d \x7b top: 1px \x7d .e \x7b \x7d \x7d \x7d"

theorem twoWays_found : ∃ (sheet : Sheet) (id : sheet.Id) (call : MixinCall),
    (Sheet.read "in" twoWays).outcome.1 = .ok sheet ∧
    read? (Scan.ofText "in" "#ns > .b.c .d").tokens = some call ∧
    (∀ inner ∈ sheet.preorderAt id, PrefixFree (sheet.ruleset inner).selector.tokens) ∧
    (sheet.definitions call 0 id).map Fin.val = [2, 4] ∧
    ∀ found, found ∈ sheet.definitions call 0 id ↔ sheet.Spelled id call.path found := by
  have checked : ((Sheet.read "in" twoWays).outcome.1.toOption.any fun sheet =>
      (read? (Scan.ofText "in" "#ns > .b.c .d").tokens).any fun call => sheet.roots.any fun id =>
        ((sheet.preorderAt id).all fun inner => (Fragment.pieces (sheet.ruleset inner).selector.tokens).all fun piece =>
          (Fragment.pieces (sheet.ruleset inner).selector.tokens).all fun piece' =>
            !piece.isPrefixOf piece' || piece == piece') &&
        (sheet.definitions call 0 id).map Fin.val == [2, 4]) = true := by
    decide +kernel
  obtain ⟨sheet, read, checked⟩ := (Option.any_eq_true _ _).mp checked
  obtain ⟨call, called, checked⟩ := (Option.any_eq_true _ _).mp checked
  obtain ⟨id, _, checked⟩ := any_eq_true.mp checked
  obtain ⟨free, found⟩ := Bool.and_eq_true_iff.mp checked
  have apart (inner : sheet.Id) (member : inner ∈ sheet.preorderAt id) :=
    Fragment.prefixFree_of_pieces (all_eq_true.mp free inner member)
  obtain ⟨_, sound, complete, _⟩ := definitions_along_path (ok_of_toOption read) call id
  exact ⟨sheet, id, call, ok_of_toOption read, called, apart, beq_iff_eq.mp found,
    fun found => ⟨sound found, complete apart found⟩⟩

def shorterBranchFirst : String :=
  ".a, .a .b \x7b .c \x7b color: red \x7d \x7d .x \x7b .a .b .c; \x7d"

theorem longerBranch_not_found : ∃ (sheet : Sheet) (id found : sheet.Id) (call : MixinCall),
    (Sheet.read defaultSourceName shorterBranchFirst).outcome.1 = .ok sheet ∧
    read? (Scan.ofText "in" ".a .b .c").tokens = some call ∧
    sheet.Spelled id call.path found ∧ sheet.definitions call 0 id = [] ∧
    (compile ⟨false, none⟩ shorterBranchFirst).outcome.1.toOption = none := by
  have checked : ((Sheet.read defaultSourceName shorterBranchFirst).outcome.1.toOption.any fun sheet =>
      (read? (Scan.ofText "in" ".a .b .c").tokens).any fun call => sheet.roots.any fun id =>
        ((sheet.nested id).any fun child => (Fragment.pieces (sheet.ruleset id).selector.tokens).any fun piece =>
          (Fragment.pieces (sheet.ruleset child.val).selector.tokens).any fun piece' =>
            piece ++ piece' == call.path) &&
        (sheet.definitions call 0 id).isEmpty &&
        (compile ⟨false, none⟩ shorterBranchFirst).outcome.1.toOption.isNone) = true := by
    decide +kernel
  obtain ⟨sheet, read, checked⟩ := (Option.any_eq_true _ _).mp checked
  obtain ⟨call, called, checked⟩ := (Option.any_eq_true _ _).mp checked
  obtain ⟨id, _, checked⟩ := any_eq_true.mp checked
  simp only [Bool.and_eq_true, any_eq_true, Fragment.mem_pieces_iff, beq_iff_eq, List.isEmpty_iff,
    Option.isNone_iff_eq_none] at checked
  obtain ⟨⟨⟨child, nested, piece, first, piece', second, path⟩, nothing⟩, fails⟩ := checked
  refine ⟨sheet, id, child.val, call, ok_of_toOption read, called, ?_, nothing, fails⟩
  rw [← path]
  exact .inside first nested (.here second)

end Sheet

end LessCss
