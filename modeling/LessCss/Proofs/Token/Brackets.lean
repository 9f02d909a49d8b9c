import LessCss.Proofs.Token.Cuts

/-! Tokens whose brackets match in number, parentheses and square brackets counted alike.
Main statement: where runs of such tokens are replaced by branches, inside brackets or
outside, a branch stays one branch. -/

set_option autoImplicit false

namespace LessCss.Tokens

open List

variable {separator : String} {depth : Nat} {tokens others : Tokens}

/-- No bracket closes more than was opened, where `depth` brackets are open in front of the tokens. -/
def Covered (depth : Nat) : Tokens → Prop
  | [] => True
  | token :: rest => (token.kind.closes = true → depth ≠ 0) ∧ Covered (token.kind.depthAfter depth) rest

instance decidableCovered : (depth : Nat) → (tokens : Tokens) → Decidable (Covered depth tokens)
  | _, [] => isTrue trivial
  | depth, token :: rest =>
    have := decidableCovered (token.kind.depthAfter depth) rest
    inferInstanceAs (Decidable ((token.kind.closes = true → depth ≠ 0) ∧ Covered (token.kind.depthAfter depth) rest))

structure Bracketed (tokens : Tokens) : Prop where
  covered : Covered 0 tokens
  closed : Closed tokens

instance : Decidable (Bracketed tokens) :=
  decidable_of_iff (Covered 0 tokens ∧ Closed tokens)
    ⟨fun both => ⟨both.1, both.2⟩, fun bracketed => ⟨bracketed.covered, bracketed.closed⟩⟩

theorem covered_append : Covered depth (tokens ++ others) ↔
    Covered depth tokens ∧ Covered (depthAfter depth tokens) others := by
  induction tokens generalizing depth with
  | nil => exact (true_and _).symm ▸ Iff.rfl
  | cons token rest ih =>
    simp only [cons_append, Covered, ih, and_assoc]
    rfl

/-! ### Deeper inside brackets -/

theorem depthAfter_add_of_open {kind : Kind} (covered : kind.closes = true → depth ≠ 0) (more : Nat) :
    kind.depthAfter (depth + more) = kind.depthAfter depth + more := by
  unfold Kind.depthAfter
  split
  · omega
  · split
    · rename_i closes
      have := covered closes
      omega
    · rfl

theorem Covered.depthAfter_add (covered : Covered depth tokens) (more : Nat) :
    depthAfter (depth + more) tokens = depthAfter depth tokens + more := by
  induction tokens generalizing depth with
  | nil => rfl
  | cons token rest ih =>
    change depthAfter (token.kind.depthAfter (depth + more)) rest = depthAfter (token.kind.depthAfter depth) rest + more
    rw [depthAfter_add_of_open covered.1, ih covered.2]

theorem Covered.add (covered : Covered depth tokens) (more : Nat) : Covered (depth + more) tokens := by
  induction tokens generalizing depth with
  | nil => trivial
  | cons token rest ih =>
    refine ⟨fun closes => ?_, ?_⟩
    · have := covered.1 closes
      omega
    · rw [depthAfter_add_of_open covered.1]
      exact ih covered.2

theorem Covered.uncut_add (covered : Covered depth tokens) (uncut : Uncut separator depth tokens) (more : Nat) :
    Uncut separator (depth + more) tokens := by
  induction tokens generalizing depth with
  | nil => trivial
  | cons token rest ih =>
    refine ⟨?_, ?_⟩
    · have first := uncut.1
      rw [Bool.and_eq_false_iff, decide_eq_false_iff_not] at first ⊢
      exact first.imp_left fun inside => by omega
    · rw [depthAfter_add_of_open covered.1]
      exact ih covered.2 uncut.2

namespace Bracketed

theorem depthAfter_eq (bracketed : Bracketed tokens) (depth : Nat) : depthAfter depth tokens = depth := by
  have level := bracketed.covered.depthAfter_add depth
  rwa [bracketed.closed, Nat.zero_add] at level

theorem covered_at (bracketed : Bracketed tokens) (depth : Nat) : Covered depth tokens := by
  have inside := bracketed.covered.add depth
  rwa [Nat.zero_add] at inside

theorem append (first : Bracketed tokens) (second : Bracketed others) : Bracketed (tokens ++ others) := by
  refine ⟨covered_append.mpr ⟨first.covered, ?_⟩, ?_⟩
  · rw [first.closed]
    exact second.covered
  · rw [Closed, depthAfter_append, first.closed]
    exact second.closed

theorem joinBranches {list : List Tokens} (each : ∀ branch ∈ list, Bracketed branch) :
    Bracketed (joinBranches list) := by
  induction list with
  | nil => exact ⟨trivial, rfl⟩
  | cons first rest ih =>
    obtain ⟨one, others⟩ := forall_mem_cons.mp each
    cases rest with
    | nil => rwa [joinBranches_singleton]
    | cons second rest =>
      have marks : Bracketed [Token.comma, Token.space] := by decide
      rw [joinBranches_cons_cons]
      exact one.append (marks.append (ih others))

end Bracketed

/-! ### Branches -/

/-- What cutting at commas can give where brackets match. -/
structure IsBranch (branch : Tokens) : Prop extends IsPart "," branch where
  covered : Covered 0 branch

namespace IsBranch

variable {branch : Tokens}

theorem bracketed (whole : IsBranch branch) : Bracketed branch := ⟨whole.covered, whole.closed⟩

/-- No comma of a branch stands outside brackets, wherever the branch is put. -/
theorem uncut_at (whole : IsBranch branch) (depth : Nat) : Uncut "," depth branch := by
  have inside := whole.covered.uncut_add whole.uncut depth
  rwa [Nat.zero_add] at inside

end IsBranch

theorem covered_trim (covered : Covered depth tokens) : Covered depth (trim tokens) := by
  obtain ⟨before, after, blank, _, same⟩ := exists_trim tokens
  rw [same, covered_append, covered_append, depthAfter_of_blank blank] at covered
  exact covered.1.2

theorem covered_of_mem_stretches (covered : Covered depth tokens) :
    ∃ first rest, stretches separator depth tokens = first :: rest ∧ Covered depth first ∧
      ∀ part ∈ rest, Covered 0 part := by
  induction tokens generalizing depth with
  | nil => exact ⟨[], [], rfl, trivial, forall_mem_nil _⟩
  | cons token others ih =>
    obtain ⟨first, rest, same, whole, each⟩ := ih covered.2
    rw [stretches]
    -- Only the first stretch can begin inside brackets: a cut is made where none is open.
    cases cut : (depth = 0 && separates separator token : Bool) with
    | true =>
      obtain ⟨rfl, marks⟩ : depth = 0 ∧ separates separator token = true := by simpa using cut
      rw [depthAfter_of_separates marks] at same whole
      rw [if_pos rfl, same]
      exact ⟨[], first :: rest, rfl, trivial, forall_mem_cons.mpr ⟨whole, each⟩⟩
    | false =>
      rw [if_neg Bool.false_ne_true, same]
      exact ⟨token :: first, rest, rfl, ⟨covered.1, whole⟩, each⟩

theorem isBranch_of_mem_branches (bracketed : Bracketed tokens) {branch : Tokens} (member : branch ∈ branches tokens) :
    IsBranch branch := by
  obtain ⟨first, rest, same, whole, each⟩ := @covered_of_mem_stretches "," _ _ bracketed.covered
  obtain ⟨stretch, inside, trimmed⟩ := mem_map.mp (mem_filter.mp member).1
  refine ⟨isPart_of_mem_branches bracketed.closed member, ?_⟩
  rw [← trimmed]
  apply covered_trim
  rw [same] at inside
  rcases mem_cons.mp inside with rfl | inside
  · exact whole
  · exact each stretch inside

/-! ### Replaced runs -/

/-- Runs with matching brackets are replaced by branches, and all other tokens are kept. -/
inductive Spliced : Tokens → Tokens → Prop where
  | nil : Spliced [] []
  | keep (token : Token) {before after : Tokens} (rest : Spliced before after) : Spliced (token :: before) (token :: after)
  | replace {run branch before after : Tokens} (bracketed : Bracketed run) (whole : IsBranch branch)
      (rest : Spliced before after) : Spliced (run ++ before) (branch ++ after)

namespace Spliced

variable {before after : Tokens}

section

variable (spliced : Spliced before after)

include spliced

/-- The brackets around each place stay the same, so that nothing is cut or merged. -/
theorem levels (covered : Covered depth before) (uncut : Uncut "," depth before) :
    Covered depth after ∧ Uncut "," depth after ∧ depthAfter depth after = depthAfter depth before := by
  induction spliced generalizing depth with
  | nil => exact ⟨trivial, trivial, rfl⟩
  | keep token rest ih =>
    obtain ⟨covered', uncut', level⟩ := ih covered.2 uncut.2
    exact ⟨⟨covered.1, covered'⟩, ⟨uncut.1, uncut'⟩, level⟩
  | replace bracketed whole rest ih =>
    -- Behind the run as behind the branch, as many brackets are open as in front of it.
    have same := bracketed.depthAfter_eq depth
    have same' := whole.bracketed.depthAfter_eq depth
    rw [covered_append, same] at covered
    rw [uncut_append, same] at uncut
    obtain ⟨covered', uncut', level⟩ := ih covered.2 uncut.2
    rw [covered_append, uncut_append, depthAfter_append, depthAfter_append, same, same']
    exact ⟨⟨whole.bracketed.covered_at depth, covered'⟩, ⟨whole.uncut_at depth, uncut'⟩, level⟩

theorem head_solid (solid : ∀ token, before.head? = some token → token.isBlank = false)
    {token : Token} (found : after.head? = some token) : token.isBlank = false := by
  cases spliced with
  | nil => cases found
  | keep first rest => exact solid token found
  | replace bracketed whole rest =>
    obtain ⟨first, others, rfl⟩ := exists_cons_of_ne_nil whole.ne_nil
    exact head_of_trim whole.trimmed found

theorem eq_nil (empty : after = []) : before = [] := by
  cases spliced with
  | nil => rfl
  | keep token rest => cases empty
  | replace bracketed whole rest => exact absurd (append_eq_nil_iff.mp empty).1 whole.ne_nil

theorem last_solid
    (solid : ∀ token, before.getLast? = some token → token.isBlank = false) {token : Token}
    (found : after.getLast? = some token) : token.isBlank = false := by
  induction spliced with
  | nil => cases found
  | @keep first before after rest ih =>
    cases after with
    | nil =>
      rw [rest.eq_nil rfl] at solid
      exact solid token found
    | cons second after =>
      refine ih (fun token ends => solid token ?_) (by simpa using found)
      rw [List.getLast?_cons, ends]
      rfl
  | @replace run branch before after bracketed whole rest ih =>
    cases after with
    | nil =>
      rw [append_nil] at found
      exact getLast_of_trim whole.trimmed found
    | cons second after =>
      refine ih (fun token ends => solid token ?_) (by simpa using found)
      rw [List.getLast?_append, ends]
      rfl

theorem isBranch (whole : IsBranch before) : IsBranch after := by
  obtain ⟨covered, uncut, level⟩ := spliced.levels whole.covered whole.uncut
  have trimmed : trim after = after := trim_eq_self
    (fun _ => spliced.head_solid fun _ => head_of_trim whole.trimmed)
    fun _ => spliced.last_solid fun _ => getLast_of_trim whole.trimmed
  exact ⟨⟨trimmed, fun empty => whole.ne_nil (spliced.eq_nil empty), level.trans whole.closed, uncut⟩, covered⟩

end

end Spliced

end LessCss.Tokens
