import LessCss.Proofs.Token.Nested

/-! Where the branches of a list of tokens stand in it: outside brackets, with commas and
blanks around them. -/

set_option autoImplicit false

namespace LessCss.Tokens

open List

variable {tokens : Tokens} {depth : Nat}

def isGap (token : Token) : Bool := token.isBlank || separates "," token

theorem kind_of_isGap {token : Token} (gap : isGap token = true) :
    token.kind.opens = false ∧ token.kind.closes = false := by
  rcases (Bool.or_eq_true _ _).mp gap with blank | comma
  · exact kind_of_blank blank
  · rw [separates, Bool.and_eq_true] at comma
    unfold Kind.opens Kind.closes
    cases kind : token.kind <;> simp_all

theorem depthAfter_of_isGap {token : Token} (gap : isGap token = true) (depth : Nat) :
    token.kind.depthAfter depth = depth := by
  obtain ⟨opens, closes⟩ := kind_of_isGap gap
  simp [Kind.depthAfter, opens, closes]

theorem depthAfter_of_gaps (gaps : ∀ token ∈ tokens, isGap token = true) (depth : Nat) :
    depthAfter depth tokens = depth := by
  induction tokens with
  | nil => rfl
  | cons token rest ih =>
    obtain ⟨first, others⟩ := forall_mem_cons.mp gaps
    change depthAfter (token.kind.depthAfter depth) rest = depth
    rw [depthAfter_of_isGap first, ih others]

theorem isGap_of_blank {token : Token} (blank : token.isBlank = true) : isGap token = true := by
  rw [isGap, blank]
  rfl

theorem blank_of_trim (none_ : trim tokens = []) : Blank tokens := by
  obtain ⟨before, after, blank, blank', same⟩ := exists_trim tokens
  rw [same, none_, append_nil]
  intro token member
  exact (mem_append.mp member).elim (blank token) (blank' token)

theorem trimLeft_of_blank (blank : Blank tokens) : trimLeft tokens = [] := by
  have gone : List.dropWhile Token.isBlank (tokens ++ []) = List.dropWhile Token.isBlank [] :=
    dropWhile_append_of_pos blank
  rwa [append_nil] at gone

/-! ### Stretches -/

/-- The first stretch and what follows it. -/
theorem exists_of_stretches {separator : String} {first : Tokens} {others : List Tokens}
    (found : stretches separator depth tokens = first :: others) : first = tokens ∧ others = [] ∨
      ∃ mark rest, tokens = first ++ mark :: rest ∧ separates separator mark = true ∧ depthAfter depth first = 0 ∧
        others = stretches separator 0 rest := by
  induction tokens generalizing depth first with
  | nil =>
    cases found
    exact .inl ⟨rfl, rfl⟩
  | cons token rest ih =>
    rw [stretches] at found
    split at found
    · rename_i cut
      rw [Bool.and_eq_true, decide_eq_true_iff] at cut
      cases found
      exact .inr ⟨token, rest, rfl, cut.2, cut.1, rfl⟩
    · obtain ⟨first', others', same⟩ := exists_cons_of_ne_nil
        (stretches_ne_nil separator (token.kind.depthAfter depth) rest)
      rw [same] at found
      cases found
      rcases ih same with ⟨rfl, rfl⟩ | ⟨mark, rest', rfl, marks, level, rfl⟩
      · exact .inl ⟨rfl, rfl⟩
      · exact .inr ⟨mark, rest', rfl, marks, level, rfl⟩

theorem isGap_of_separates {token : Token} (comma : separates "," token = true) : isGap token = true := by
  rw [isGap, comma, Bool.or_true]

def Inside (tokens part : Tokens) : Prop := ∃ before after, tokens = before ++ part ++ after ∧ depthAfter 0 before = 0

theorem Inside.prepend {front part : Tokens} {mark : Token} (inside : Inside tokens part) (level : depthAfter 0 front = 0)
    (gap : isGap mark = true) : Inside (front ++ mark :: tokens) part := by
  obtain ⟨before, after, rfl, level'⟩ := inside
  refine ⟨front ++ mark :: before, after, by simp, ?_⟩
  rw [depthAfter_append, level]
  change depthAfter (mark.kind.depthAfter 0) before = 0
  rw [depthAfter_of_isGap gap, level']

theorem Inside.trim {part : Tokens} (inside : Inside tokens part) : Inside tokens (trim part) := by
  obtain ⟨before, after, rfl, level⟩ := inside
  obtain ⟨front, back, blank, _, same⟩ := exists_trim part
  refine ⟨before ++ front, back ++ after, ?_, by rw [depthAfter_append, level, depthAfter_of_blank blank]⟩
  conv => lhs; rw [same]
  simp

theorem inside_of_mem_stretches {stretch : Tokens} (member : stretch ∈ stretches "," 0 tokens) : Inside tokens stretch := by
  induction length : tokens.length using Nat.strongRecOn generalizing tokens with
  | ind n ih =>
    obtain ⟨first, others, same⟩ := exists_cons_of_ne_nil (stretches_ne_nil "," 0 tokens)
    rw [same] at member
    rcases exists_of_stretches same with ⟨rfl, rfl⟩ | ⟨mark, rest, rfl, comma, level, rfl⟩
    · cases mem_singleton.mp member
      exact ⟨[], [], by simp, rfl⟩
    · rcases mem_cons.mp member with rfl | member
      · exact ⟨[], mark :: rest, by simp, rfl⟩
      · have shorter : rest.length < n := by
          rw [← length, length_append, length_cons]
          omega
        exact (ih rest.length shorter member rfl).prepend level (isGap_of_separates comma)

/-! ### Branches -/

theorem inside_of_mem_branches {branch : Tokens} (member : branch ∈ branches tokens) : Inside tokens branch := by
  obtain ⟨stretch, found, rfl⟩ := mem_map.mp (mem_filter.mp member).1
  exact (inside_of_mem_stretches found).trim

theorem joinBranches_singleton (branch : Tokens) : joinBranches [branch] = branch := by
  simp [joinBranches]

theorem joinBranches_cons_cons (first second : Tokens) (rest : List Tokens) : joinBranches (first :: second :: rest) =
    first ++ (Token.comma :: Token.space :: joinBranches (second :: rest)) := by
  simp [joinBranches, List.intercalate, List.intersperse]

theorem mem_joinBranches {list : List Tokens} {token : Token} (member : token ∈ joinBranches list) :
    token = .comma ∨ token = .space ∨ ∃ branch ∈ list, token ∈ branch := by
  induction list with
  | nil => cases member
  | cons first rest ih =>
    cases rest with
    | nil =>
      rw [joinBranches_singleton] at member
      exact .inr (.inr ⟨first, mem_cons_self, member⟩)
    | cons second rest =>
      rw [joinBranches_cons_cons] at member
      simp only [mem_append, mem_cons] at member
      rcases member with inside | rfl | rfl | inside
      · exact .inr (.inr ⟨first, mem_cons_self, inside⟩)
      · exact .inl rfl
      · exact .inr (.inl rfl)
      · rcases ih inside with comma | space | ⟨branch, found, inside⟩
        · exact .inl comma
        · exact .inr (.inl space)
        · exact .inr (.inr ⟨branch, mem_cons_of_mem _ found, inside⟩)

theorem gaps_of_branches (none_ : branches tokens = []) : ∀ token ∈ tokens, isGap token = true := by
  have empty (stretch : Tokens) (member : stretch ∈ stretches "," 0 tokens) : Blank stretch := by
    apply blank_of_trim
    have gone := filter_eq_nil_iff.mp none_ _ (mem_map_of_mem member)
    simpa using gone
  clear none_
  induction tokens with
  | nil => exact nofun
  | cons token rest ih =>
    rw [stretches] at empty
    split at empty
    · rename_i cut
      rw [Bool.and_eq_true] at cut
      exact forall_mem_cons.mpr ⟨isGap_of_separates cut.2,
        ih fun stretch member => empty stretch (mem_cons_of_mem _ member)⟩
    · obtain ⟨first, others, same⟩ := exists_cons_of_ne_nil
        (stretches_ne_nil "," (token.kind.depthAfter 0) rest)
      rw [same] at empty
      obtain ⟨head, tail⟩ := forall_mem_cons.mp (empty _ mem_cons_self)
      -- A blank leaves the depth as it is, so the rest is cut as it was before.
      have gap := isGap_of_blank head
      rw [depthAfter_of_isGap gap] at same
      refine forall_mem_cons.mpr ⟨gap, ih fun stretch member => ?_⟩
      rw [same] at member
      rcases mem_cons.mp member with rfl | member
      · exact tail
      · exact empty stretch (mem_cons_of_mem _ member)

end LessCss.Tokens
