import LessCss.Proofs.Token.Blanks

/-! Tokens whose brackets match. They can be cut where all brackets are closed, and a
group in them ends where the bracket that opens it is closed. -/

set_option autoImplicit false

namespace LessCss.Tokens

open List

/-- Whether each bracket is closed by one of its own kind. The kinds of the brackets that
have to come are given, the next one first. -/
def nestedFrom (awaited : List Kind) : Tokens → Bool
  | [] => awaited.isEmpty
  | token :: rest =>
    if token.kind = .parenOpen then nestedFrom (.parenClose :: awaited) rest
    else if token.kind = .bracketOpen then nestedFrom (.bracketClose :: awaited) rest
    else if token.kind.closes then awaited.head? == some token.kind && nestedFrom awaited.tail rest
    else nestedFrom awaited rest

def isNested (tokens : Tokens) : Bool := nestedFrom [] tokens

inductive Balanced : Tokens → Prop where
  | nil : Balanced []
  | token {token : Token} {rest : Tokens} (opens : token.kind.opens = false)
      (closes : token.kind.closes = false) (others : Balanced rest) : Balanced (token :: rest)
  | group {opening closing : Token} {inner rest : Tokens}
      (pair : opening.kind = .parenOpen ∧ closing.kind = .parenClose ∨
        opening.kind = .bracketOpen ∧ closing.kind = .bracketClose)
      (inside : Balanced inner) (others : Balanced rest) : Balanced (opening :: (inner ++ closing :: rest))

variable {tokens rest : Tokens} {awaited : List Kind} {depth : Nat}

theorem nestedFrom_canonical (awaited : List Kind) (tokens : Tokens) :
    nestedFrom awaited tokens.canonical = nestedFrom awaited tokens := by
  induction tokens generalizing awaited with
  | nil => rfl
  | cons token rest ih => simp only [canonical_cons, nestedFrom, Token.kind_canonical, ih]

/-- The depth behind the front of nested tokens is the number of brackets that have to come. -/
theorem exists_awaited {front : Tokens} (nested : nestedFrom awaited (front ++ rest) = true) :
    ∃ awaited', (∀ others, nestedFrom awaited (front ++ others) = nestedFrom awaited' others) ∧
      depthAfter awaited.length front = awaited'.length := by
  induction front generalizing awaited with
  | nil => exact ⟨awaited, fun _ => rfl, rfl⟩
  | cons token front ih =>
    simp only [cons_append, nestedFrom] at nested ⊢
    have level (n : Nat) : depthAfter n (token :: front) = depthAfter (token.kind.depthAfter n) front := rfl
    rw [level]
    -- An opening bracket is awaited in turn, a closing one has to be the one awaited.
    split at nested
    · rename_i opens
      obtain ⟨awaited', same, depth⟩ := ih nested
      exact ⟨awaited', fun others => by rw [if_pos opens, same], by rw [opens]; exact depth⟩
    · split at nested
      · rename_i other opens
        obtain ⟨awaited', same, depth⟩ := ih nested
        exact ⟨awaited', fun others => by rw [if_neg other, if_pos opens, same], by rw [opens]; exact depth⟩
      · rename_i other other'
        have opens : token.kind.opens = false := by simp [Kind.opens, other, other']
        split at nested
        · rename_i closes
          rw [Bool.and_eq_true] at nested
          obtain ⟨awaited', same, depth⟩ := ih nested.2
          refine ⟨awaited', fun others => ?_, ?_⟩
          · rw [if_neg other, if_neg other', if_pos closes, nested.1, same]
            rfl
          · rw [← depth, length_tail]
            simp [Kind.depthAfter, opens, closes]
        · rename_i closes
          obtain ⟨awaited', same, depth⟩ := ih nested
          refine ⟨awaited', fun others => by rw [if_neg other, if_neg other', if_neg closes, same], ?_⟩
          rw [← depth]
          simp [Kind.depthAfter, opens, closes]

theorem closed_of_isNested (nested : isNested tokens = true) : Closed tokens := by
  rw [isNested, ← append_nil tokens] at nested
  obtain ⟨awaited, same, depth⟩ := exists_awaited nested
  rw [same, nestedFrom, List.isEmpty_iff] at nested
  rw [nested] at depth
  exact depth

theorem isNested_append (closed : Closed tokens) (nested : isNested (tokens ++ rest) = true) :
    isNested tokens = true ∧ isNested rest = true := by
  obtain ⟨awaited, same, depth⟩ := exists_awaited nested
  have none_ : awaited = [] := length_eq_zero_iff.mp (depth.symm.trans closed)
  subst none_
  rw [isNested, same] at nested
  refine ⟨?_, nested⟩
  have whole := same []
  rw [append_nil] at whole
  exact whole

theorem not_isNested_concat {close : Token} (closed : Closed tokens) (closes : close.kind = .parenClose) :
    isNested (tokens ++ [close]) = false := by
  refine Bool.eq_false_iff.mpr fun nested => ?_
  have last := (isNested_append closed nested).2
  simp [isNested, nestedFrom, closes, Kind.closes] at last

theorem kind_of_blank {token : Token} (blank : token.isBlank = true) :
    token.kind.opens = false ∧ token.kind.closes = false := by
  unfold Token.isBlank Kind.isBlank at blank
  unfold Kind.opens Kind.closes
  cases kind : token.kind <;> simp_all

theorem nestedFrom_plain {token : Token} (opens : token.kind.opens = false) (closes : token.kind.closes = false)
    (rest : Tokens) : nestedFrom awaited (token :: rest) = nestedFrom awaited rest := by
  simp only [Kind.opens, Bool.or_eq_false_iff, beq_eq_false_iff_ne, ne_eq] at opens
  rw [nestedFrom, if_neg opens.1, if_neg opens.2, if_neg (by simp [closes])]

theorem nestedFrom_blank {before : Tokens} (blank : Blank before) (rest : Tokens) :
    nestedFrom awaited (before ++ rest) = nestedFrom awaited rest := by
  induction before with
  | nil => rfl
  | cons token before ih =>
    obtain ⟨first, others⟩ := forall_mem_cons.mp blank
    have plain := kind_of_blank first
    rw [cons_append, nestedFrom_plain plain.1 plain.2, ih others]

theorem nestedFrom_trim (awaited : List Kind) (tokens : Tokens) :
    nestedFrom awaited (trim tokens) = nestedFrom awaited tokens := by
  have back {after : Tokens} (blank : Blank after) (awaited : List Kind) (front : Tokens) :
      nestedFrom awaited (front ++ after) = nestedFrom awaited front := by
    induction front generalizing awaited with
    | nil =>
      have none_ : nestedFrom awaited (after ++ []) = nestedFrom awaited [] := nestedFrom_blank blank []
      rwa [append_nil] at none_
    | cons token front ih => simp only [cons_append, nestedFrom, ih]
  obtain ⟨before, after, blank, blank', same⟩ := exists_trim tokens
  conv => rhs; rw [same]
  rw [List.append_assoc, nestedFrom_blank blank, back blank']

/-- Where brackets have to come, the next one ends a balanced front. -/
theorem exists_balanced (n : Nat) (bound : tokens.length ≤ n) (nested : nestedFrom awaited tokens = true) :
    (awaited = [] → Balanced tokens) ∧
    ∀ kind others, awaited = kind :: others → ∃ inner close rest, tokens = inner ++ close :: rest ∧
      Balanced inner ∧ close.kind = kind ∧ nestedFrom others rest = true := by
  induction n generalizing tokens awaited with
  | zero =>
    obtain rfl := length_eq_zero_iff.mp (Nat.le_zero.mp bound)
    rw [nestedFrom, List.isEmpty_iff] at nested
    subst nested
    exact ⟨fun _ => .nil, nofun⟩
  | succ n ih =>
    cases tokens with
    | nil =>
      rw [nestedFrom, List.isEmpty_iff] at nested
      subst nested
      exact ⟨fun _ => .nil, nofun⟩
    | cons token tail =>
      have shorter : tail.length ≤ n := Nat.le_of_succ_le_succ bound
      -- A group is read to its end first, then what follows it.
      have group {closing : Kind} (inside : nestedFrom (closing :: awaited) tail = true)
          (pair : ∀ close : Token, close.kind = closing → token.kind = .parenOpen ∧ close.kind = .parenClose ∨
            token.kind = .bracketOpen ∧ close.kind = .bracketClose) :
          (awaited = [] → Balanced (token :: tail)) ∧
          ∀ kind others, awaited = kind :: others → ∃ inner close rest, token :: tail = inner ++ close :: rest ∧
            Balanced inner ∧ close.kind = kind ∧ nestedFrom others rest = true := by
        obtain ⟨inner, close, rest, rfl, balanced, closes, after⟩ := (ih shorter inside).2 _ _ rfl
        have shorter' : rest.length ≤ n := by
          simp only [length_append, length_cons] at shorter
          omega
        obtain ⟨whole, next⟩ := ih shorter' after
        refine ⟨fun none_ => .group (pair close closes) balanced (whole none_), fun kind others same => ?_⟩
        obtain ⟨inner', close', rest', rfl, balanced', closes', after'⟩ := next kind others same
        exact ⟨token :: (inner ++ close :: inner'), close', rest', by simp,
          .group (pair close closes) balanced balanced', closes', after'⟩
      rw [nestedFrom] at nested
      split at nested
      · rename_i opens
        exact group nested fun close closes => .inl ⟨opens, closes⟩
      · split at nested
        · rename_i opens
          exact group nested fun close closes => .inr ⟨opens, closes⟩
        · rename_i other other'
          have opens : token.kind.opens = false := by simp [Kind.opens, other, other']
          split at nested
          · rw [Bool.and_eq_true, beq_iff_eq] at nested
            refine ⟨fun none_ => ?_, fun kind others same => ?_⟩
            · subst none_
              cases nested.1
            · subst same
              exact ⟨[], token, tail, rfl, .nil, (Option.some.inj nested.1).symm, nested.2⟩
          · rename_i closes
            have closes' : token.kind.closes = false := by simpa using closes
            obtain ⟨whole, next⟩ := ih shorter nested
            refine ⟨fun none_ => .token opens closes' (whole none_), fun kind others same => ?_⟩
            obtain ⟨inner, close, rest, rfl, balanced, kind, after⟩ := next kind others same
            exact ⟨token :: inner, close, rest, rfl, .token opens closes' balanced, kind, after⟩

theorem balanced_of_isNested (nested : isNested tokens = true) : Balanced tokens :=
  (exists_balanced tokens.length (Nat.le_refl _) nested).1 rfl

/-! ### Groups -/

theorem Balanced.takeGroup? (balanced : Balanced tokens) (depth : Nat) (rest : Tokens) :
    takeGroup? depth (tokens ++ rest) = (takeGroup? depth rest).map fun group => (tokens ++ group.1, group.2) := by
  induction balanced generalizing depth rest with
  | nil => simp
  | @token token rest' opens closes others ih =>
    have kind : token.kind ≠ .parenClose ∧ token.kind ≠ .parenOpen := by
      constructor
      · intro kind
        rw [kind] at closes
        cases closes
      · intro kind
        rw [kind] at opens
        cases opens
    simp [Tokens.takeGroup?, kind.1, kind.2, ih, Function.comp_def]
  | group pair inside others ihInside ihOthers =>
    rcases pair with ⟨opens, closes⟩ | ⟨opens, closes⟩
    all_goals simp [Tokens.takeGroup?, opens, closes, ihInside, ihOthers, Function.comp_def]

theorem Balanced.takeGroup?_close (balanced : Balanced tokens) {close : Token} (closes : close.kind = .parenClose)
    (rest : Tokens) : Tokens.takeGroup? 0 (tokens ++ close :: rest) = some (tokens, rest) := by
  rw [balanced.takeGroup?]
  simp [Tokens.takeGroup?, closes]

end LessCss.Tokens
