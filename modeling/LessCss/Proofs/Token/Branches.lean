import LessCss.Token.Tokens

/-! Lists of tokens as lists of parts. Main statement: cutting inverts joining,
for parts that are trimmed, not empty, closed and without a comma of their own.
The branches of a selector whose brackets are closed are such parts; those of any
other tokens are cut alike again when they have been joined. -/

set_option autoImplicit false

namespace LessCss.Tokens

open List Token

variable {separator : String} {depth : Nat} {tokens : Tokens}

/-! ### Trimming -/

def Blank (tokens : Tokens) : Prop := ∀ token ∈ tokens, token.isBlank = true

theorem exists_trimLeft (tokens : Tokens) : ∃ before, Blank before ∧ tokens = before ++ trimLeft tokens :=
  ⟨tokens.takeWhile isBlank, all_eq_true.mp all_takeWhile,
    takeWhile_append_dropWhile.symm⟩

theorem exists_trimRight (tokens : Tokens) : ∃ after, Blank after ∧ tokens = trimRight tokens ++ after := by
  obtain ⟨after, blank, same⟩ := exists_trimLeft tokens.reverse
  refine ⟨after.reverse, fun token member => blank token (mem_reverse.mp member), ?_⟩
  have reversed := congrArg List.reverse same
  rwa [reverse_reverse, reverse_append] at reversed

theorem exists_trim (tokens : Tokens) :
    ∃ before after, Blank before ∧ Blank after ∧ tokens = before ++ trim tokens ++ after := by
  obtain ⟨before, blank, same⟩ := exists_trimLeft tokens
  obtain ⟨after, blank', same'⟩ := exists_trimRight (trimLeft tokens)
  refine ⟨before, after, blank, blank', ?_⟩
  rw [List.append_assoc]
  exact same.trans (congrArg (before ++ ·) same')

theorem mem_of_mem_trimLeft {token : Token} (member : token ∈ trimLeft tokens) : token ∈ tokens :=
  (dropWhile_sublist _).mem member

theorem mem_of_mem_trim {token : Token} (member : token ∈ trim tokens) : token ∈ tokens := by
  obtain ⟨before, after, _, _, same⟩ := exists_trim tokens
  rw [same]
  simp [member]

theorem trimLeft_eq_self_iff :
    trimLeft tokens = tokens ↔ ∀ token, tokens.head? = some token → token.isBlank = false := by
  cases tokens with
  | nil => simp [trimLeft]
  | cons first rest =>
    cases blank : first.isBlank with
    | true =>
      have shorter := length_trimLeft_le rest
      constructor
      · intro same
        rw [trimLeft, dropWhile_cons_of_pos blank] at same
        rw [trimLeft, same] at shorter
        exact absurd shorter (Nat.not_succ_le_self _)
      · intro all
        rw [all first rfl] at blank
        cases blank
    | false => simp [trimLeft, blank]

@[simp] theorem trimLeft_trimLeft (tokens : Tokens) : trimLeft (trimLeft tokens) = trimLeft tokens := by
  rw [trimLeft_eq_self_iff]
  intro token first
  have kept := List.head?_dropWhile_not isBlank tokens
  rw [show (tokens.dropWhile isBlank).head? = some token from first] at kept
  exact kept

@[simp] theorem trimRight_trimRight (tokens : Tokens) : trimRight (trimRight tokens) = trimRight tokens := by
  unfold trimRight
  rw [reverse_reverse]
  exact congrArg List.reverse (trimLeft_trimLeft tokens.reverse)

theorem trimLeft_trimRight (trimmed : trimLeft tokens = tokens) :
    trimLeft (trimRight tokens) = trimRight tokens := by
  obtain ⟨after, _, same⟩ := exists_trimRight tokens
  rw [trimLeft_eq_self_iff] at trimmed ⊢
  intro token first
  apply trimmed token
  rw [same, List.head?_append, first]
  rfl

@[simp] theorem trim_trim (tokens : Tokens) : trim (trim tokens) = trim tokens := by
  have left : trimLeft (trim tokens) = trim tokens :=
    trimLeft_trimRight (trimLeft_trimLeft tokens)
  rw [trim, left]
  exact trimRight_trimRight _

theorem trim_cons_blank {token : Token} (blank : token.isBlank = true) (tokens : Tokens) :
    trim (token :: tokens) = trim tokens := by
  rw [trim, trimLeft, dropWhile_cons_of_pos blank]
  rfl

/-! ### Brackets -/

def depthAfter (depth : Nat) (tokens : Tokens) : Nat :=
  tokens.foldl (fun depth token => token.kind.depthAfter depth) depth

theorem depthAfter_append (depth : Nat) (tokens others : Tokens) :
    depthAfter depth (tokens ++ others) = depthAfter (depthAfter depth tokens) others :=
  foldl_append

def Closed (tokens : Tokens) : Prop := depthAfter 0 tokens = 0

instance : Decidable (Closed tokens) := inferInstanceAs (Decidable (_ = _))

def Uncut (separator : String) (depth : Nat) : Tokens → Prop
  | [] => True
  | token :: rest =>
    (depth = 0 && separates separator token) = false ∧
      Uncut separator (token.kind.depthAfter depth) rest

instance decidableUncut (separator : String) :
    (depth : Nat) → (tokens : Tokens) → Decidable (Uncut separator depth tokens)
  | _, [] => isTrue trivial
  | depth, token :: rest =>
    have := decidableUncut separator (token.kind.depthAfter depth) rest
    inferInstanceAs (Decidable ((depth = 0 && separates separator token) = false ∧
      Uncut separator (token.kind.depthAfter depth) rest))

theorem uncut_append {others : Tokens} : Uncut separator depth (tokens ++ others) ↔
    Uncut separator depth tokens ∧ Uncut separator (depthAfter depth tokens) others := by
  induction tokens generalizing depth with
  | nil => exact (true_and _).symm ▸ Iff.rfl
  | cons token rest ih =>
    simp only [cons_append, Uncut, ih, and_assoc]
    rfl

theorem depthAfter_of_blank (blank : Blank tokens) : depthAfter depth tokens = depth := by
  induction tokens generalizing depth with
  | nil => rfl
  | cons token rest ih =>
    obtain ⟨first, others⟩ := forall_mem_cons.mp blank
    have level : token.kind.depthAfter depth = depth := by
      unfold isBlank Kind.isBlank at first
      unfold Kind.depthAfter Kind.opens Kind.closes
      cases kind : token.kind <;> simp_all
    change depthAfter (token.kind.depthAfter depth) rest = depth
    rw [level, ih others]

theorem depthAfter_trim (depth : Nat) (tokens : Tokens) :
    depthAfter depth (trim tokens) = depthAfter depth tokens := by
  obtain ⟨before, after, blank, blank', same⟩ := exists_trim tokens
  calc depthAfter depth (trim tokens)
      = depthAfter depth (before ++ trim tokens ++ after) := by
        rw [depthAfter_append, depthAfter_append, depthAfter_of_blank blank, depthAfter_of_blank blank']
    _ = depthAfter depth tokens := by rw [← same]

theorem uncut_trim (uncut : Uncut separator depth tokens) : Uncut separator depth (trim tokens) := by
  obtain ⟨before, after, blank, _, same⟩ := exists_trim tokens
  rw [same, uncut_append, uncut_append, depthAfter_of_blank blank] at uncut
  exact uncut.1.2

/-! ### Cutting and joining -/

theorem stretches_ne_nil (separator : String) (depth : Nat) (tokens : Tokens) :
    stretches separator depth tokens ≠ [] := by
  cases tokens with
  | nil => exact cons_ne_nil _ _
  | cons token rest =>
    rw [stretches]
    split
    · exact cons_ne_nil _ _
    · cases stretches separator (token.kind.depthAfter depth) rest <;> exact cons_ne_nil _ _

/-- Tokens without a separator lengthen the first stretch of what follows. -/
theorem stretches_append {others part : Tokens} {parts : List Tokens} (uncut : Uncut separator depth tokens)
    (follows : stretches separator (depthAfter depth tokens) others = part :: parts) :
    stretches separator depth (tokens ++ others) = (tokens ++ part) :: parts := by
  induction tokens generalizing depth with
  | nil => exact follows
  | cons token rest ih =>
    rw [cons_append, stretches, uncut.1, if_neg Bool.false_ne_true, ih uncut.2 follows]
    rfl

/-- What cutting can give: trimmed, not empty, closed, and without a separator outside brackets. -/
structure IsPart (separator : String) (part : Tokens) : Prop where
  trimmed : trim part = part
  ne_nil : part ≠ []
  closed : Closed part
  uncut : Uncut separator 0 part

instance {part : Tokens} : Decidable (IsPart separator part) :=
  decidable_of_iff (trim part = part ∧ part ≠ [] ∧ Closed part ∧ Uncut separator 0 part)
    ⟨fun whole => ⟨whole.1, whole.2.1, whole.2.2.1, whole.2.2.2⟩,
      fun whole => ⟨whole.trimmed, whole.ne_nil, whole.closed, whole.uncut⟩⟩

theorem depthAfter_of_separates {token : Token} (marks : separates separator token = true) :
    token.kind.depthAfter depth = depth := by
  rw [separates, Bool.and_eq_true] at marks
  unfold Kind.depthAfter Kind.opens Kind.closes
  cases kind : token.kind <;> simp_all

/-- Stretches without a separator outside brackets, where `depth` brackets are open in front of them and
`final` behind. All but the last one close their brackets. -/
def Cut (separator : String) (depth final : Nat) : List Tokens → Prop
  | [] => False
  | [last] => Uncut separator depth last ∧ depthAfter depth last = final
  | first :: second :: rest =>
    Uncut separator depth first ∧ depthAfter depth first = 0 ∧ Cut separator 0 final (second :: rest)

theorem Cut.consHead {token : Token} {final : Nat} {list : List Tokens}
    (kept : (depth = 0 && separates separator token) = false)
    (cut : Cut separator (token.kind.depthAfter depth) final list) :
    Cut separator depth final (consHead token list) := by
  cases list with
  | nil => exact cut.elim
  | cons first rest =>
    cases rest with
    | nil => exact ⟨⟨kept, cut.1⟩, cut.2⟩
    | cons second rest => exact ⟨⟨kept, cut.1⟩, cut.2⟩

theorem cut_stretches (separator : String) (depth : Nat) (tokens : Tokens) :
    Cut separator depth (depthAfter depth tokens) (stretches separator depth tokens) := by
  induction tokens generalizing depth with
  | nil => exact ⟨trivial, rfl⟩
  | cons token others ih =>
    rw [stretches]
    cases cut : (depth = 0 && separates separator token : Bool) with
    | true =>
      obtain ⟨rfl, marks⟩ : depth = 0 ∧ separates separator token = true := by simpa using cut
      obtain ⟨first, rest, same⟩ := exists_cons_of_ne_nil (stretches_ne_nil separator 0 others)
      have behind := ih 0
      rw [same] at behind
      rw [if_pos rfl, same]
      refine ⟨trivial, rfl, ?_⟩
      change Cut separator 0 (depthAfter (token.kind.depthAfter 0) others) (first :: rest)
      rwa [depthAfter_of_separates marks]
    | false =>
      rw [if_neg Bool.false_ne_true]
      exact (ih (token.kind.depthAfter depth)).consHead cut

theorem Cut.each {final : Nat} {list : List Tokens} (cut : Cut separator 0 final list) :
    (∀ part ∈ list, Uncut separator 0 part) ∧ (∀ part ∈ list.dropLast, Closed part) ∧
      ∀ part ∈ list, Closed part ∨ depthAfter 0 part = final := by
  induction list with
  | nil => exact cut.elim
  | cons first rest ih =>
    cases rest with
    | nil =>
      simp only [forall_mem_singleton, dropLast_singleton]
      exact ⟨cut.1, forall_mem_nil _, .inr cut.2⟩
    | cons second rest =>
      obtain ⟨uncut, closed, ends⟩ := ih cut.2.2
      rw [dropLast_cons_of_ne_nil (cons_ne_nil second rest)]
      exact ⟨forall_mem_cons.mpr ⟨cut.1, uncut⟩, forall_mem_cons.mpr ⟨cut.2.1, closed⟩,
        forall_mem_cons.mpr ⟨.inl cut.2.1, ends⟩⟩

theorem isPart_of_mem_parts (closed : Closed tokens) {part : Tokens}
    (member : part ∈ parts separator tokens) : IsPart separator part := by
  obtain ⟨uncut, _, ends⟩ := (cut_stretches separator 0 tokens).each
  obtain ⟨trimmed, filled⟩ := mem_filter.mp member
  obtain ⟨stretch, inside, rfl⟩ := mem_map.mp trimmed
  refine ⟨trim_trim stretch, by simpa using filled, ?_, uncut_trim (uncut stretch inside)⟩
  rw [Closed, depthAfter_trim]
  exact (ends stretch inside).elim id fun final => final.trans closed

theorem isPart_of_mem_branches (closed : Closed tokens) {branch : Tokens}
    (member : branch ∈ branches tokens) : IsPart "," branch :=
  isPart_of_mem_parts closed member

/-- What cutting gives, whatever the brackets: only the last part may leave some open. -/
structure AreParts (separator : String) (list : List Tokens) : Prop where
  trimmed : ∀ part ∈ list, trim part = part
  ne_nil : ∀ part ∈ list, part ≠ []
  uncut : ∀ part ∈ list, Uncut separator 0 part
  closed : ∀ part ∈ list.dropLast, Closed part

namespace AreParts

variable {list : List Tokens}

theorem of_isPart (each : ∀ part ∈ list, IsPart separator part) : AreParts separator list where
  trimmed part member := (each part member).trimmed
  ne_nil part member := (each part member).ne_nil
  uncut part member := (each part member).uncut
  closed part member := (each part ((dropLast_sublist list).mem member)).closed

theorem tail {first second : Tokens} (parts : AreParts separator (first :: second :: list)) :
    Closed first ∧ AreParts separator (second :: list) := by
  have closed := parts.closed
  rw [dropLast_cons_of_ne_nil (cons_ne_nil second list)] at closed
  exact ⟨closed first mem_cons_self, ⟨(forall_mem_cons.mp parts.trimmed).2,
    (forall_mem_cons.mp parts.ne_nil).2, (forall_mem_cons.mp parts.uncut).2,
    (forall_mem_cons.mp closed).2⟩⟩

end AreParts

/-- What is not last when some are left out was not last before. -/
theorem dropLast_filter_sublist {α : Type} (holds : α → Bool) (list : List α) :
    (list.filter holds).dropLast.Sublist list.dropLast := by
  have kept := (filter_sublist (p := holds) (l := list)).reverse.tail.reverse
  rwa [← dropLast_reverse, ← dropLast_reverse, reverse_reverse, reverse_reverse] at kept

theorem areParts_parts (separator : String) (tokens : Tokens) : AreParts separator (parts separator tokens) := by
  obtain ⟨uncut, closed, _⟩ := (cut_stretches separator 0 tokens).each
  have origin {part : Tokens} (member : part ∈ parts separator tokens) :
      ∃ stretch ∈ stretches separator 0 tokens, trim stretch = part :=
    mem_map.mp (mem_filter.mp member).1
  refine ⟨fun part member => ?_, fun part member => by simpa using (mem_filter.mp member).2,
    fun part member => ?_, fun part member => ?_⟩
  · obtain ⟨stretch, _, rfl⟩ := origin member
    exact trim_trim stretch
  · obtain ⟨stretch, inside, rfl⟩ := origin member
    exact uncut_trim (uncut stretch inside)
  · have inside := (dropLast_filter_sublist _ _).mem member
    rw [← map_dropLast] at inside
    obtain ⟨stretch, found, rfl⟩ := mem_map.mp inside
    rw [Closed, depthAfter_trim]
    exact closed stretch found

theorem stretches_joinBranches {first : Tokens} {rest : List Tokens} (parts : AreParts "," (first :: rest)) :
    stretches "," 0 (joinBranches (first :: rest)) = first :: rest.map (space :: ·) := by
  have uncut := parts.uncut first mem_cons_self
  induction rest generalizing first with
  | nil =>
    have alone : stretches "," 0 (first ++ []) = [first ++ []] := stretches_append uncut rfl
    simpa [joinBranches, List.intercalate] using alone
  | cons second rest ih =>
    obtain ⟨closed, others⟩ := parts.tail
    have follows := ih others (others.uncut second mem_cons_self)
    have joined : joinBranches (first :: second :: rest) =
        first ++ (comma :: space :: joinBranches (second :: rest)) := by
      simp [joinBranches, List.intercalate, List.intersperse]
    rw [joined]
    have cut : stretches "," (depthAfter 0 first)
        (comma :: space :: joinBranches (second :: rest)) =
          [] :: (space :: second) :: rest.map (space :: ·) := by
      rw [closed, stretches, if_pos (by decide), stretches, if_neg (by decide)]
      change [] :: consHead space (stretches "," 0 _) = _
      rw [follows]
      rfl
    rw [stretches_append uncut cut, append_nil]
    rfl

/-- The lists that joining and cutting at commas leave as they are. -/
theorem branches_joinBranches_iff {list : List Tokens} :
    branches (joinBranches list) = list ↔ AreParts "," list := by
  constructor
  · intro same
    rw [← same]
    exact areParts_parts "," (joinBranches list)
  · intro parts
    cases list with
    | nil => rfl
    | cons first rest =>
      have trimmed : ((first :: rest.map (space :: ·)).map trim) = first :: rest := by
        rw [map_cons, parts.trimmed first mem_cons_self, map_map]
        refine congrArg (first :: ·) (Eq.trans (map_congr_left ?_) (map_id rest))
        intro branch member
        exact (trim_cons_blank rfl branch).trans (parts.trimmed branch (mem_cons_of_mem first member))
      rw [branches, Tokens.parts, stretches_joinBranches parts, trimmed, filter_eq_self]
      intro branch member
      simpa using parts.ne_nil branch member

theorem branches_joinBranches {list : List Tokens} (each : ∀ branch ∈ list, IsPart "," branch) :
    branches (joinBranches list) = list :=
  branches_joinBranches_iff.mpr (.of_isPart each)

/-- Cutting at commas undoes joining, and joining what was cut from any tokens, even where their brackets do
not match, gives tokens that are cut into the same branches again. -/
theorem cutting_undoes_joining :
    (∀ list : List Tokens, (∀ part ∈ list, IsPart "," part) → branches (joinBranches list) = list) ∧
      ∀ tokens : Tokens, branches (joinBranches (branches tokens)) = branches tokens := by
  refine ⟨fun list each => branches_joinBranches each, fun tokens => ?_⟩
  exact branches_joinBranches_iff.mpr (areParts_parts "," tokens)

def strayParts : List Tokens :=
  [[.synthetic .parenClose ")", .synthetic .identifier "a"],
    [.synthetic .identifier "b", .synthetic .parenOpen "(", .comma, .synthetic .parenClose ")"]]

def openTokens : Tokens :=
  [.comma, .space, .comma, .synthetic .identifier "a", .space, .comma, .synthetic .parenOpen "(", .comma, .space]

theorem strayParts_cut_again : (∀ part ∈ strayParts, IsPart "," part) ∧
    branches (joinBranches strayParts) = strayParts ∧ (branches openTokens).length = 2 ∧
      branches (joinBranches (branches openTokens)) = branches openTokens := by
  have each : ∀ part ∈ strayParts, IsPart "," part :=
    forall_mem_cons.mpr ⟨by decide, forall_mem_singleton.mpr (by decide)⟩
  exact ⟨each, cutting_undoes_joining.1 strayParts each, by decide, cutting_undoes_joining.2 openTokens⟩

end LessCss.Tokens
