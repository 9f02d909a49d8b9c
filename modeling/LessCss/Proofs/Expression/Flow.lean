import LessCss.Expression.Scope
import LessCss.Proofs.Token.Branches
import LessCss.Proofs.Yields

/-! What flows through the evaluation of a value: from the tokens that are read into
values, and from both into the tokens that are written. Main statement: properties
of tokens, values and written tokens that hold at each single place where one
becomes the other hold of all that an evaluation reads, computes and writes. -/

set_option autoImplicit false

namespace LessCss

open List Tokens

/-- Where no expression begins: at no string and no address, and at an identifier only if it is called. -/
def Tokens.Stuck : Tokens → Prop
  | [] => True
  | first :: rest => first.kind ≠ .string ∧ first.kind ≠ .url ∧
    (first.kind = .identifier → headIs rest .parenOpen = true)

theorem Tokens.computes_of_reference {library : Library} {tokens : Tokens} {token : Token} (member : token ∈ tokens)
    (kind : token.kind = .atKeyword) : tokens.computes library = true := by
  induction tokens with
  | nil => cases member
  | cons first rest ih =>
    rw [computes, Bool.or_eq_true]
    rcases mem_cons.mp member with rfl | inside
    · rw [kind]
      exact .inl rfl
    · exact .inr (ih inside)

def Kind.isFilled (kind : Kind) : Bool := kind == .identifier || kind == .string || kind == .url

theorem Quantity.isNumeric_tokenKind (quantity : Quantity) : quantity.tokenKind.isNumeric = true := by
  rw [tokenKind]
  split
  · rfl
  · split <;> rfl

theorem Value.colorTokenKind_cases (color : Color) : colorTokenKind color = .hash ∨ colorTokenKind color = .identifier := by
  rw [colorTokenKind]
  split
  · split <;> simp
  · split <;> simp

theorem Value.tokenKind_ne (value : Value) {kind : Kind}
    (other : (kind.isNumeric || kind == .hash || kind.isFilled) = false) : value.tokenKind ≠ kind := by
  rintro rfl
  cases value with
  | quantity quantity =>
    rw [tokenKind, quantity.isNumeric_tokenKind] at other
    cases other
  | color color =>
    rw [tokenKind] at other
    rcases colorTokenKind_cases color with same | same
    · rw [same] at other
      cases other
    · rw [same] at other
      cases other
  | string text quote => cases quote <;> cases other
  | unit | url | boolean => cases other

theorem Value.exists_of_tokenKind {value : Value} (string : value.tokenKind = .string) :
    ∃ text quote, value = .string text (some quote) := by
  cases value with
  | string text quote =>
    cases quote with
    | none => cases string
    | some quote => exact ⟨text, quote, rfl⟩
  | quantity quantity =>
    have numeric := quantity.isNumeric_tokenKind
    rw [show quantity.tokenKind = .string from string] at numeric
    cases numeric
  | color color =>
    rcases colorTokenKind_cases color with same | same
    · cases same.symm.trans string
    · cases same.symm.trans string
  | unit | url | boolean => cases string

structure Flow where
  token : Token → Prop
  value : Value → Prop
  written : Tokens → Prop

namespace Flow

/-- The properties hold wherever an evaluation in the environment makes a value, or writes tokens. -/
structure Admits (flow : Flow) (env : Environment) : Prop where
  literal {token : Token} (grouped : Bool) (fine : flow.token token) :
    Returns (env.literal? grouped token) fun value? => ∀ value ∈ value?, flow.value value
  variable_ (grouped : Bool) (name : String) (at_ : Token) :
    Returns (env.valueOf? grouped name at_) fun value? => ∀ value ∈ value?, flow.value value
  escaped {token : Token} (grouped : Bool) (fine : flow.token token) (kind : token.kind = .string) :
    Returns (env.escaped grouped token) flow.value
  keyword {token : Token} (fine : flow.token token) (kind : token.kind.isFilled = false) :
    flow.value (.keyword token.text)
  /-- An identifier stands for itself only in front of what is read as a separator. -/
  argument {token next : Token} (fine : flow.token token) (fine' : flow.token next) (opens : next.kind = .parenOpen)
    (separates : (next.text == "," || next.text == ";") = true) : flow.value (.keyword token.text)
  zero : flow.value (.number 0 "")
  operate {lhs rhs : Value} (mark : Token) (op : Operator) (left : flow.value lhs) (right : flow.value rhs) :
    Returns (Environment.operate mark op lhs rhs) flow.value
  call {name : Token} {arguments : List Value} (fine : flow.token name) (each : ∀ argument ∈ arguments, flow.value argument) :
    Returns (env.library.call name.text name arguments) flow.value
  writtenBack {value : Value} (at_ : Token) (holds : flow.value value) : flow.token (value.toToken at_)
  -- What is written, also in pieces.
  nil : flow.written []
  append {first second : Tokens} (front : flow.written first) (back : flow.written second) :
    flow.written (first ++ second)
  space : flow.written [.space]
  computed {value : Value} (at_ : Token) (holds : flow.value value) : flow.written [value.toToken at_]
  resolved (grouped : Bool) (token : Token) : Returns (env.resolve grouped token) flow.written
  filled {token : Token} (grouped : Bool) (fine : flow.token token) (kind : token.kind.isFilled = true) :
    Returns (env.interpolateToken grouped token) fun token => flow.written [token]
  copied {token : Token} (fine : flow.token token) (kind : token.kind.isFilled = false)
    (other : token.kind ≠ .atKeyword) : flow.written [token]
  deferred {name opening : Token} {group : Tokens} (grouped : Bool)
    (fine : ∀ token ∈ name :: opening :: group, flow.token token) (kind : name.kind = .identifier)
    (opens : opening.kind = .parenOpen) (later : deferredFunctions.contains name.text.toLower = true) :
    Returns (env.substitute grouped group) fun group => flow.written (name :: opening :: group)
  untouched {tokens : Tokens} (grouped : Bool) (fine : ∀ token ∈ tokens, flow.token token)
    (nothing : tokens.computes env.library = false) :
    Returns (tokens.mapM (env.interpolateToken grouped)) flow.written

def Read (flow : Flow) {n : Nat} : Reading n → Prop
  | .found value rest _ => flow.value value ∧ ∀ token ∈ rest, flow.token token
  | .absent rest _ => rest.Stuck ∧ ∀ token ∈ rest, flow.token token

variable {flow : Flow} {env : Environment}

/-! ### Readers -/

theorem isFilled_of_literal?_none {grouped : Bool} {token : Token} (none_ : env.literal? grouped token = .ok none) :
    token.kind.isFilled = false := by
  rw [Environment.literal?] at none_
  cases kind : token.kind with
  | string | url | identifier =>
    rw [kind] at none_
    cases filled : env.interpolate grouped token token.text with
    | ok text =>
      dsimp only at none_
      rw [filled] at none_
      cases none_
    | error error =>
      dsimp only at none_
      rw [filled] at none_
      cases none_
  | _ => rfl

theorem stuck_of_isFilled {token : Token} (rest : Tokens) (kind : token.kind.isFilled = false) :
    Tokens.Stuck (token :: rest) := by
  simp only [Kind.isFilled, Bool.or_eq_false_iff, beq_eq_false_iff_ne] at kind
  exact ⟨kind.1.2, kind.2, fun same => absurd same kind.1.1⟩

theorem isFilled_of_isMark {token : Token} {text : String} (mark : token.isMark text = true) :
    token.kind.isFilled = false := by
  simp only [Token.isMark, Bool.and_eq_true, beq_iff_eq] at mark
  rw [mark.1]
  rfl

theorem mem_of_operator? {tokens : Tokens} {operator : OperatorAt tokens.length} {token : Token}
    (found : tokens.operator? = some operator) (member : token ∈ operator.rest) : token ∈ tokens := by
  apply mem_of_mem_trimLeft
  unfold operator? at found
  split at found
  · cases found
  · rename_i mark rest start
    rw [start]
    apply mem_cons_of_mem
    split at found
    · cases rest with
      | nil =>
        obtain ⟨op, _, rfl⟩ := Option.map_eq_some_iff.mp found
        cases member
      | cons next after =>
        dsimp only at found
        split at found
        · obtain ⟨op, _, rfl⟩ := Option.map_eq_some_iff.mp found
          exact mem_cons_of_mem _ (mem_of_mem_trimLeft member)
        · obtain ⟨op, _, rfl⟩ := Option.map_eq_some_iff.mp found
          exact mem_of_mem_trimLeft member
    · cases found

theorem argumentsAfter_of_parenOpen {at_ next : Token} {values : List Value} {after : Tokens} {post : _ → Prop}
    (opens : next.kind = .parenOpen) (other : (next.text == "," || next.text == ";") = false) :
    Returns (env.argumentsAfter at_ values (next :: after)) post := by
  have solid : next.isBlank = false := by
    rw [Token.isBlank, opens]
    rfl
  rw [Environment.argumentsAfter]
  split
  · exact returns_error
  · rename_i token rest start
    rw [trimLeft, dropWhile_cons_of_neg (by simp [solid])] at start
    cases start
    rw [if_neg (by simp [other]), if_neg (by simp [opens])]
    exact returns_error

theorem read_literal (admits : flow.Admits env) {token : Token} {rest : Tokens} (grouped : Bool)
    (fine : ∀ other ∈ token :: rest, flow.token other) :
    Returns (env.literal? grouped token) fun value? => flow.Read (.ofOption value? token [] rest) := by
  obtain ⟨first, others⟩ := forall_mem_cons.mp fine
  intro value? same
  cases value? with
  | none => exact ⟨stuck_of_isFilled rest (isFilled_of_literal?_none same), fine⟩
  | some value => exact ⟨admits.literal grouped first _ same value rfl, others⟩

theorem read_indirect (admits : flow.Admits env) {mark token : Token} {rest : Tokens} (grouped : Bool)
    (sign : mark.isMark "@" = true)
    (fine : ∀ other ∈ mark :: token :: rest, flow.token other) :
    Returns (env.indirect? grouped token) fun value? => flow.Read (.ofOption value? mark [token] rest) := by
  have found : Returns (env.indirect? grouped token) fun value? => ∀ value ∈ value?, flow.value value :=
    (returns_any _).bind fun name _ => admits.variable_ grouped _ token
  refine found.mono fun value? holds => ?_
  cases value? with
  | none => exact ⟨stuck_of_isFilled _ (isFilled_of_isMark sign), fine⟩
  | some value => exact ⟨holds value rfl, fun other member => fine other (by simp [member])⟩

-- The recursion is the one of the readers, over what is left to read.
mutual

theorem read_statement (admits : flow.Admits env) (grouped : Bool) (tokens : Tokens)
    (fine : ∀ token ∈ tokens, flow.token token) :
    Returns (env.statement grouped tokens) flow.Read := by
  have bound := tokens.length_trimLeft_le
  have fine' : ∀ token ∈ tokens.trimLeft, flow.token token :=
    fun token member => fine token (mem_of_mem_trimLeft member)
  rw [Environment.statement]
  refine (read_constant admits grouped tokens.trimLeft fine').bind fun reading read => ?_
  cases reading with
  | absent rest bounded => exact returns_ok read
  | found value rest shorter =>
    exact (read_climb admits grouped none _ read.1 rest read.2).bind fun last read => returns_ok read
termination_by 3 * tokens.length + 1

theorem read_climb (admits : flow.Admits env) (grouped : Bool) (last : Option Operator) {lhs : Value}
    (literal : Bool) (left : flow.value lhs) (tokens : Tokens) (fine : ∀ token ∈ tokens, flow.token token) :
    Returns (env.climb grouped last lhs literal tokens) fun read =>
      flow.value read.result ∧ ∀ token ∈ read.rest, flow.token token := by
  rw [Environment.climb]
  cases found : tokens.operator? with
  | none => exact returns_ok ⟨left, fine⟩
  | some operator =>
    obtain ⟨op, mark, after, shorter⟩ := operator
    have fine' : ∀ token ∈ after, flow.token token :=
      fun token member => fine token (mem_of_operator? found member)
    dsimp only
    split
    · exact returns_ok ⟨left, fine⟩
    split
    · exact returns_ok ⟨left, fine⟩
    refine (read_constant admits grouped after fine').bind fun reading read => ?_
    cases reading with
    | absent rest bounded => exact returns_error
    | found rhs rest shorter' =>
      -- The operand on the right takes up what binds tighter, and the loop goes on behind it.
      refine (read_climb admits grouped (some op) _ read.1 rest read.2).bind fun right read => ?_
      refine (admits.operate mark op left read.1).bind fun value holds => ?_
      have := right.bounded
      exact (read_climb admits grouped last false holds right.rest read.2).bind fun last read => returns_ok read
termination_by 3 * tokens.length

theorem read_constant (admits : flow.Admits env) (grouped : Bool) (tokens : Tokens) :
    (∀ token ∈ tokens, flow.token token) → Returns (env.constant grouped tokens) flow.Read := by
  cases tokens with
  | nil =>
    intro fine
    rw [Environment.constant.eq_def]
    exact returns_ok ⟨trivial, forall_mem_nil _⟩
  | cons token rest =>
    intro fine
    obtain ⟨first, others⟩ := forall_mem_cons.mp fine
    rw [Environment.constant.eq_def]
    dsimp only
    split
    · rename_i opens
      exact read_group admits token rest first opens others
    split
    · rename_i sign
      exact read_negation admits grouped token rest first sign others
    cases rest with
    | nil => exact (read_literal admits grouped fine).map fun _ read => read
    | cons next after =>
      obtain ⟨second, further⟩ := forall_mem_cons.mp others
      dsimp only
      split
      · rename_i called
        rw [Bool.and_eq_true, decide_eq_true_eq] at called
        -- No function has the name, or the function is applied to what follows.
        split
        · refine returns_ok ⟨⟨?_, ?_, fun _ => ?_⟩, fine⟩
          · simp_all
          · simp_all
          · simp [headIs, headKind?, called.1]
        · exact read_application admits token next after first further
      split
      · rename_i sign
        rw [Bool.and_eq_true] at sign
        exact (read_indirect admits grouped sign.2 fine).map fun _ read => read
      split
      · rename_i sign
        rw [Bool.and_eq_true, decide_eq_true_eq] at sign
        exact (admits.escaped grouped second sign.1).map fun value holds => ⟨holds, further⟩
      · exact (read_literal admits grouped fine).map fun _ read => read
termination_by 3 * tokens.length
decreasing_by all_goals simp only [length_cons]; omega

theorem read_group (admits : flow.Admits env) (opening : Token) (tokens : Tokens) (first : flow.token opening)
    (opens : opening.kind = .parenOpen) (fine : ∀ token ∈ tokens, flow.token token) : Returns (env.group opening tokens) flow.Read := by
  have kind : opening.kind.isFilled = false := by rw [opens]; rfl
  rw [Environment.group]
  split
  · exact returns_error
  refine (read_statement admits true tokens fine).bind fun reading read => ?_
  cases reading with
  | absent rest bounded =>
    exact returns_ok ⟨stuck_of_isFilled rest kind, forall_mem_cons.mpr ⟨first, read.2⟩⟩
  | found value rest shorter =>
    dsimp only
    split
    · refine returns_ok ⟨read.1, fun token member => read.2 token ?_⟩
      exact mem_of_mem_trimLeft (mem_of_mem_tail member)
    · refine returns_ok ⟨stuck_of_isFilled _ kind, ?_⟩
      exact forall_mem_cons.mpr ⟨first, forall_mem_cons.mpr ⟨admits.writtenBack opening read.1, read.2⟩⟩
termination_by 3 * tokens.length + 2

theorem read_negation (admits : flow.Admits env) (grouped : Bool) (mark : Token) (tokens : Tokens)
    (first : flow.token mark) (sign : mark.isMark "-" = true) (fine : ∀ token ∈ tokens, flow.token token) :
    Returns (env.negation grouped mark tokens) flow.Read := by
  rw [Environment.negation]
  refine (read_constant admits grouped tokens fine).bind fun reading read => ?_
  cases reading with
  | absent rest bounded =>
    exact returns_ok ⟨stuck_of_isFilled rest (isFilled_of_isMark sign), forall_mem_cons.mpr ⟨first, read.2⟩⟩
  | found value rest shorter =>
    refine (admits.operate mark .subtract admits.zero read.1).bind fun value holds => ?_
    exact returns_ok ⟨holds, read.2⟩
termination_by 3 * tokens.length + 1

theorem read_application (admits : flow.Admits env) (name opening : Token) (tokens : Tokens) (first : flow.token name)
    (fine : ∀ token ∈ tokens, flow.token token) :
    Returns (env.application name opening tokens) flow.Read := by
  rw [Environment.application]
  refine (read_arguments admits name tokens fine).bind fun read all => ?_
  refine (admits.call first all.1).bind fun value holds => ?_
  exact returns_ok ⟨holds, all.2⟩
termination_by 3 * tokens.length + 3

theorem read_arguments (admits : flow.Admits env) (at_ : Token) (tokens : Tokens)
    (fine : ∀ token ∈ tokens, flow.token token) :
    Returns (env.arguments at_ tokens) fun read =>
      (∀ value ∈ read.result, flow.value value) ∧ ∀ token ∈ read.rest, flow.token token := by
  rw [Environment.arguments]
  refine (read_statement admits true tokens fine).bind fun reading read => ?_
  cases reading with
  | found value rest shorter =>
    have after := read_argumentsAfter admits at_ [value] rest (forall_mem_singleton.mpr read.1) read.2
    exact after.bind fun read all => returns_ok all
  | absent rest bounded =>
    cases rest with
    | nil => exact returns_error
    | cons token rest =>
      obtain ⟨first, others⟩ := forall_mem_cons.mp read.2
      dsimp only
      split
      · exact (read_argumentsAfter admits at_ [] (token :: rest) (forall_mem_nil _) read.2).bind fun read all => returns_ok all
      · have shorter : rest.length < tokens.length := bounded
        have goesOn (holds : flow.value (.keyword token.text)) :=
          read_argumentsAfter admits at_ [.keyword token.text] rest (forall_mem_singleton.mpr holds) others
        -- A name that was not read stands before a parenthesis, which no list of arguments goes on with.
        by_cases called : token.kind = .identifier
        · cases rest with
          | nil => cases read.1.2.2 called
          | cons next after =>
            have opens : next.kind = .parenOpen := by simpa [headIs, headKind?] using read.1.2.2 called
            cases separates : next.text == "," || next.text == ";" with
            | true =>
              have holds := admits.argument first (others next mem_cons_self) opens separates
              exact (goesOn holds).bind fun read all => returns_ok all
            | false => exact (argumentsAfter_of_parenOpen opens separates).bind fun _ holds => holds
        · have kind : token.kind.isFilled = false := by simp [Kind.isFilled, called, read.1.1, read.1.2.1]
          exact (goesOn (admits.keyword first kind)).bind fun read all => returns_ok all
termination_by 3 * tokens.length + 2
decreasing_by
  · omega
  · omega
  · omega
  · omega

theorem read_argumentsAfter (admits : flow.Admits env) (at_ : Token) (values : List Value) (tokens : Tokens)
    (each : ∀ value ∈ values, flow.value value) (fine : ∀ token ∈ tokens, flow.token token) :
    Returns (env.argumentsAfter at_ values tokens) fun read =>
      (∀ value ∈ read.result, flow.value value) ∧ ∀ token ∈ read.rest, flow.token token := by
  rw [Environment.argumentsAfter]
  split
  · exact returns_error
  · rename_i token rest start
    have shorter := tokens.length_lt_of_trimLeft start
    have fine' : ∀ token ∈ rest, flow.token token := fun other member =>
      fine other (mem_of_mem_trimLeft (by rw [start]; exact mem_cons_of_mem _ member))
    split
    · refine (read_arguments admits at_ rest fine').bind fun read all => returns_ok ⟨?_, all.2⟩
      exact fun value member => (mem_append.mp member).elim (each value) (all.1 value)
    split
    · exact returns_ok ⟨each, fine'⟩
    · exact returns_error
termination_by 3 * tokens.length + 1

end

/-! ### Whole values -/

theorem written_carryIdentifier (admits : flow.Admits env) (grouped : Bool) {token : Token} {rest : Tokens}
    (kind : token.kind = .identifier) (fine : ∀ other ∈ token :: rest, flow.token other) :
    Returns (env.carryIdentifier grouped token rest) fun carried =>
      flow.written carried.result ∧ ∀ other ∈ carried.rest, flow.token other := by
  obtain ⟨first, others⟩ := forall_mem_cons.mp fine
  have filled := admits.filled grouped first (by rw [kind]; rfl)
  cases rest with
  | nil => exact filled.map fun token holds => ⟨holds, forall_mem_nil _⟩
  | cons next rest =>
    obtain ⟨second, further⟩ := forall_mem_cons.mp others
    rw [Environment.carryIdentifier]
    split
    · exact filled.map fun token holds => ⟨holds, others⟩
    rename_i opens
    rw [Decidable.not_not] at opens
    split
    · rename_i later
      -- The group of a function that is computed later is copied as a whole, up to where it closes.
      have parts := spanGroup_append 0 rest
      have inside : ∀ other ∈ (spanGroup 0 rest).1, flow.token other := fun other member =>
        further other (by rw [← parts]; exact mem_append_left _ member)
      have behind : ∀ other ∈ (spanGroup 0 rest).2, flow.token other := fun other member =>
        further other (by rw [← parts]; exact mem_append_right _ member)
      have group : ∀ other ∈ token :: next :: (spanGroup 0 rest).1, flow.token other :=
        forall_mem_cons.mpr ⟨first, forall_mem_cons.mpr ⟨second, inside⟩⟩
      exact (admits.deferred grouped group kind opens later).map fun _ holds => ⟨holds, behind⟩
    · have paren : flow.written [next] := admits.copied second (by rw [opens]; rfl) (by rw [opens]; decide)
      exact filled.map fun token holds => ⟨admits.append holds paren, further⟩

theorem written_carry (admits : flow.Admits env) (grouped : Bool) {token : Token} {rest : Tokens}
    (fine : ∀ other ∈ token :: rest, flow.token other) :
    Returns (env.carry grouped token rest) fun carried =>
      flow.written carried.result ∧ ∀ other ∈ carried.rest, flow.token other := by
  obtain ⟨first, others⟩ := forall_mem_cons.mp fine
  rw [Environment.carry]
  cases kind : token.kind with
  | atKeyword => exact (admits.resolved grouped token).map fun _ holds => ⟨holds, others⟩
  | identifier => exact written_carryIdentifier admits grouped kind fine
  | string | url =>
    exact (admits.filled grouped first (by rw [kind]; rfl)).map fun _ holds => ⟨holds, others⟩
  | _ =>
    have holds := admits.copied first (by rw [kind]; rfl) (by rw [kind]; decide)
    exact returns_ok ⟨holds, others⟩

theorem written_gap (admits : flow.Admits env) (last : Option Kind) (tokens : Tokens) :
    flow.written (Environment.gap last tokens) := by
  rw [Environment.gap]
  split
  · exact admits.space
  · exact admits.nil

theorem written_items_of (admits : flow.Admits env) (grouped : Bool) (last : Option Kind) (tokens : Tokens)
    (first : Returns (env.statement grouped tokens.trimLeft) flow.Read)
    (later : ∀ (last : Option Kind) (rest : Tokens), rest.length < tokens.length → (∀ token ∈ rest, flow.token token) →
      Returns (env.evaluateItems grouped last rest) flow.written) :
    Returns (env.evaluateItems grouped last tokens) flow.written := by
  rw [Environment.evaluateItems]
  split
  · exact returns_ok admits.nil
  · rename_i token others start
    have bound := tokens.length_lt_of_trimLeft start
    have gap := written_gap admits last tokens
    rw [start] at first
    -- Either a value is read and written, or one token is carried over; in both cases fewer tokens are left.
    refine first.bind fun reading read => ?_
    cases reading with
    | found value rest shorter =>
      have fewer : rest.length < tokens.length := by
        simp only [length_cons] at shorter
        omega
      have written := admits.append gap (admits.computed token read.1)
      refine (later _ rest fewer read.2).bind fun more holds => ?_
      exact returns_ok (admits.append written holds)
    | absent rest bounded =>
      cases rest with
      | nil => exact returns_ok gap
      | cons token rest =>
        refine (written_carry admits grouped read.2).bind fun carried holds => ?_
        have fewer : carried.rest.length < tokens.length := by
          have := carried.bounded
          simp only [length_cons] at bounded
          omega
        refine (later _ carried.rest fewer holds.2).bind fun more holds' => ?_
        exact returns_ok (admits.append (admits.append gap holds.1) holds')

theorem written_items (admits : flow.Admits env) (grouped : Bool) (last : Option Kind) (tokens : Tokens)
    (fine : ∀ token ∈ tokens, flow.token token) : Returns (env.evaluateItems grouped last tokens) flow.written := by
  have fine' : ∀ token ∈ tokens.trimLeft, flow.token token :=
    fun token member => fine token (mem_of_mem_trimLeft member)
  exact written_items_of admits grouped last tokens (read_statement admits grouped _ fine') fun last rest _ fine =>
    written_items admits grouped last rest fine
termination_by tokens.length

theorem written_evaluate (admits : flow.Admits env) (grouped : Bool) (tokens : Tokens)
    (fine : ∀ token ∈ tokens, flow.token token) : Returns (env.evaluate grouped tokens) flow.written := by
  rw [Environment.evaluate]
  split
  · exact written_items admits grouped none tokens fine
  · rename_i nothing
    exact admits.untouched grouped fine (by simpa using nothing)

/-- A value may begin with a call that fills placeholders, if what the call gives has the property. -/
theorem written_format (admits : flow.Admits env) (grouped : Bool) {percent opening : Token}
    (sign : percent.isMark "%" = true) (opens : opening.kind = .parenOpen) (tokens : Tokens)
    (fine : ∀ token ∈ tokens, flow.token token)
    (called : ∀ read, env.arguments percent tokens = .ok read → (∀ value ∈ read.result, flow.value value) →
      Returns (env.library.call percent.text percent read.result) flow.value) :
    Returns (env.evaluate grouped (percent :: opening :: tokens)) flow.written := by
  obtain ⟨kind, text⟩ : percent.kind = .other ∧ percent.text = "%" := by simpa [Token.isMark] using sign
  have solid : trimLeft (percent :: opening :: tokens) = percent :: opening :: tokens :=
    dropWhile_cons_of_neg (by simp [Token.isBlank, kind, Kind.isBlank])
  have applied : Returns (env.application percent opening tokens) flow.Read := by
    rw [Environment.application]
    have read : Returns (env.arguments percent tokens) fun read => env.arguments percent tokens = .ok read ∧
        (∀ value ∈ read.result, flow.value value) ∧ ∀ token ∈ read.rest, flow.token token :=
      fun read done => ⟨done, read_arguments admits percent tokens fine read done⟩
    exact read.bind fun read all => (called read all.1 all.2.1).bind fun value holds => returns_ok ⟨holds, all.2.2⟩
  have constant : Returns (env.constant grouped (trimLeft (percent :: opening :: tokens))) flow.Read := by
    rw [solid, Environment.constant.eq_def]
    dsimp only
    rwa [if_neg (by simp [kind]), if_neg (by simp [Token.isMark, text]), if_pos (by simp [opens, sign]),
      if_neg (by simp [kind])]
  have statement : Returns (env.statement grouped (percent :: opening :: tokens)) flow.Read := by
    rw [Environment.statement]
    refine constant.bind fun reading read => ?_
    cases reading with
    | absent rest bounded => exact returns_ok read
    | found value rest shorter =>
      exact (read_climb admits grouped none _ read.1 rest read.2).bind fun last read => returns_ok read
  rw [Environment.evaluate, if_pos (by simp [computes, kind, text])]
  exact written_items_of admits grouped none _ (solid.symm ▸ statement) fun last rest _ =>
    written_items admits grouped last rest

theorem value_evaluateSingle (admits : flow.Admits env) (grouped : Bool) (tokens : Tokens)
    (fine : ∀ token ∈ tokens, flow.token token) :
    Returns (env.evaluateSingle grouped tokens) fun value? => ∀ value ∈ value?, flow.value value := by
  refine (read_statement admits grouped tokens fine).bind fun reading read => ?_
  cases reading with
  | absent rest bounded => exact returns_ok nofun
  | found value rest shorter =>
    refine returns_ok fun value' found => ?_
    split at found
    · cases found
      exact read.1
    · cases found

/-! ### Variables -/

structure Knows (flow : Flow) (definition : Definition) : Prop where
  value (grouped : Bool) (at_ : Token) :
    Returns (definition.value? grouped at_) fun value? => ∀ value ∈ value?, flow.value value
  tokens (grouped : Bool) (at_ : Token) : Returns (definition.tokens grouped at_) flow.written

def KnowsAll (flow : Flow) (env : Environment) : Prop :=
  ∀ name definition, env.lookup? name = some definition → flow.Knows definition

namespace KnowsAll

variable (known : flow.KnowsAll env)

include known

theorem valueOf (grouped : Bool) (name : String) (at_ : Token) :
    Returns (env.valueOf? grouped name at_) fun value? => ∀ value ∈ value?, flow.value value := by
  rw [Environment.valueOf?]
  cases found : env.lookup? name with
  | none => exact returns_error
  | some definition => exact (known name definition found).value grouped at_

theorem resolve (grouped : Bool) (token : Token) : Returns (env.resolve grouped token) flow.written := by
  rw [Environment.resolve]
  cases found : env.lookup? token.text with
  | none => exact returns_error
  | some definition => exact (known token.text definition found).tokens grouped token

theorem substitute {post : Token → Prop} (written : ∀ out, flow.written out → ∀ token ∈ out, post token)
    {tokens : Tokens} (kept : ∀ token ∈ tokens, token.kind ≠ .atKeyword → post token) (grouped : Bool) :
    Returns (env.substitute grouped tokens) fun out => ∀ token ∈ out, post token := by
  have each : ∀ token ∈ tokens, Returns
      (if token.kind = .atKeyword then env.resolve grouped token else .ok [token])
      fun out => ∀ token ∈ out, post token := by
    intro token member
    split
    · exact (known.resolve grouped token).mono written
    · rename_i other
      exact returns_ok (forall_mem_singleton.mpr (kept token member other))
  refine (returns_mapM tokens each).bind fun parts all => returns_ok fun token member => ?_
  obtain ⟨part, found, inside⟩ := mem_flatten.mp member
  exact all part found token inside

end KnowsAll

/-- Variables with fine tokens have results with the properties, if the environments of a
scope with such variables admit the flow. -/
theorem knowsAll_definition? {library : Library} {scope : Scope}
    (fine : ∀ name tokens, scope.find? name = some tokens → ∀ token ∈ tokens, flow.token token)
    (admits : ∀ active, flow.KnowsAll ⟨library, scope.definition? library active⟩ →
      flow.Admits ⟨library, scope.definition? library active⟩)
    (trimmed : ∀ tokens, flow.written tokens → flow.written tokens.trim) (active : List String) :
    flow.KnowsAll ⟨library, scope.definition? library active⟩ := by
  intro name definition found
  change scope.definition? library active name = some definition at found
  rw [Scope.definition?] at found
  split at found
  · cases found
  · rename_i tokens defined
    split at found
    · cases found
      exact ⟨fun _ _ => returns_error, fun _ _ => returns_error⟩
    · rename_i fresh
      cases found
      have deeper := Scope.idle_cons_lt (Scope.mem_names_of_find? defined) fresh
      have inner := admits _ (knowsAll_definition? fine admits trimmed (name :: active))
      refine ⟨fun grouped _ => ?_, fun grouped _ => ?_⟩
      · exact value_evaluateSingle inner grouped tokens (fine name tokens defined)
      · exact (written_evaluate inner grouped tokens (fine name tokens defined)).map trimmed
termination_by scope.idle active

end Flow

end LessCss
