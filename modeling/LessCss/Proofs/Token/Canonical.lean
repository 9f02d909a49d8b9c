import LessCss.Css
import LessCss.Proofs.Token.Branches
import LessCss.Proofs.Token.Scans

/-! Tokens with one space for each run of blanks. Main statement: where tokens are
read from their texts, they are still read from them after such a change, and
what is printed for them is the text of the changed tokens. -/

set_option autoImplicit false

namespace LessCss

open List Lexeme

open Text (isBlank)

def Token.canonical (token : Token) : Token :=
  .synthetic token.kind (if token.kind = .whitespace then " " else token.text)

@[simp] theorem Token.kind_canonical (token : Token) : token.canonical.kind = token.kind := rfl

@[simp] theorem Token.isBlank_canonical (token : Token) : token.canonical.isBlank = token.isBlank := rfl

theorem Token.text_canonical {token : Token} (other : token.kind ≠ .whitespace) :
    token.canonical.text = token.text :=
  if_neg other

theorem Token.text_canonical_blank {token : Token} (white : token.kind = .whitespace) :
    token.canonical.text = " " :=
  if_pos white

namespace Tokens

def canonical (tokens : Tokens) : Tokens := tokens.map Token.canonical

@[simp] theorem canonical_nil : canonical [] = [] := rfl

@[simp] theorem canonical_cons (token : Token) (rest : Tokens) :
    canonical (token :: rest) = token.canonical :: canonical rest := rfl

@[simp] theorem canonical_append (tokens others : Tokens) :
    canonical (tokens ++ others) = canonical tokens ++ canonical others :=
  map_append

variable {last last' : Option Token} {after after' : List Char} {tokens : Tokens}

/-! ### Reading -/

theorem allowsSign_canonical (same : allowsSign last = allowsSign last') (token : Token) :
    allowsSign (Scan.lastSeen last token) = allowsSign (Scan.lastSeen last' token.canonical) := by
  unfold Scan.lastSeen
  rw [Token.kind_canonical]
  split
  · exact same
  · unfold allowsSign
    dsimp only
    rw [Token.kind_canonical]
    split
    all_goals first | rfl | (rename_i kind; rw [Token.text_canonical (by rw [kind]; decide)])

theorem Reads.head {token : Token} {rest : Tokens} (reads : Reads last after (token :: rest)) :
    ∃ d own, token.text.toList = d :: own ∧ (isBlank d = true ↔ token.kind = .whitespace) := by
  obtain ⟨⟨d, own, spelled, read⟩, _⟩ := reads
  refine ⟨d, own, spelled, fun blank => ?_, fun white => blank_of_whitespace (white ▸ read)⟩
  rw [read_blank blank, Lexeme.Reading.token.injEq] at read
  exact read.1.symm

theorem Reads.not_blank {token next : Token} {rest : Tokens} (reads : Reads last after (token :: next :: rest))
    (white : token.kind = .whitespace) : next.kind ≠ .whitespace := by
  obtain ⟨⟨c, own, spelled, read⟩, others⟩ := reads
  obtain ⟨d, own', spelled', blank⟩ := others.head
  have blank' := blank_of_whitespace (white ▸ read)
  rw [read_blank blank', text_cons, String.toList_append, spelled', Lexeme.Reading.token.injEq] at read
  obtain ⟨_, ends⟩ := length_takeWhile_append read.2
  rw [Ne, ← blank]
  simpa using ends

/-- One space for blanks brings in nothing that could lengthen the token before it. -/
theorem calmer_canonical {next : Token} {rest : Tokens} (reads : Reads last after (next :: rest))
    (pair : ∀ token d e, (next :: rest).getLast? = some token → token.text.toList = [d] → after'.head? = some e →
      isNoisyPair d e = true → after.head? = some e) (c : Char) :
    Lexeme.Calmer c ((text (next :: rest)).toList ++ after) ((text (canonical (next :: rest))).toList ++ after') := by
  obtain ⟨d, own, spelled, _⟩ := reads.head
  rw [canonical_cons, text_cons, text_cons, String.toList_append, String.toList_append, spelled]
  by_cases white : next.kind = .whitespace
  · rw [Token.text_canonical_blank white]
    exact calmer_quiet rfl _ _ _
  · rw [Token.text_canonical white, spelled]
    refine calmer_cons fun e head noisy => ?_
    cases own with
    | cons x own => simpa using head
    | nil =>
      cases rest with
      | nil => simpa using pair next d e rfl spelled (by simpa using head) noisy
      | cons other rest =>
        obtain ⟨x, own, spelled, _⟩ := reads.2.head
        by_cases white : other.kind = .whitespace
        · -- A space does not go on with a number or a hole.
          have space : e = ' ' := by simpa [Token.text_canonical_blank white, eq_comm] using head
          simp [space, isNoisyPair] at noisy
        · simpa [Token.text_canonical white, spelled] using head

theorem Reads.canonical (reads : Reads last after tokens) (solid : ∀ token ∈ tokens, token.kind ≠ .comment)
    (ends : ∀ last token, tokens.getLast? = some token → Reads last after [token] →
      Reads last after' [token.canonical])
    (pair : ∀ token d e, tokens.getLast? = some token → token.text.toList = [d] → after'.head? = some e →
      isNoisyPair d e = true → after.head? = some e) : Reads last after' tokens.canonical := by
  induction tokens generalizing last with
  | nil => trivial
  | cons token rest ih =>
    obtain ⟨noComment, others⟩ := forall_mem_cons.mp solid
    cases rest with
    | nil => exact ends last token rfl reads
    | cons next rest =>
      have pair' : ∀ token d e, (next :: rest).getLast? = some token → token.text.toList = [d] →
          after'.head? = some e → isNoisyPair d e = true → after.head? = some e :=
        fun token d e found => pair token d e (by simpa using found)
      have reads' := ih reads.2 others (fun last token found => ends last token (by simpa using found)) pair'
      rw [canonical_cons]
      refine ⟨?_, reads'.congr (allowsSign_canonical rfl token)⟩
      obtain ⟨d, own', spelled', blank'⟩ := reads.2.head
      -- Blanks end where the next token begins, and all others are read up to the same place.
      by_cases white : token.kind = .whitespace
      · have solid' := reads.not_blank white
        refine ⟨' ', [], by rw [Token.text_canonical_blank white]; rfl, ?_⟩
        rw [read_blank rfl, Token.kind_canonical, white, canonical_cons, text_cons, String.toList_append,
          Token.text_canonical solid', spelled']
        simp [Bool.eq_false_iff.mpr (mt blank'.mp solid')]
      · obtain ⟨⟨c, own, spelled, read⟩, reads⟩ := reads
        obtain ⟨blank, line⟩ := not_blank_of_read read white (absurd · noComment)
        have some_ : (text (next :: rest)).toList ++ after ≠ [] := by
          rw [text_cons, String.toList_append, spelled']
          exact cons_ne_nil _ _
        exact ⟨c, own, by rw [Token.text_canonical white, spelled],
          read_append read some_ blank line (calmer_canonical reads pair' c)⟩

theorem getLast_of_trim (trimmed : trim tokens = tokens) {token : Token} (found : tokens.getLast? = some token) :
    token.isBlank = false := by
  have reversed : trimLeft tokens.reverse = tokens.reverse := by
    have right : trimRight tokens = tokens := by
      rw [← trimmed, trim, trimRight_trimRight]
    exact reverse_inj.mp (by rw [reverse_reverse]; exact right)
  refine trimLeft_eq_self_iff.mp reversed token ?_
  rw [List.head?_reverse, found]

theorem head_of_trim (trimmed : trim tokens = tokens) {token : Token} (found : tokens.head? = some token) :
    token.isBlank = false := by
  refine trimLeft_eq_self_iff.mp ?_ token found
  rw [← trimmed, trim]
  exact trimLeft_trimRight (trimLeft_trimLeft tokens)

theorem trim_eq_self (front : ∀ token, tokens.head? = some token → token.isBlank = false)
    (back : ∀ token, tokens.getLast? = some token → token.isBlank = false) : trim tokens = tokens := by
  have left := trimLeft_eq_self_iff.mpr front
  have right : trimLeft tokens.reverse = tokens.reverse := by
    apply trimLeft_eq_self_iff.mpr
    rw [List.head?_reverse]
    exact back
  rw [trim, left, trimRight]
  exact (congrArg List.reverse right).trans (reverse_reverse tokens)

theorem kind_of_not_blank {token : Token} (solid : token.isBlank = false) :
    token.kind ≠ .whitespace ∧ token.kind ≠ .comment := by
  refine ⟨kind_of_solid solid, fun comment => ?_⟩
  rw [Token.isBlank, comment] at solid
  cases solid

/-- Without holes and comments, trimmed tokens are read in front of every calm text. -/
theorem Reads.canonical_sealed (reads : Reads last after tokens) (some_ : after ≠ [])
    (trimmed : trim tokens = tokens) (solid : ∀ token ∈ tokens, token.kind ≠ .comment)
    (plain : ∀ token ∈ tokens, '@' ∉ token.text.toList) (calm : startsCalm after' = true) :
    Reads last after' tokens.canonical := by
  -- Without a hole to open, a brace behind the tokens is as quiet as any other character.
  have calmer (c : Char) (other : c ≠ '@') : Lexeme.Calmer c after after' := by
    cases after' with
    | nil => exact calmer_nil _ _
    | cons d rest =>
      rcases (Bool.or_eq_true _ _).mp calm with quiet | brace
      · exact calmer_quiet quiet _ _ _
      · rw [beq_iff_eq.mp brace]
        exact calmer_brace other _ _
  apply reads.canonical solid
  · rintro last token found ⟨⟨c, own, spelled, read⟩, _⟩
    obtain ⟨white, comment⟩ := kind_of_not_blank (getLast_of_trim trimmed found)
    obtain ⟨blank, line⟩ := not_blank_of_read read white (absurd · comment)
    have other : c ≠ '@' := by
      rintro rfl
      exact plain token (mem_of_getLast? found) (by simp [spelled])
    exact ⟨⟨c, own, by rw [Token.text_canonical white, spelled],
      read_append read some_ blank line (calmer c other)⟩, trivial⟩
  · intro token d e found spelled head noisy
    obtain ⟨rest', rfl⟩ := List.head?_eq_some_iff.mp head
    obtain ⟨loud, brace⟩ := noisy_of_isNoisyPair noisy
    have other : d ≠ '@' := by
      rintro rfl
      exact plain token (mem_of_getLast? found) (by simp [spelled])
    obtain ⟨rest, rfl, _⟩ := calmer d other e rest' rfl loud brace
    rfl

/-! ### Printing -/

theorem renderFrom_blank {next : Token} (solid : next.isBlank = false) (rest : Tokens) :
    Css.renderFrom true true (next :: rest) = " " :: Css.renderFrom true false (next :: rest) := by
  simp [Css.renderFrom, solid]

theorem join_renderFrom (reads : Reads last after tokens) (solid : ∀ token ∈ tokens, token.kind ≠ .comment)
    (ends : ∀ token, tokens.getLast? = some token → token.isBlank = false) :
    String.join (Css.renderFrom true false tokens) = text tokens.canonical := by
  induction tokens generalizing last with
  | nil => simp [Css.renderFrom]
  | cons token rest ih =>
    obtain ⟨noComment, others⟩ := forall_mem_cons.mp solid
    have ends' : ∀ token, rest.getLast? = some token → token.isBlank = false := by
      intro other found
      apply ends other
      cases rest with
      | nil => cases found
      | cons next rest => simpa using found
    have rest' := ih reads.2 others ends'
    cases blank : token.isBlank with
    | false =>
      rw [Css.renderFrom, blank, canonical_cons, text_cons, Token.text_canonical (kind_of_not_blank blank).1]
      simp [rest']
    | true =>
      have white : token.kind = .whitespace := by
        simpa [Token.isBlank, Kind.isBlank, noComment] using blank
      cases rest with
      | nil =>
        rw [ends token rfl] at blank
        cases blank
      | cons next rest =>
        -- Two blanks never follow each other, so each one becomes one space.
        have solid' : next.isBlank = false := by
          simp [Token.isBlank, Kind.isBlank, reads.not_blank white, others next mem_cons_self]
        rw [Css.renderFrom, if_pos blank, renderFrom_blank solid', String.join_cons, rest', canonical_cons token,
          text_cons token.canonical, Token.text_canonical_blank white]

theorem render_eq_text (reads : Reads last after tokens) (trimmed : trim tokens = tokens)
    (solid : ∀ token ∈ tokens, token.kind ≠ .comment) : Css.render tokens = text tokens.canonical := by
  rw [← join_renderFrom reads solid fun token found => getLast_of_trim trimmed found, Css.render]
  cases tokens with
  | nil => rfl
  | cons token rest =>
    have blank := head_of_trim trimmed (show (token :: rest).head? = some token from rfl)
    obtain ⟨d, own, spelled, _⟩ := reads.head
    have filled : token.text.isEmpty = false := by
      rw [Bool.eq_false_iff, Ne, String.isEmpty_iff]
      intro empty
      simp [empty] at spelled
    simp [Css.renderFrom, blank, filled]

end Tokens

end LessCss
