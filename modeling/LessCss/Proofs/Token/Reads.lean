import LessCss.Proofs.Token.Locality
import LessCss.Proofs.Token.Lossless
import LessCss.Proofs.Token.Readers

/-! Lists of tokens that their own text is read as. Main statement: such a list
stays one when another text follows it, if its last token is not lengthened by
that text. -/

set_option autoImplicit false

namespace LessCss

open List

open Text (isBlank)

def Token.spelling (token : Token) : Kind × String := (token.kind, token.text)

namespace Tokens

def spelling (tokens : Tokens) : List (Kind × String) := tokens.map Token.spelling

/-- The texts of the tokens are read as the tokens, if `last` stands before them and
`after` behind them. -/
def Reads (last : Option Token) (after : List Char) : Tokens → Prop
  | [] => True
  | token :: rest =>
    (∃ c own, token.text.toList = c :: own ∧
      Lexeme.read last c (own ++ ((text rest).toList ++ after)) = .token token.kind own.length) ∧
    Reads (Scan.lastSeen last token) after rest

def lastSeen (last : Option Token) (tokens : Tokens) : Option Token :=
  tokens.foldl Scan.lastSeen last

@[simp] theorem text_append (tokens others : Tokens) : text (tokens ++ others) = text tokens ++ text others := by
  induction tokens with
  | nil => simp
  | cons token rest ih => simp [ih, String.append_assoc]

variable {last last' : Option Token} {after after' : List Char} {tokens others : Tokens}

theorem reads_append : Reads last after (tokens ++ others) ↔
    Reads last ((text others).toList ++ after) tokens ∧ Reads (lastSeen last tokens) after others := by
  induction tokens generalizing last with
  | nil => simp [Reads, lastSeen]
  | cons token rest ih =>
    simp only [cons_append, Reads, ih, text_append, String.toList_append, List.append_assoc, and_assoc]
    rfl

/-! ### Scans -/

theorem read_congr (same : Lexeme.allowsSign last = Lexeme.allowsSign last') (c : Char) (rest : List Char) :
    Lexeme.read last c rest = Lexeme.read last' c rest := by
  unfold Lexeme.read
  rw [same]

theorem allowsSign_lastSeen (same : Lexeme.allowsSign last = Lexeme.allowsSign last') {token token' : Token}
    (alike : token.spelling = token'.spelling) :
    Lexeme.allowsSign (Scan.lastSeen last token) = Lexeme.allowsSign (Scan.lastSeen last' token') := by
  obtain ⟨kind, text, position⟩ := token
  obtain ⟨kind', text', position'⟩ := token'
  cases alike
  unfold Scan.lastSeen
  split
  · exact same
  · rfl

theorem Reads.congr (same : Lexeme.allowsSign last = Lexeme.allowsSign last')
    (reads : Reads last after tokens) : Reads last' after tokens := by
  induction tokens generalizing last last' with
  | nil => trivial
  | cons token rest ih =>
    obtain ⟨⟨c, own, text, read⟩, reads⟩ := reads
    rw [read_congr same] at read
    exact ⟨⟨c, own, text, read⟩, ih (allowsSign_lastSeen same rfl) reads⟩

/-- A scan gives tokens that its text is read as. -/
theorem reads_of_run {position place : Position} {cs : List Char}
    (ended : (Scan.run last ⟨cs, position⟩).ending = .ok place) :
    Reads last [] (Scan.run last ⟨cs, position⟩).tokens ∧
      (text (Scan.run last ⟨cs, position⟩).tokens).toList = cs := by
  refine Scan.run_induction (motive := fun last _ cs scan => scan.ending = .ok place →
    Reads last [] scan.tokens ∧ (text scan.tokens).toList = cs) ?_ ?_ ?_ last position cs ended
  · intro last position _
    exact ⟨trivial, by simp⟩
  · intro last position c rest expected more read ended
    cases ended
  · intro last position c rest kind more read token after scan ih ended
    obtain ⟨reads, covered⟩ : Reads _ [] scan.tokens ∧ (text scan.tokens).toList = rest.drop more := ih ended
    refine ⟨⟨⟨c, rest.take more, String.toList_ofList, ?_⟩, reads⟩, ?_⟩
    · rw [covered, append_nil, take_append_drop, length_take,
        Nat.min_eq_left (Lexeme.read_le read)]
      exact read
    · simp [Scan.cons, token, covered]

/-- Tokens that a text is read as are what a scan gives, up to their places. -/
theorem run_of_reads (position : Position) (same : Lexeme.allowsSign last = Lexeme.allowsSign last')
    (reads : Reads last [] tokens) :
    spelling (Scan.run last' ⟨(text tokens).toList, position⟩).tokens = spelling tokens ∧
      ∃ place, (Scan.run last' ⟨(text tokens).toList, position⟩).ending = .ok place := by
  induction tokens generalizing last last' position with
  | nil => simp [Scan.run_nil, spelling]
  | cons token rest ih =>
    obtain ⟨⟨c, own, spelled, read⟩, reads⟩ := reads
    rw [read_congr same, append_nil] at read
    rw [text_cons, String.toList_append, spelled, cons_append, Scan.run_token read, take_left, drop_left]
    have alike : token.spelling = (⟨token.kind, String.ofList (c :: own), position⟩ : Token).spelling := by
      rw [← spelled, String.ofList_toList]
      rfl
    obtain ⟨tokens, place⟩ := ih (position.after (c :: own)) (allowsSign_lastSeen same alike) reads
    refine ⟨?_, place⟩
    change _ :: spelling _ = _ :: spelling rest
    rw [tokens, alike]

/-! ### What follows a list -/

theorem read_blank {c : Char} (blank : isBlank c = true) (rest : List Char) :
    Lexeme.read last c rest = .token .whitespace (rest.takeWhile isBlank).length := by
  simp [Lexeme.read, blank]

theorem read_line (rest : List Char) : Lexeme.read last '/' ('/' :: rest) =
    .token .comment ((rest.takeWhile (· != '\n')).length + 1) := by
  rw [Lexeme.read_slash]
  simp

theorem takeWhile_length_of_head {test : Char → Bool} {own : List Char}
    (whole : ((own ++ after).takeWhile test).length = own.length) (same : after'.head? = after.head?) :
    ((own ++ after').takeWhile test).length = own.length := by
  obtain ⟨each, ends⟩ := Lexeme.length_takeWhile_append whole
  rw [Lexeme.takeWhile_append_of_head each (by rw [same]; exact ends)]

/-- A token is read again if the text behind it begins with the same characters. -/
theorem read_of_same {c d : Char} {own rest rest' : List Char} {kind : Kind}
    (reads : Lexeme.read last c (own ++ d :: rest) = .token kind own.length)
    (same : ∀ e, rest'.head? = some e → Lexeme.isNoisyPair d e = true → rest.head? = some e) : Lexeme.read last c (own ++ d :: rest') = .token kind own.length := by
  by_cases blank : isBlank c = true
  · rw [read_blank blank, Lexeme.Reading.token.injEq] at reads ⊢
    exact ⟨reads.1, takeWhile_length_of_head reads.2 rfl⟩
  · by_cases line : c = '/' ∧ (own ++ d :: rest).head? = some '/'
    · obtain ⟨rfl, head⟩ := line
      cases own with
      | nil =>
        cases head
        rw [nil_append, read_line, Lexeme.Reading.token.injEq] at reads
        cases reads.2
      | cons e own =>
        cases head
        rw [cons_append, read_line, Lexeme.Reading.token.injEq] at reads ⊢
        refine ⟨reads.1, congrArg (· + 1) (takeWhile_length_of_head (Nat.succ.inj reads.2) rfl)⟩
    · exact Lexeme.read_append reads (cons_ne_nil _ _) (by simpa using blank)
        (fun slash head => line ⟨slash, head⟩) (Lexeme.calmer_cons same)

/-- The last token of a list is no whitespace, and no comment that goes on to the end of the
line, and is not lengthened by the second text if it was not by the first. -/
def EndsCalmly (tokens : Tokens) (after after' : List Char) : Prop :=
  ∀ token, tokens.getLast? = some token → token.kind ≠ .whitespace ∧
    (token.kind = .comment → after.head? = some '\x7b') ∧
    ∀ c own, token.text.toList = c :: own → Lexeme.Calmer c after after'

theorem not_blank_of_read {c : Char} {own : List Char} {kind : Kind}
    (read : Lexeme.read last c (own ++ after) = .token kind own.length) (white : kind ≠ .whitespace)
    (comment : kind = .comment → after.head? = some '\x7b') :
    isBlank c = false ∧ (c = '/' → (own ++ after).head? ≠ some '/') := by
  constructor
  · rw [Bool.eq_false_iff]
    intro blank
    rw [read_blank blank, Lexeme.Reading.token.injEq] at read
    exact white read.1.symm
  · rintro rfl head
    obtain ⟨rest, line⟩ := List.head?_eq_some_iff.mp head
    rw [line, read_line, Lexeme.Reading.token.injEq] at read
    have brace := comment read.1.symm
    -- A comment up to the end of the line would have taken the brace in.
    cases own with
    | nil => cases read.2
    | cons d own =>
      cases line
      obtain ⟨_, ends⟩ := Lexeme.length_takeWhile_append (Nat.succ.inj read.2)
      rw [brace] at ends
      cases ends

/-- The characters of tokens that are read begin with those of the first token, and there are
no more of them only if there is no other token. -/
theorem Reads.exists_cons {token : Token} {rest : Tokens} (reads : Reads last after (token :: rest)) :
    ∃ d own, token.text.toList = d :: own ∧ (text (token :: rest)).toList = d :: (own ++ (text rest).toList) := by
  obtain ⟨⟨d, own, spelled, _⟩, _⟩ := reads
  exact ⟨d, own, spelled, by rw [text_cons, String.toList_append, spelled]; rfl⟩

/-- A list is read in front of another text if its last token is. -/
theorem Reads.change (reads : Reads last after tokens)
    (ends : ∀ last token, tokens.getLast? = some token → Reads last after [token] → Reads last after' [token])
    (pair : ∀ token d e, tokens.getLast? = some token → token.text.toList = [d] → after'.head? = some e →
      Lexeme.isNoisyPair d e = true → after.head? = some e) : Reads last after' tokens := by
  induction tokens generalizing last with
  | nil => trivial
  | cons token rest ih =>
    cases rest with
    | nil => exact ends last token rfl reads
    | cons next rest =>
      obtain ⟨⟨c, own, spelled, read⟩, reads⟩ := reads
      refine ⟨⟨c, own, spelled, ?_⟩, ih reads (fun last token found => ends last token (by simpa using found))
        fun token d e found => pair token d e (by simpa using found)⟩
      obtain ⟨d, own', spelled', chars⟩ := reads.exists_cons
      rw [chars] at read ⊢
      refine read_of_same read fun e head noisy => ?_
      -- Behind the first character of the next token only its last character can see another text.
      cases more : own' ++ (text rest).toList with
      | cons x more => simpa [more] using head
      | nil =>
        obtain ⟨rfl, empty⟩ := append_eq_nil_iff.mp more
        cases rest with
        | nil =>
          rw [more] at head
          exact pair next d e rfl spelled' head noisy
        | cons other rest =>
          obtain ⟨_, _, _, chars⟩ := reads.2.exists_cons
          rw [chars] at empty
          cases empty

/-- A list that is not lengthened by another text is read in front of it. -/
theorem Reads.replace (reads : Reads last after tokens) (some_ : after ≠ [])
    (calm : EndsCalmly tokens after after') : Reads last after' tokens := by
  apply reads.change
  · rintro last token found ⟨⟨c, own, spelled, read⟩, _⟩
    obtain ⟨white, comment, calmer⟩ := calm token found
    obtain ⟨blank, line⟩ := not_blank_of_read read white comment
    exact ⟨⟨c, own, spelled, Lexeme.read_append read some_ blank line (calmer c own spelled)⟩, trivial⟩
  · intro token d e found spelled head pair
    obtain ⟨rest', rfl⟩ := List.head?_eq_some_iff.mp head
    obtain ⟨noisy, brace⟩ := Lexeme.noisy_of_isNoisyPair pair
    obtain ⟨rest, rfl, _⟩ := (calm token found).2.2 d [] spelled e rest' rfl noisy brace
    rfl

/-- A list is read in front of every text that begins with the same blank. -/
theorem Reads.replace_blank {d : Char} {rest rest' : List Char} (blank : isBlank d = true)
    (reads : Reads last (d :: rest) tokens) : Reads last (d :: rest') tokens := by
  apply reads.change
  · rintro last token _ ⟨⟨c, own, spelled, read⟩, _⟩
    refine ⟨⟨c, own, spelled, read_of_same read fun e _ pair => ?_⟩, trivial⟩
    simp only [Lexeme.isNoisyPair, Bool.or_eq_true, Bool.and_eq_true, beq_iff_eq] at pair
    rcases pair with ⟨rfl, _⟩ | ⟨rfl, _⟩
    all_goals cases blank
  · intro token c e _ _ head _
    exact head

end Tokens

end LessCss
