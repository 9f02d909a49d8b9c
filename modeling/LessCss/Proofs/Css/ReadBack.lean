import LessCss.Proofs.Token.Canonical
import LessCss.Proofs.Yields

/-! What is printed for the tokens of a text is read as these tokens again. Main
statement: without comments, the blanks at the two ends are gone, each other run of
blanks is one space, and every other token is the same. -/

set_option autoImplicit false

namespace LessCss

open List

/-! ### Blanks at the ends are not printed -/

namespace Css

open Tokens

theorem renderFrom_gaps (written pending : Bool) {run : Tokens} (blank : Blank run) (some_ : run ≠ [])
    (tokens : Tokens) : renderFrom written pending (run ++ tokens) = renderFrom written written tokens := by
  induction run generalizing pending with
  | nil => exact absurd rfl some_
  | cons token run ih =>
    obtain ⟨first, more⟩ := forall_mem_cons.mp blank
    rw [cons_append, renderFrom, if_pos first]
    cases run with
    | nil => rfl
    | cons next run => exact ih written more (cons_ne_nil _ _)

theorem renderFrom_of_blank {tokens : Tokens} (blank : Blank tokens) (written pending : Bool) :
    renderFrom written pending tokens = [] := by
  induction tokens generalizing pending with
  | nil => rfl
  | cons token rest ih =>
    obtain ⟨first, others⟩ := forall_mem_cons.mp blank
    rw [renderFrom, if_pos first, ih others]

theorem render_trim (tokens : Tokens) : render (trim tokens) = render tokens := by
  obtain ⟨before, after, blank, blank', same⟩ := exists_trim tokens
  -- A gap is only printed together with what follows it.
  have back (written pending : Bool) (front : Tokens) :
      renderFrom written pending (front ++ after) = renderFrom written pending front := by
    induction front generalizing written pending with
    | nil => exact renderFrom_of_blank blank' written pending
    | cons token front ih => simp only [cons_append, renderFrom, ih]
  conv => rhs; rw [same]
  rw [render, render, back]
  cases before with
  | nil => rfl
  | cons token before => rw [renderFrom_gaps false false blank (cons_ne_nil _ _)]

end Css

/-! ### Reading what is printed -/

namespace Tokens

variable {last : Option Token} {tokens : Tokens}

/-- A sign that may stand in front of blanks may stand behind them. -/
theorem allowsSign_of_blank (blank : Blank tokens) (sign : Lexeme.allowsSign last = true) :
    Lexeme.allowsSign (lastSeen last tokens) = true := by
  induction tokens generalizing last with
  | nil => exact sign
  | cons token rest ih =>
    obtain ⟨first, others⟩ := forall_mem_cons.mp blank
    refine ih others ?_
    unfold Scan.lastSeen
    split
    · exact sign
    · rename_i other
      have white : token.kind = .whitespace := by
        simpa [Token.isBlank, Kind.isBlank, other] using first
      rw [Lexeme.allowsSign, white]

theorem Reads.end_of_text {after : List Char} {token : Token} (solid : token.isBlank = false)
    (reads : Reads last after [token]) : Reads last [] [token.canonical] := by
  obtain ⟨⟨c, own, spelled, read⟩, _⟩ := reads
  obtain ⟨white, comment⟩ := kind_of_not_blank solid
  refine ⟨⟨c, own, by rw [Token.text_canonical white, spelled], ?_⟩, trivial⟩
  cases after with
  | nil => exact read
  | cons d after =>
    obtain ⟨blank, line⟩ := not_blank_of_read read white (absurd · comment)
    exact Lexeme.read_append read (cons_ne_nil d after) blank line (Lexeme.calmer_nil _ _)

/-- A sign may stand at the beginning of a text and behind blanks, so the blanks in front do not matter. -/
theorem Reads.exists_trim (reads : Reads none [] tokens) : ∃ after, Reads none after (trim tokens) := by
  obtain ⟨before, after, blank, _, same⟩ := Tokens.exists_trim tokens
  rw [same, List.append_assoc, reads_append, reads_append] at reads
  have sign : Lexeme.allowsSign (lastSeen none before) = Lexeme.allowsSign none := allowsSign_of_blank blank rfl
  exact ⟨_, reads.2.1.congr sign⟩

theorem spelling_canonical (tokens : Tokens) : spelling (canonical tokens) =
    tokens.map fun token => (token.kind, if token.kind = .whitespace then " " else token.text) := by
  rw [spelling, canonical, map_map]
  rfl

theorem reads_of_complete {source text : String} (scanned : (Scan.ofText source text).complete = .ok tokens) :
    Reads none [] tokens := by
  unfold Scan.complete at scanned
  cases ended : (Scan.ofText source text).ending with
  | error fault =>
    rw [ended] at scanned
    cases scanned
  | ok place =>
    rw [ended] at scanned
    cases scanned
    exact (reads_of_run ended).1

/-- What is printed for the tokens of a text without comments is read as these tokens,
with no blanks at the ends and one space for those inside. -/
theorem render_read_back {source text : String} {tokens : Tokens}
    (scanned : (Scan.ofText source text).complete = .ok tokens)
    (plain : ∀ token ∈ tokens, token.kind ≠ .comment) (source' : String) :
    ∃ tokens', (Scan.ofText source' (Css.render tokens)).complete = .ok tokens' ∧
      spelling tokens' = (trim tokens).map fun token =>
        (token.kind, if token.kind = .whitespace then " " else token.text) := by
  obtain ⟨after, reads⟩ := (reads_of_complete scanned).exists_trim
  have solid : ∀ token ∈ trim tokens, token.kind ≠ .comment :=
    fun token member => plain token (mem_of_mem_trim member)
  have printed := render_eq_text reads (trim_trim tokens) solid
  rw [Css.render_trim] at printed
  -- One space for a run of blanks changes no border, and the text now ends behind the last token.
  have again : Reads none [] (canonical (trim tokens)) := by
    apply reads.canonical solid
    · exact fun last token found alone => alone.end_of_text (getLast_of_trim (trim_trim tokens) found)
    · exact fun token d e _ _ head => nomatch head
  obtain ⟨alike, place, ended⟩ := run_of_reads (.start source') rfl again
  rw [← printed] at alike ended
  refine ⟨_, by rw [Scan.complete, Scan.ofText, ended]; rfl, ?_⟩
  rw [alike, spelling_canonical]

def looseTokens : String :=
  " \t-.5px a\\ \n +\u00a0-2 url( b ) c\u00a0 - d: @\x7be  "

theorem looseTokens_read_back : ∃ tokens tokens' : Tokens,
    (Scan.ofText "in" looseTokens).complete = .ok tokens ∧
    (Scan.ofText "out" (Css.render tokens)).complete = .ok tokens' ∧
    tokens'.map Token.text = ["-.5px", " ", "a\\ ", " ", "+", " ", "-2", " ", "url( b )", " ", "c\u00a0", " ", "-", " ",
      "d", ":", " ", "@\x7be  "] ∧
    spelling tokens' = (trim tokens).map fun token =>
      (token.kind, if token.kind = .whitespace then " " else token.text) := by
  have checked : ((Scan.ofText "in" looseTokens).complete.toOption.any fun tokens =>
      (tokens.all fun token => token.kind != .comment) && ((trim tokens).map fun token =>
        if token.kind = .whitespace then " " else token.text) == ["-.5px", " ", "a\\ ", " ", "+", " ", "-2", " ",
          "url( b )", " ", "c\u00a0", " ", "-", " ", "d", ":", " ", "@\x7be  "]) = true := by
    decide +kernel
  obtain ⟨tokens, scanned, checked⟩ := (Option.any_eq_true _ _).mp checked
  rw [Bool.and_eq_true, all_eq_true, beq_iff_eq] at checked
  have complete := ok_of_toOption scanned
  obtain ⟨tokens', again, spelled⟩ := render_read_back complete
    (fun token member => by simpa using checked.1 token member) "out"
  have texts := congrArg (List.map Prod.snd) spelled
  rw [spelling, map_map, map_map] at texts
  exact ⟨tokens, tokens', complete, again, texts.trans checked.2, spelled⟩

end Tokens

end LessCss
