import LessCss.Proofs.Spacing.Readers
import LessCss.Proofs.Token.Scans
import Mathlib.Data.List.DropRight

/-! Scans of a text in which a comment is replaced by a space. Main statement: the tokens in
front of the comment and behind it stay, and the space becomes one token with the blanks
beside it, unless a sign that the comment has kept apart from a number is joined with it. -/

set_option autoImplicit false

namespace LessCss

open List

open Text (isBlank)

/-! ### Scans with another token before them -/

structure Scan.Alike (scan scan' : Scan) : Prop where
  tokens : Tokens.spelling scan'.tokens = Tokens.spelling scan.tokens
  ending : Agree (fun _ _ => True) scan.ending scan'.ending

namespace Tokens

def startsSigned (tokens : Tokens) : Bool :=
  let rest := tokens.dropWhile fun token => token.kind == .comment
  rest.head?.any (·.isMark "-") && rest.tail.head?.any (·.kind.isNumeric)

theorem startsSigned_mark {token : Token} (numeric : token.kind.isNumeric = true)
    (position : Position) (rest : Tokens) :
    startsSigned (⟨.other, String.ofList ['-'], position⟩ :: token :: rest) = true := by
  unfold startsSigned
  rw [dropWhile_cons_of_neg (by simp)]
  simp only [List.head?_cons, tail_cons, Option.any_some, numeric, Bool.and_true]
  rfl

theorem startsSigned_comment {token : Token} (comment : token.kind = .comment) (rest : Tokens) :
    startsSigned (token :: rest) = startsSigned rest := by
  unfold startsSigned
  rw [dropWhile_cons_of_pos (by simp [comment])]

end Tokens

namespace Scan

theorem Alike.cons {token token' : Token} (same : token'.spelling = token.spelling) {scan scan' : Scan}
    (alike : scan.Alike scan') : (scan.cons token).Alike (scan'.cons token') :=
  ⟨congrArg₂ List.cons same alike.tokens, alike.ending⟩

/-- Only whether a sign may follow counts of the token before a text. -/
theorem run_alike {last last' : Option Token} (same : Lexeme.allowsSign last = Lexeme.allowsSign last')
    (position position' : Position) (cs : List Char) : (run last ⟨cs, position⟩).Alike (run last' ⟨cs, position'⟩) := by
  cases cs with
  | nil =>
    rw [run, run]
    exact ⟨rfl, .ok trivial⟩
  | cons c rest =>
    have read' := Tokens.read_congr same c rest
    cases read : Lexeme.read last c rest with
    | unclosed expected more =>
      rw [run_unclosed read, run_unclosed (read'.symm.trans read)]
      exact ⟨rfl, .error _ _⟩
    | token kind more =>
      rw [run_token read, run_token (read'.symm.trans read)]
      refine Alike.cons ?_ (run_alike (Tokens.allowsSign_lastSeen same ?_) _ _ _)
      all_goals rfl
termination_by cs.length

theorem read_of_unsigned {c : Char} {rest : List Char} (other : ¬ (c = '-' ∧ Lexeme.startsNumber rest = true))
    (last last' : Option Token) : Lexeme.read last c rest = Lexeme.read last' c rest := by
  have unsigned : (c == '-' && Lexeme.startsNumber rest) = false := by
    rw [Bool.and_eq_false_iff, beq_eq_false_iff_ne]
    rcases Classical.not_and_iff_not_or_not.mp other with other | other
    · exact .inl other
    · exact .inr (Bool.eq_false_iff.mpr other)
  unfold Lexeme.read
  simp only [unsigned, Bool.false_and]

theorem exists_number {cs : List Char} (number : Lexeme.startsNumber cs = true) (position : Position) (last : Option Token) :
    ∃ token rest, (run last ⟨cs, position⟩).tokens = token :: rest ∧
      token.kind.isNumeric = true := by
  cases cs with
  | nil => cases number
  | cons c rest =>
    rw [run_token (Lexeme.read_number number last)]
    exact ⟨_, _, rfl, Lexeme.isNumeric_numberExtent _⟩

/-- Where no sign stands before a number, a sign may follow on one side only. -/
theorem run_unsigned {last last' : Option Token} (free : Lexeme.allowsSign last' = true) (position position' : Position)
    {cs : List Char}
    (unsigned : Lexeme.allowsSign last = false → Tokens.startsSigned (run last ⟨cs, position⟩).tokens = false) :
    (run last ⟨cs, position⟩).Alike (run last' ⟨cs, position'⟩) := by
  cases sign : Lexeme.allowsSign last with
  | true => exact run_alike (sign.trans free.symm) position position' cs
  | false =>
    have unsigned := unsigned sign
    cases cs with
    | nil =>
      rw [run, run]
      exact ⟨rfl, .ok trivial⟩
    | cons c rest =>
      -- Only a dash before a number depends on what was seen, and such a dash would start with a sign.
      by_cases signed : c = '-' ∧ Lexeme.startsNumber rest = true
      · obtain ⟨rfl, number⟩ := signed
        have read : Lexeme.read last '-' rest = .token .other 0 := by
          have named : ¬ Lexeme.startsName rest = true := fun named => by
            rw [Lexeme.startsNumber_of_startsName named] at number
            cases number
          rw [Lexeme.read_minus, sign, Bool.and_false, if_neg Bool.false_ne_true, if_neg named]
        obtain ⟨token, more, tokens, numeric⟩ := exists_number number (position.after ['-'])
          (some ⟨.other, String.ofList ['-'], position⟩)
        have both : (run last ⟨'-' :: rest, position⟩).tokens = ⟨.other, String.ofList ['-'], position⟩ :: token :: more := by
          rw [run_token read]
          exact congrArg (List.cons _) tokens
        rw [both, Tokens.startsSigned_mark numeric] at unsigned
        cases unsigned
      · have read' := read_of_unsigned signed last last'
        cases read : Lexeme.read last c rest with
        | unclosed expected more =>
          rw [run_unclosed read, run_unclosed (read'.symm.trans read)]
          exact ⟨rfl, .error _ _⟩
        | token kind more =>
          rw [run_token read] at unsigned ⊢
          rw [run_token (read'.symm.trans read)]
          have alike : (⟨kind, String.ofList (c :: rest.take more), position'⟩ : Token).spelling =
              (⟨kind, String.ofList (c :: rest.take more), position⟩ : Token).spelling := rfl
          refine .cons alike ?_
          -- Behind a comment the sign still depends on what stood in front of it.
          by_cases comment : kind = .comment
          · subst comment
            rw [cons, Tokens.startsSigned_comment rfl] at unsigned
            exact run_unsigned free _ _ fun _ => unsigned
          · have seen (before : Option Token) (place : Position) :
                lastSeen before ⟨kind, String.ofList (c :: rest.take more), place⟩ =
                  some ⟨kind, String.ofList (c :: rest.take more), place⟩ := if_neg comment
            rw [seen, seen]
            refine run_alike ?_ _ _ _
            rfl
termination_by cs.length

/-! ### Scans in two parts -/

/-- The tokens of a scan are read one after the other. -/
theorem run_split {tokens rest : Tokens} (position : Position) {last : Option Token} {cs : List Char}
    (scanned : (run last ⟨cs, position⟩).tokens = tokens ++ rest) : ∃ place ds,
      cs = (Tokens.text tokens).toList ++ ds ∧ Tokens.Reads last ds tokens ∧
        (run (Tokens.lastSeen last tokens) ⟨ds, place⟩).tokens = rest ∧
        (run (Tokens.lastSeen last tokens) ⟨ds, place⟩).ending = (run last ⟨cs, position⟩).ending := by
  induction tokens generalizing position last cs with
  | nil => exact ⟨position, cs, by simp, trivial, scanned, rfl⟩
  | cons token tokens ih =>
    cases cs with
    | nil =>
      rw [run] at scanned
      cases scanned
    | cons c cs =>
      cases read : Lexeme.read last c cs with
      | unclosed expected more =>
        rw [run_unclosed read] at scanned
        cases scanned
      | token kind more =>
        have scan := run_token read position
        rw [scan, cons, cons_append, List.cons.injEq] at scanned
        obtain ⟨rfl, scanned⟩ := scanned
        obtain ⟨place, ds, covered, reads, same, ending⟩ := ih _ scanned
        refine ⟨place, ds, ?_, ⟨⟨c, cs.take more, String.toList_ofList, ?_⟩, reads⟩, same, ?_⟩
        · rw [Tokens.text_cons, String.toList_append, String.toList_ofList, List.append_assoc, ← covered,
            cons_append, take_append_drop]
        · rw [← covered, take_append_drop, length_take, Nat.min_eq_left (Lexeme.read_le read)]
          exact read
        · rw [scan]
          exact ending

/-- Tokens that a text is read as are the first ones that a scan gives. -/
theorem run_join {tokens : Tokens} {last last' : Option Token} {after : List Char} (position : Position)
    (same : Lexeme.allowsSign last = Lexeme.allowsSign last') (reads : Tokens.Reads last after tokens) :
    ∃ tokens' place, Tokens.spelling tokens' = Tokens.spelling tokens ∧
      (run last' ⟨(Tokens.text tokens).toList ++ after, position⟩).tokens =
        tokens' ++ (run (Tokens.lastSeen last' tokens') ⟨after, place⟩).tokens ∧
      (run last' ⟨(Tokens.text tokens).toList ++ after, position⟩).ending =
        (run (Tokens.lastSeen last' tokens') ⟨after, place⟩).ending := by
  induction tokens generalizing last last' position with
  | nil => exact ⟨[], position, rfl, by simp [Tokens.lastSeen], by simp [Tokens.lastSeen]⟩
  | cons token rest ih =>
    obtain ⟨⟨c, own, spelled, read⟩, reads⟩ := reads
    rw [Tokens.read_congr same] at read
    have scan := run_token read position
    rw [take_left, drop_left] at scan
    have alike : token.spelling = (⟨token.kind, String.ofList (c :: own), position⟩ : Token).spelling := by
      rw [← spelled, String.ofList_toList]
      rfl
    obtain ⟨tokens', place, others, tokens, ending⟩ := ih (position.after (c :: own)) (Tokens.allowsSign_lastSeen same alike) reads
    refine ⟨_ :: tokens', place, congrArg₂ List.cons alike.symm others, ?_, ?_⟩
    · rw [Tokens.text_cons, String.toList_append, spelled, cons_append, cons_append, List.append_assoc, scan]
      exact congrArg (List.cons _) tokens
    · rw [Tokens.text_cons, String.toList_append, spelled, cons_append, cons_append, List.append_assoc, scan]
      exact ending

end Scan

/-! ### Blanks -/

def Token.isSpace (token : Token) : Bool := token.kind == .whitespace

namespace Tokens

variable {last : Option Token} {after : List Char} {tokens : Tokens}

theorem Reads.gap (reads : Reads last after tokens) {token : Token} (member : token ∈ tokens)
    (space : token.isSpace = true) : token.Gap := by
  induction tokens generalizing last with
  | nil => cases member
  | cons first rest ih =>
    rcases mem_cons.mp member with rfl | later
    · obtain ⟨⟨c, own, spelled, read⟩, _⟩ := reads
      have white : token.kind = .whitespace := beq_iff_eq.mp space
      rw [white] at read
      have blank := blank_of_whitespace read
      rw [read_blank blank, Lexeme.Reading.token.injEq] at read
      refine ⟨white, ?_⟩
      rw [spelled]
      exact forall_mem_cons.mpr ⟨blank, (Lexeme.length_takeWhile_append read.2).1⟩
    · exact ih reads.2 later

theorem blank_text (gaps : ∀ token ∈ tokens, token.Gap) : ∀ c ∈ (text tokens).toList, isBlank c = true := by
  induction tokens with
  | nil => simp
  | cons token rest ih =>
    obtain ⟨first, others⟩ := forall_mem_cons.mp gaps
    rw [text_cons, String.toList_append]
    exact forall_mem_append.mpr ⟨first.blank, ih others⟩

theorem slash_of_comment {c : Char} {rest : List Char} {more : Nat}
    (read : Lexeme.read last c rest = .token .comment more) : c = '/' := by
  generalize comment : Kind.comment = kind at read
  cases Lexeme.branch_of_read read with
  | comment | line => rfl
  | number | signed => cases comment ▸ Lexeme.isNumeric_numberExtent _
  | mark => exact absurd (comment ▸ Lexeme.markKind_mem c) (by decide)
  | _ => cases comment

theorem Reads.before_space {rest : List Char} (reads : Reads last ('/' :: rest) tokens)
    (solid : ∀ token, tokens.getLast? = some token → token.isSpace = false) (rest' : List Char) :
    Reads last (' ' :: rest') tokens := by
  apply reads.change
  · rintro last token found ⟨⟨c, own, spelled, read⟩, _⟩
    have blank : isBlank c = false := by
      rw [Bool.eq_false_iff]
      intro blank
      rw [read_blank blank, Lexeme.Reading.token.injEq] at read
      have space := solid token found
      rw [Token.isSpace, ← read.1] at space
      cases space
    -- A comment up to the end of the line would have taken in the one behind it.
    have line : c = '/' → (own ++ ((text []).toList ++ '/' :: rest)).head? ≠ some '/' := by
      rintro rfl head
      obtain ⟨others, line⟩ := List.head?_eq_some_iff.mp head
      rw [line, read_line, Lexeme.Reading.token.injEq] at read
      cases own with
      | nil => cases read.2
      | cons d own =>
        cases line
        obtain ⟨_, ends⟩ := Lexeme.length_takeWhile_append (Nat.succ.inj read.2)
        simp at ends
    exact ⟨⟨c, own, spelled, Lexeme.read_append read (by simp) blank line (Lexeme.calmer_quiet (by decide) _ _ _)⟩, trivial⟩
  · intro token d e _ _ head pair
    cases head
    simp [Lexeme.isNoisyPair] at pair

end Tokens

namespace Scan

theorem gap_of_mem (position : Position) {last : Option Token} {cs : List Char} {token : Token}
    (member : token ∈ (run last ⟨cs, position⟩).tokens) (space : token.isSpace = true) : token.Gap := by
  obtain ⟨_, _, _, reads, _⟩ := run_split position (append_nil _).symm
  exact reads.gap member space

theorem solid_of_run (position : Position) {last : Option Token} {cs : List Char}
    (solid : (run last ⟨cs, position⟩).tokens.head?.any Token.isSpace = false) : cs.head?.any isBlank = false := by
  cases cs with
  | nil => rfl
  | cons c rest =>
    cases blank : isBlank c with
    | false => exact blank
    | true =>
      rw [run_token (Tokens.read_blank blank rest)] at solid
      cases solid

theorem run_blanks {cs after : List Char} (blank : ∀ c ∈ cs, isBlank c = true) (some_ : cs ≠ [])
    (ends : after.head?.any isBlank = false) (position : Position) (last : Option Token) : ∃ gap place,
      gap.spelling = (.whitespace, String.ofList cs) ∧ run last ⟨cs ++ after, position⟩ = cons gap (run (some gap) ⟨after, place⟩) := by
  obtain ⟨c, cs, rfl⟩ := exists_cons_of_ne_nil some_
  obtain ⟨first, others⟩ := forall_mem_cons.mp blank
  have read := @Tokens.read_blank last c first (cs ++ after)
  rw [Lexeme.takeWhile_append_of_head others ends] at read
  refine ⟨⟨.whitespace, String.ofList (c :: cs), position⟩, position.after (c :: cs), rfl, ?_⟩
  rw [cons_append, run_token read, take_left, drop_left]
  rfl

theorem allowsSign_of_space {tokens : Tokens} (spaces : ∀ token ∈ tokens, token.isSpace = true) (some_ : tokens ≠ [])
    (last : Option Token) (others : Tokens) : Lexeme.allowsSign (Tokens.lastSeen last (others ++ tokens)) = true := by
  obtain ⟨front, space, rfl⟩ := (eq_nil_or_concat tokens).resolve_left some_
  have white : space.kind = .whitespace := beq_iff_eq.mp (spaces space (by simp))
  rw [Tokens.lastSeen, concat_eq_append, ← List.append_assoc, foldl_concat, lastSeen, if_neg (by simp [white]), Lexeme.allowsSign, white]

/-- Whatever stands in front of a comment is read in front of the blanks that come in its place. -/
theorem reads_front {front left : Tokens} {comment : Token} {cs : List Char}
    (reads : Tokens.Reads none cs (front ++ (left ++ [comment]))) (kind : comment.kind = .comment)
    (solid : ∀ token, front.getLast? = some token → token.isSpace = false) (spaces : ∀ token ∈ left, token.isSpace = true)
    (others : List Char) : Tokens.Reads none ((Tokens.text left).toList ++ ' ' :: others) front := by
  obtain ⟨reads, behind⟩ := Tokens.reads_append.mp reads
  cases left with
  | nil =>
    obtain ⟨⟨c, own, spelled, read⟩, _⟩ := behind
    rw [kind] at read
    have slash := Tokens.slash_of_comment read
    subst slash
    rw [nil_append, Tokens.text_cons, String.toList_append, spelled] at reads
    exact reads.before_space solid others
  | cons space left =>
    have gap := Tokens.Reads.gap behind mem_cons_self (spaces space mem_cons_self)
    obtain ⟨⟨d, own, spelled, _⟩, _⟩ := behind
    rw [cons_append, Tokens.text_cons, String.toList_append, spelled] at reads
    rw [Tokens.text_cons, String.toList_append, spelled]
    exact reads.replace_blank (gap.blank d (by simp [spelled]))

theorem exists_merged (source : String) {front left right back : Tokens} {comment : Token} {rest : String}
    (scanned : (ofText source (Tokens.text (front ++ left) ++ comment.text ++ rest)).tokens =
      (front ++ left) ++ comment :: (right ++ back)) (kind : comment.kind = .comment)
    (solid : ∀ token, front.getLast? = some token → token.isSpace = false) (spaces : ∀ token ∈ left, token.isSpace = true)
    (spaces' : ∀ token ∈ right, token.isSpace = true) (solid' : back.head?.any Token.isSpace = false)
    (unsigned : right = [] → back.startsSigned = false) : ∃ front' gap back',
      (ofText source (Tokens.text (front ++ left) ++ " " ++ rest)).tokens = front' ++ gap :: back' ∧
      Tokens.spelling front' = Tokens.spelling front ∧
      gap.spelling = (.whitespace, Tokens.text left ++ " " ++ Tokens.text right) ∧
      Tokens.spelling back' = Tokens.spelling back ∧
      Agree (fun _ _ => True) (ofText source (Tokens.text (front ++ left) ++ comment.text ++ rest)).ending
        (ofText source (Tokens.text (front ++ left) ++ " " ++ rest)).ending := by
  have parts : (front ++ left) ++ comment :: (right ++ back) = (front ++ (left ++ [comment]) ++ right) ++ back := by simp
  obtain ⟨place, ds, covered, reads, same, ending⟩ := run_split (.start source) (scanned.trans parts)
  have rest_eq : rest.toList = (Tokens.text right).toList ++ ds := by
    simpa using covered
  obtain ⟨reads, behind⟩ := Tokens.reads_append.mp reads
  have blank : ∀ c ∈ (Tokens.text left).toList ++ ' ' :: (Tokens.text right).toList, isBlank c = true := by
    have first := Tokens.blank_text fun token member => reads.gap (by simp [member]) (spaces token member)
    have second := Tokens.blank_text fun token member => behind.gap member (spaces' token member)
    exact forall_mem_append.mpr ⟨first, forall_mem_cons.mpr ⟨by decide, second⟩⟩
  have before := reads_front reads kind solid spaces ((Tokens.text right).toList ++ ds)
  rw [← cons_append, ← List.append_assoc] at before
  -- The front is read as before, and the blanks on both sides with the space between them as one token.
  obtain ⟨front', place', alike, tokens, ends⟩ := run_join (.start source) rfl before
  obtain ⟨gap, after, spelled, merged⟩ := run_blanks blank (by simp) (solid_of_run place (by rw [same]; exact solid')) place'
    (Tokens.lastSeen none front')
  have text_eq : (Tokens.text (front ++ left) ++ " " ++ rest).toList = (Tokens.text front).toList ++
      (((Tokens.text left).toList ++ ' ' :: (Tokens.text right).toList) ++ ds) := by
    simp [rest_eq]
  rw [← text_eq, merged] at tokens ends
  have signed (sign : Lexeme.allowsSign (Tokens.lastSeen none (front ++ (left ++ [comment]) ++ right)) = false) :
      right = [] := by
    cases right with
    | nil => rfl
    | cons space right =>
      rw [allowsSign_of_space spaces' (cons_ne_nil _ _)] at sign
      cases sign
  have white : gap.kind = .whitespace := congrArg Prod.fst spelled
  have free : Lexeme.allowsSign (some gap) = true := by rw [Lexeme.allowsSign, white]
  -- Behind the space a sign may follow; where it could not before, no number with a sign begins there.
  have backs := run_unsigned free place after fun sign => by
    rw [same]
    exact unsigned (signed sign)
  refine ⟨front', gap, _, tokens, alike, ?_, backs.tokens.trans (congrArg Tokens.spelling same), ?_⟩
  · rw [spelled]
    simp [String.append_assoc]
  · have whole : Agree (fun _ _ => True) (ofText source (Tokens.text (front ++ left) ++ comment.text ++ rest)).ending
        (run (some gap) ⟨ds, after⟩).ending := ending ▸ backs.ending
    exact ends ▸ whole

/-- The tokens beside the place of a comment stay if a space is put in its place. The space becomes
one token with the blanks beside it. -/
theorem exists_replaced (source : String) {before after : Tokens} {comment : Token} {rest : String}
    (scanned : (ofText source (before.text ++ comment.text ++ rest)).tokens = before ++ comment :: after)
    (kind : comment.kind = .comment) (unsigned : after.startsSigned = false) : ∃ front gap back,
      (ofText source (before.text ++ " " ++ rest)).tokens = front ++ gap :: back ∧
      Tokens.spelling front = Tokens.spelling (before.rdropWhile Token.isSpace) ∧
      gap.spelling =
        (.whitespace, Tokens.text (before.rtakeWhile Token.isSpace) ++ " " ++ Tokens.text (after.takeWhile Token.isSpace)) ∧
      Tokens.spelling back = Tokens.spelling (after.dropWhile Token.isSpace) ∧
      Agree (fun _ _ => True) (ofText source (before.text ++ comment.text ++ rest)).ending
        (ofText source (before.text ++ " " ++ rest)).ending := by
  have cut : before.rdropWhile Token.isSpace ++ before.rtakeWhile Token.isSpace = before :=
    rdropWhile_append_rtakeWhile ..
  have cut' : after.takeWhile Token.isSpace ++ after.dropWhile Token.isSpace = after := takeWhile_append_dropWhile
  have scanned' : (ofText source (Tokens.text (before.rdropWhile Token.isSpace ++ before.rtakeWhile Token.isSpace) ++
      comment.text ++ rest)).tokens = (before.rdropWhile Token.isSpace ++ before.rtakeWhile Token.isSpace) ++
        comment :: (after.takeWhile Token.isSpace ++ after.dropWhile Token.isSpace) := by
    rw [cut, cut', scanned]
  have merged := exists_merged source scanned' kind ?_ (fun _ => mem_rtakeWhile_imp) (fun _ => mem_takeWhile_imp)
    ?_ ?_
  · rwa [cut] at merged
  · intro token found
    have some_ : before.rdropWhile Token.isSpace ≠ [] := by
      intro none_
      rw [none_] at found
      cases found
    rw [List.getLast?_eq_some_getLast some_, Option.some_inj] at found
    subst found
    exact Bool.eq_false_iff.mpr (rdropWhile_last_not Token.isSpace before some_)
  · cases start : after.dropWhile Token.isSpace with
    | nil => rfl
    | cons token rest =>
      have head := head_dropWhile_not Token.isSpace (l := after) (by simp [start])
      simpa [start] using head
  · intro none_
    rw [none_, nil_append] at cut'
    rwa [cut']

end Scan

end LessCss
