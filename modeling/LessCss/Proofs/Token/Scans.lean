import LessCss.Proofs.Token.Reads

/-! What a text is read as, apart from blanks. A text is put together from marks,
blanks and texts that keep to themselves, from its end to its beginning. -/

set_option autoImplicit false

namespace LessCss

open List Lexeme

open Text (isBlank)

namespace Tokens

def solid (tokens : Tokens) : List (Kind × String) :=
  (spelling tokens).filter fun spelled => spelled.1 != .whitespace

theorem solid_append (tokens others : Tokens) : solid (tokens ++ others) = solid tokens ++ solid others := by
  simp [solid, spelling]

theorem solid_cons {token : Token} (other : token.kind ≠ .whitespace) (rest : Tokens) :
    solid (token :: rest) = token.spelling :: solid rest := by
  simp [solid, spelling, Token.spelling, other]

theorem solid_cons_blank {token : Token} (blank : token.kind = .whitespace) (rest : Tokens) :
    solid (token :: rest) = solid rest := by
  simp [solid, spelling, Token.spelling, blank]

/-- A text that is read without a fault, behind the token `last`, and its tokens
apart from whitespace. -/
def Scans (last : Option Token) (cs : List Char) (parts : List (Kind × String)) : Prop :=
  ∃ tokens, Reads last [] tokens ∧ (text tokens).toList = cs ∧ solid tokens = parts

variable {last last' : Option Token} {cs : List Char} {parts : List (Kind × String)} {tokens : Tokens}

theorem scans_nil (last : Option Token) : Scans last [] [] := ⟨[], trivial, by simp, rfl⟩

theorem Scans.congr (same : allowsSign last = allowsSign last') (scans : Scans last cs parts) :
    Scans last' cs parts := by
  obtain ⟨tokens, reads, spelled, parted⟩ := scans
  exact ⟨tokens, reads.congr same, spelled, parted⟩

theorem Scans.complete {text : String} (scans : Scans none text.toList parts) (source : String) :
    ∃ tokens, (Scan.ofText source text).complete = .ok tokens ∧ solid tokens = parts := by
  obtain ⟨tokens, reads, spelled, parted⟩ := scans
  obtain ⟨alike, place, ended⟩ := run_of_reads (.start source) rfl reads
  rw [spelled] at alike ended
  refine ⟨_, by rw [Scan.complete, Scan.ofText, ended]; rfl, ?_⟩
  rw [← parted, solid, solid, alike]

/-! ### Marks -/

def markOf (c : Char) : Token := .synthetic (markKind c) (String.ofList [c])

theorem isBlank_markKind (c : Char) : (markKind c).isBlank = false := by
  unfold markKind
  repeat' split
  all_goals rfl

theorem lastSeen_of_solid {token : Token} (solid : token.isBlank = false) :
    Scan.lastSeen last token = some token := by
  refine if_neg fun comment => ?_
  rw [Token.isBlank, comment] at solid
  cases solid

theorem kind_of_solid {token : Token} (solid : token.isBlank = false) : token.kind ≠ .whitespace := by
  intro blank
  rw [Token.isBlank, blank] at solid
  cases solid

theorem scans_mark {c : Char} (solitary : isSolitary c = true)
    (scans : Scans (some (markOf c)) cs parts) : Scans last (c :: cs) ((markOf c).spelling :: parts) := by
  obtain ⟨tokens, reads, spelled, parted⟩ := scans
  have solid : (markOf c).isBlank = false := isBlank_markKind c
  refine ⟨markOf c :: tokens, ⟨⟨c, [], by simp [markOf, Token.synthetic], ?_⟩, ?_⟩, ?_, ?_⟩
  · exact read_solitary solitary _ _
  · rwa [lastSeen_of_solid solid]
  · simp [markOf, Token.synthetic, spelled]
  · rw [solid_cons (kind_of_solid solid), parted]

/-! ### Blanks -/

theorem blank_of_whitespace {c : Char} {rest : List Char} {more : Nat}
    (read : read last c rest = .token .whitespace more) : isBlank c = true := by
  generalize white : Kind.whitespace = kind at read
  cases branch_of_read read with
  | blanks blank => exact blank
  | number | signed => cases white ▸ isNumeric_numberExtent _
  | mark => exact absurd (white ▸ markKind_mem c) (by decide)
  | _ => cases white

/-- The blanks at the front of a text can be left out where a sign may stand. -/
theorem Scans.dropBlanks (scans : Scans last cs parts) (sign : allowsSign last = true)
    (sign' : allowsSign last' = true) : Scans last' (cs.dropWhile isBlank) parts := by
  obtain ⟨tokens, reads, rfl, parted⟩ := scans
  cases tokens with
  | nil => exact ⟨[], trivial, by simp, parted⟩
  | cons token rest =>
    obtain ⟨⟨d, own, chars, read⟩, reads'⟩ := reads
    -- If the text begins with blanks, the first token holds all of them.
    by_cases white : token.kind = .whitespace
    · have blank := blank_of_whitespace (white ▸ read)
      rw [read_blank blank, Lexeme.Reading.token.injEq, append_nil] at read
      obtain ⟨each, ends⟩ := length_takeWhile_append read.2
      have seen : Scan.lastSeen last token = some token := if_neg (by rw [white]; decide)
      rw [seen] at reads'
      have same : allowsSign (some token) = allowsSign last' := by
        rw [sign', allowsSign, white]
      refine ⟨rest, reads'.congr same, ?_, by rw [← parted, solid_cons_blank white]⟩
      rw [text_cons, String.toList_append, chars,
        dropWhile_append_of_pos (forall_mem_cons.mpr ⟨blank, each⟩)]
      cases left : (text rest).toList with
      | nil => rfl
      | cons e left =>
        rw [left] at ends
        rw [dropWhile_cons_of_neg (by simpa using ends)]
    · have solid : isBlank d = false := by
        refine Bool.eq_false_iff.mpr fun blank => white ?_
        rw [read_blank blank, Lexeme.Reading.token.injEq] at read
        exact read.1.symm
      refine ⟨token :: rest, Reads.congr (sign.trans sign'.symm) ⟨⟨d, own, chars, read⟩, reads'⟩, ?_, parted⟩
      rw [text_cons, String.toList_append, chars, cons_append, dropWhile_cons_of_neg (by simp [solid])]

/-- Blanks in front of a text make one token with the blanks that it begins with. -/
theorem scans_blank {gap : List Char} (blank : ∀ c ∈ gap, isBlank c = true) (some_ : gap ≠ [])
    (sign : allowsSign last' = true) (scans : Scans last' cs parts) : Scans last (gap ++ cs) parts := by
  obtain ⟨c, gap, rfl⟩ := exists_cons_of_ne_nil some_
  obtain ⟨first, others⟩ := forall_mem_cons.mp blank
  let token : Token := .synthetic .whitespace (String.ofList (c :: gap ++ cs.takeWhile isBlank))
  have sign' : allowsSign (Scan.lastSeen last token) = true := rfl
  obtain ⟨rest, reads, spelled, parted⟩ := scans.dropBlanks sign sign'
  refine ⟨token :: rest, ⟨⟨c, gap ++ cs.takeWhile isBlank, by simp [token, Token.synthetic], ?_⟩, reads⟩, ?_, ?_⟩
  · rw [read_blank first, spelled, append_nil, List.append_assoc, takeWhile_append_dropWhile,
      takeWhile_append_of_pos others]
    rfl
  · simp [token, Token.synthetic, spelled]
  · rw [solid_cons_blank rfl, parted]

/-! ### Sealed texts -/

/-- Whether a brace behind the text is read as a token of its own. -/
def isSealed (last : Option Token) (text : String) : Bool :=
  let scan := Scan.run last ⟨(text ++ "\x7b").toList, .start ""⟩
  scan.ending.isOk && scan.tokens.getLast?.any fun token => token.text == "\x7b"

def partsOf (last : Option Token) (text : String) : List (Kind × String) :=
  solid (Scan.run last ⟨text.toList, .start ""⟩).tokens

/-- Whether a text begins with what does not lengthen the token in front of it. -/
def startsCalm (cs : List Char) : Bool := cs.head?.all fun c => isQuiet c || c == '\x7b'

theorem exists_reads_of_isSealed {cs : String} (closed : isSealed last cs = true) :
    ∃ tokens, text tokens = cs ∧ Reads last ['\x7b'] tokens := by
  simp only [isSealed, Bool.and_eq_true, Option.any_eq_true, beq_iff_eq] at closed
  obtain ⟨ok, brace, found, spelled⟩ := closed
  obtain ⟨place, ended⟩ : ∃ place, (Scan.run last ⟨(cs ++ "\x7b").toList, .start ""⟩).ending = .ok place := by
    cases ending : (Scan.run last ⟨(cs ++ "\x7b").toList, .start ""⟩).ending with
    | error _ => rw [ending] at ok; cases ok
    | ok place => exact ⟨place, rfl⟩
  obtain ⟨reads, chars⟩ := reads_of_run ended
  obtain ⟨tokens, split⟩ := List.getLast?_eq_some_iff.mp found
  rw [split, reads_append] at reads
  rw [split, text_append, text_cons, text_nil, String.append_empty, spelled, String.toList_inj] at chars
  refine ⟨tokens, String.append_left_inj _ |>.mp chars, ?_⟩
  simpa [spelled] using reads.1

theorem scans_append (reads : Reads last cs tokens) (scans : Scans (lastSeen last tokens) cs parts) :
    Scans last ((text tokens).toList ++ cs) (solid tokens ++ parts) := by
  obtain ⟨rest, reads', rfl, rfl⟩ := scans
  refine ⟨tokens ++ rest, reads_append.mpr ⟨by simpa using reads, reads'⟩, by simp, solid_append _ _⟩

/-- What is read in front of a brace is read in front of every calm text. -/
theorem Reads.scans (reads : Reads last ['\x7b'] tokens) (calm : startsCalm cs = true)
    (scans : ∀ last, Scans last cs parts) : Scans last ((text tokens).toList ++ cs) (solid tokens ++ parts) := by
  by_cases white : ∃ token, tokens.getLast? = some token ∧ token.kind = .whitespace
  · -- The last blanks may be followed by more of them.
    obtain ⟨token, found, white⟩ := white
    obtain ⟨tokens, rfl⟩ := List.getLast?_eq_some_iff.mp found
    obtain ⟨before, ⟨c, own, spelled, read⟩, _⟩ := reads_append.mp reads
    have blank := blank_of_whitespace (white ▸ read)
    rw [read_blank blank, Lexeme.Reading.token.injEq] at read
    obtain ⟨each, _⟩ := length_takeWhile_append read.2
    have gap : Scans (lastSeen last tokens) ((c :: own) ++ cs) parts :=
      scans_blank (forall_mem_cons.mpr ⟨blank, each⟩) (cons_ne_nil _ _) rfl (scans none)
    simp only [text_cons, text_nil, String.append_empty, spelled, cons_append] at before
    have := scans_append (before.replace_blank blank) gap
    rw [solid_append, solid_cons_blank white, text_append, text_cons, text_nil, String.append_empty,
      String.toList_append, spelled, List.append_assoc, List.append_assoc]
    exact this
  · apply scans_append _ (scans _)
    -- No other token goes on into a calm text.
    apply reads.replace (cons_ne_nil _ _)
    intro token found
    refine ⟨fun kind => white ⟨token, found, kind⟩, fun _ => rfl, fun c own _ => ?_⟩
    cases cs with
    | nil => exact calmer_nil _ _
    | cons d cs =>
      rcases (Bool.or_eq_true _ _).mp calm with quiet | brace
      · exact calmer_quiet quiet _ _ _
      · rw [beq_iff_eq.mp brace]
        exact calmer_cons fun e _ pair => nomatch pair

theorem scans_of_isSealed {text : String} (closed : isSealed last text = true) (calm : startsCalm cs = true)
    (scans : ∀ last, Scans last cs parts) : Scans last (text.toList ++ cs) (partsOf last text ++ parts) := by
  obtain ⟨tokens, rfl, reads⟩ := exists_reads_of_isSealed closed
  obtain ⟨tokens', reads', spelled, parted⟩ := reads.scans rfl scans_nil
  obtain ⟨alike, _⟩ := run_of_reads (.start "") rfl reads'
  have same : partsOf last (Tokens.text tokens) = solid tokens := by
    rw [spelled, append_nil] at alike
    rw [partsOf, solid, alike, ← append_nil (solid tokens), ← parted, solid]
  rw [same]
  exact reads.scans calm scans

/-! ### Texts one after the other -/

/-- Where a text stands: behind any token, behind one that a sign may follow, or behind
a token that it must not lengthen. -/
inductive Place where
  | free
  | signed
  | calm
  deriving DecidableEq, Repr

def Place.Gives (place : Place) (cs : List Char) (parts : List (Kind × String)) : Prop :=
  match place with
  | .free => ∀ last, Scans last cs parts
  | .signed => ∀ last, allowsSign last = true → Scans last cs parts
  | .calm => startsCalm cs = true ∧ ∀ last, Scans last cs parts

/-- In front of what stands at `next`, a text is read as the parts and stands itself at `place`. -/
def Leads (place next : Place) (cs : List Char) (parts : List (Kind × String)) : Prop :=
  ∀ cs' parts', next.Gives cs' parts' → place.Gives (cs ++ cs') (parts ++ parts')

variable {place next last_ : Place}

theorem leads_nil (place : Place) : Leads place place [] [] := fun _ _ gives => gives

theorem Leads.trans {cs' : List Char} {parts' : List (Kind × String)} (first : Leads place next cs parts)
    (second : Leads next last_ cs' parts') : Leads place last_ (cs ++ cs') (parts ++ parts') := by
  intro rest others gives
  rw [List.append_assoc, List.append_assoc]
  exact first _ _ (second _ _ gives)

theorem Leads.copy {cs' : List Char} {parts' : List (Kind × String)} (leads : Leads place next cs parts)
    (text : cs' = cs) (same : parts' = parts) : Leads place next cs' parts' := by
  rw [text, same]
  exact leads

theorem leads_free : Leads .free .calm [] [] := fun _ _ gives => gives.2

theorem leads_signed : Leads .signed .free [] [] := fun _ _ gives last _ => gives last

theorem leads_mark {c : Char} (solitary : isSolitary c = true) (calm : startsCalm [c] = true) :
    Leads .calm .free [c] [(markOf c).spelling] :=
  fun _ _ gives => ⟨calm, fun _ => scans_mark solitary (gives _)⟩

theorem leads_mark_signed {c : Char} (solitary : isSolitary c = true) (calm : startsCalm [c] = true)
    (sign : allowsSign (some (markOf c)) = true) : Leads .calm .signed [c] [(markOf c).spelling] :=
  fun _ _ gives => ⟨calm, fun _ => scans_mark solitary (gives _ sign)⟩

theorem leads_blank {c : Char} (blank : isBlank c = true) (calm : startsCalm [c] = true) :
    Leads .calm .signed [c] [] :=
  fun _ _ gives => ⟨calm, fun _ => scans_blank (by simpa using blank) (cons_ne_nil _ _) rfl (gives none rfl)⟩

theorem leads_gap {gap : List Char} (blank : ∀ c ∈ gap, isBlank c = true) : Leads .signed .signed gap [] := by
  intro cs parts gives last sign
  cases gap with
  | nil => exact gives last sign
  | cons c gap => exact scans_blank blank (cons_ne_nil _ _) sign (gives last sign)

theorem leads_sealed {text : String} (closed : isSealed none text = true) :
    Leads .signed .calm text.toList (partsOf none text) := by
  intro cs parts gives last sign
  have same : allowsSign none = allowsSign last := sign.symm
  exact (scans_of_isSealed closed gives.1 gives.2).congr same

def isDetached (text : String) : Bool :=
  let brace := some (markOf '\x7d')
  isSealed brace text && partsOf brace text == partsOf none text

theorem leads_detached {text : String} (closed : isSealed none text = true)
    (detached : isDetached text = true) : Leads .free .calm text.toList (partsOf none text) := by
  simp only [isDetached, Bool.and_eq_true, beq_iff_eq] at detached
  intro cs parts gives last
  cases sign : allowsSign last with
  | true => exact leads_sealed closed cs parts gives last sign
  | false =>
    have same : allowsSign (some (markOf '\x7d')) = allowsSign last := sign.symm
    rw [← detached.2]
    exact (scans_of_isSealed detached.1 gives.1 gives.2).congr same

theorem leads_intercalate {α : Type} {text : α → List Char} {partsOf : α → List (Kind × String)}
    {gap : List Char} {mark : List (Kind × String)} (between : Leads .calm .signed gap mark) {a : α} {as : List α}
    (first : Leads place .calm (text a) (partsOf a))
    (others : ∀ b ∈ as, Leads .signed .calm (text b) (partsOf b)) :
    Leads place .calm (gap.intercalate ((a :: as).map text)) (mark.intercalate ((a :: as).map partsOf)) := by
  induction as generalizing a place with
  | nil => exact first.copy (by simp) (by simp)
  | cons b as ih =>
    have rest := ih (others b mem_cons_self) fun c member => others c (mem_cons_of_mem _ member)
    exact ((first.trans between).trans rest).copy intercalate_cons_cons intercalate_cons_cons

end Tokens

end LessCss
