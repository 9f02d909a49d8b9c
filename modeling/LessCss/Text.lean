/-! Texts as values write and read them: free of blank characters at the ends
or between words, in quotes, with percent escapes, and with holes to fill. -/

set_option autoImplicit false

namespace LessCss.Text

/-- The ranges of Unicode's White_Space property in ascending order, both ends included. -/
def blankRanges : List (Nat × Nat) :=
  [(0x9, 0xD), (0x20, 0x20), (0x85, 0x85), (0xA0, 0xA0), (0x1680, 0x1680), (0x2000, 0x200A),
    (0x2028, 0x2029), (0x202F, 0x202F), (0x205F, 0x205F), (0x3000, 0x3000)]

def isBlank (c : Char) : Bool :=
  blankRanges.any fun range => range.1 ≤ c.toNat && c.toNat ≤ range.2

def trimChars (cs : List Char) : List Char :=
  ((cs.dropWhile isBlank).reverse.dropWhile isBlank).reverse

def trim (text : String) : String :=
  String.ofList (trimChars text.toList)

def words (cs : List Char) : List (List Char) :=
  (cs.splitOnP isBlank).filter fun word => !word.isEmpty

def collapse (text : String) : String :=
  String.ofList ([' '].intercalate (words text.toList))

/-! ## Quotes -/

/-- A quote inside a string of the same quote is written with a backslash before
it; no other character is changed in either direction. -/
inductive Quote where
  | double
  | single
  deriving DecidableEq, Repr

def Quote.char : Quote → Char
  | .double => '"'
  | .single => '\''

def Quote.ofChar? (c : Char) : Option Quote :=
  if c = '"' then some .double else if c = '\'' then some .single else none

def Quote.escape (quote : Quote) (cs : List Char) : List Char :=
  cs.flatMap fun c => if c = quote.char then ['\\', c] else [c]

def Quote.unescape (quote : Quote) : List Char → List Char
  | [] => []
  | c :: rest =>
    if c = '\\' && rest.head? == some quote.char then quote.unescape rest
    else c :: quote.unescape rest

def Quote.write (quote : Quote) (text : String) : String :=
  String.ofList (quote.char :: quote.escape text.toList ++ [quote.char])

/-- The text between two equal quotes and the quote itself; a text that is not
enclosed in quotes is returned as it is, with no quote. -/
def unquote (text : String) : String × Option Quote :=
  match text.toList with
  | [] => (text, none)
  | first :: rest =>
    match Quote.ofChar? first with
    | none => (text, none)
    | some quote =>
      if rest.getLast? = some first then
        (String.ofList (quote.unescape rest.dropLast), some quote)
      else (text, none)

def writeQuoted (text : String) : Option Quote → String
  | none => text
  | some quote => quote.write text

/-! ## Percent escapes -/

def escapedChars : List Char :=
  [' ', '#', '^', '(', ')', '\x7b', '\x7d', '|', ':', '>', '<', ';', ']', '[', '=']

def hexDigitUpper (n : Nat) : Char :=
  (Nat.digitChar n).toUpper

def percentCode (c : Char) : List Char :=
  ['%', hexDigitUpper (c.toNat / 16), hexDigitUpper (c.toNat % 16)]

def percentEscape (text : String) : String :=
  String.ofList (text.toList.flatMap fun c => if escapedChars.contains c then percentCode c else [c])

/-! ## Holes -/

inductive Piece where
  | char (c : Char)
  | hole (name : String)
  deriving DecidableEq, Repr

/-- A hole is an at-sign, an opening brace, a name and the first closing brace
after it; without a closing brace there is no hole. -/
def holeAt? : List Char → Option (List Char × List Char)
  | '@' :: '\x7b' :: rest =>
    match rest.dropWhile (· != '\x7d') with
    | [] => none
    | _ :: after => some (rest.takeWhile (· != '\x7d'), after)
  | _ => none

theorem length_of_holeAt? {cs name after : List Char} (found : holeAt? cs = some (name, after)) :
    after.length < cs.length := by
  unfold holeAt? at found
  split at found
  · rename_i rest
    split at found
    · cases found
    · rename_i c tail same
      cases found
      have bound := (List.dropWhile_sublist (· != '\x7d') (l := rest)).length_le
      rw [same] at bound
      simp only [List.length_cons] at bound ⊢
      omega
  · cases found

def pieces (cs : List Char) : List Piece :=
  match cs with
  | [] => []
  | c :: rest =>
    match _found : holeAt? (c :: rest) with
    | some (name, after) => .hole (String.ofList name) :: pieces after
    | none => .char c :: pieces rest
termination_by cs.length
decreasing_by
  · exact length_of_holeAt? _found
  · simp

end LessCss.Text
