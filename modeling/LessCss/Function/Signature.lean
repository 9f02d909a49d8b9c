import LessCss.Value.Basic

/-! Signatures of functions: a type for each argument, and how often it occurs.
Arguments are matched from left to right, each type taking what it can. A library
holds functions by name, in any case of letters. -/

set_option autoImplicit false

namespace LessCss

inductive ArgumentType where
  | number
  /-- A percentage, or a number without a unit that stands for one. -/
  | percentage
  | color
  | string
  /-- The name of a unit. -/
  | unit
  | boolean
  | url
  | any
  deriving DecidableEq, Repr

namespace ArgumentType

def ofCode (code : Char) : ArgumentType :=
  if code == 'N' then .number
  else if code == 'P' then .percentage
  else if code == 'C' then .color
  else if code == 'S' then .string
  else if code == 'U' then .unit
  else if code == 'B' then .boolean
  else if code == 'Q' then .url
  else .any

def name : ArgumentType → String
  | .number => "Number"
  | .percentage => "Percentage"
  | .color => "Color"
  | .string => "String"
  | .unit => "Unit"
  | .boolean => "Boolean"
  | .url => "Url"
  | .any => "Any"

def fits : ArgumentType → Value → Bool
  | .number, .quantity _ => true
  | .percentage, .quantity q => q.isPlain || q.isPercentage
  | .color, .color _ => true
  | .string, .string .. => true
  | .unit, .unit _ => true
  | .unit, .string text none => isUnit text || text == "%"
  | .boolean, .boolean _ => true
  | .url, .url .. => true
  | .any, _ => true
  | _, _ => false

end ArgumentType

inductive Occurrence where
  | once
  | optional
  | repeated
  deriving DecidableEq, Repr

structure Formal where
  type : ArgumentType
  occurrence : Occurrence
  deriving DecidableEq, Repr

abbrev Signature := List Formal

namespace Signature

def ofCodes : List Char → Signature
  | [] => []
  | code :: '?' :: rest => ⟨.ofCode code, .optional⟩ :: ofCodes rest
  | code :: '*' :: rest => ⟨.ofCode code, .repeated⟩ :: ofCodes rest
  | code :: rest => ⟨.ofCode code, .once⟩ :: ofCodes rest

def read (text : String) : Signature := ofCodes text.toList

def accepts : Signature → List Value → Bool
  | [], arguments => arguments.isEmpty
  | ⟨type, .repeated⟩ :: rest, arguments => accepts rest (arguments.dropWhile type.fits)
  | ⟨type, .optional⟩ :: rest, argument :: arguments =>
    if type.fits argument then accepts rest arguments else accepts rest (argument :: arguments)
  | ⟨_, .optional⟩ :: rest, [] => accepts rest []
  | ⟨type, .once⟩ :: rest, argument :: arguments => type.fits argument && accepts rest arguments
  | ⟨_, .once⟩ :: _, [] => false

def formalText (formal : Formal) : String :=
  match formal.occurrence with
  | .once => formal.type.name
  | .optional => formal.type.name ++ " (可选)"
  | .repeated => formal.type.name ++ " ..."

def text (signature : Signature) (name : String) : String :=
  name ++ "(" ++ ", ".intercalate (signature.map formalText) ++ ")"

end Signature

structure Function where
  signature : Signature
  apply : List Value → Value

structure Library where
  entries : List (String × Function)

namespace Library

def empty : Library := ⟨[]⟩

def find? (library : Library) (name : String) : Option Function :=
  library.entries.lookup name.toLower

def contains (library : Library) (name : String) : Bool :=
  (library.find? name).isSome

def register (library : Library) (name : String) (function : Function) : Library :=
  ⟨(name.toLower, function) :: library.entries.filter fun entry => entry.1 != name.toLower⟩

end Library

end LessCss
