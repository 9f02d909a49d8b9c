import LessCss.Token.Tokens

/-! Variable maps: names with their `@` to tokens. A name keeps the place of
its first entry and the value of its last one. -/

set_option autoImplicit false

namespace LessCss

structure Variables where
  entries : List (String × Tokens)
  deriving DecidableEq, Repr, Inhabited

namespace Variables

def empty : Variables := ⟨[]⟩

def names (vars : Variables) : List String :=
  vars.entries.map Prod.fst

def get? (vars : Variables) (name : String) : Option Tokens :=
  vars.entries.lookup name

def contains (vars : Variables) (name : String) : Bool :=
  (vars.get? name).isSome

def insertEntry (name : String) (value : Tokens) : List (String × Tokens) → List (String × Tokens)
  | [] => [(name, value)]
  | entry :: rest =>
    if entry.1 = name then (name, value) :: rest else entry :: insertEntry name value rest

def insert (vars : Variables) (name : String) (value : Tokens) : Variables :=
  ⟨insertEntry name value vars.entries⟩

def merge (vars others : Variables) : Variables :=
  others.entries.foldl (fun merged entry => merged.insert entry.1 entry.2) vars

def ofEntries (entries : List (String × Tokens)) : Variables :=
  merge empty ⟨entries⟩

theorem mem_names_of_get? {vars : Variables} {name : String} {value : Tokens}
    (found : vars.get? name = some value) : name ∈ vars.names := by
  obtain ⟨entries⟩ := vars
  simp only [get?] at found
  simp only [names]
  induction entries with
  | nil => simp at found
  | cons entry rest ih =>
    obtain ⟨key, stored⟩ := entry
    simp only [List.map_cons, List.mem_cons]
    rw [List.lookup_cons] at found
    split at found
    · rename_i same
      exact .inl (by simpa using same)
    · exact .inr (ih found)

end Variables

end LessCss
