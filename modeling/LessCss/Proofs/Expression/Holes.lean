import LessCss.Expression.Environment

/-! Markers in texts: an at-sign and an opening brace, with a closing brace behind them.
Main statement: filling the holes changes no text that has no marker. -/

set_option autoImplicit false

namespace LessCss

open List

namespace Text

def Marked (text : String) : Prop :=
  ∃ before name after : List Char, text.toList = before ++ '@' :: '\x7b' :: (name ++ '\x7d' :: after)

theorem Marked.at_mem {text : String} (marked : Marked text) : '@' ∈ text.toList := by
  obtain ⟨before, name, after, same⟩ := marked
  simp [same]

theorem Marked.brace_mem {text : String} (marked : Marked text) : '\x7b' ∈ text.toList := by
  obtain ⟨before, name, after, same⟩ := marked
  simp [same]

theorem eq_of_holeAt? {cs name after : List Char} (found : holeAt? cs = some (name, after)) :
    cs = '@' :: '\x7b' :: (name ++ '\x7d' :: after) := by
  unfold holeAt? at found
  split at found
  · rename_i rest
    have whole := takeWhile_append_dropWhile (p := (· != '\x7d')) (l := rest)
    have stop := List.head?_dropWhile_not (· != '\x7d') rest
    split at found
    · cases found
    · rename_i c tail same
      cases found
      rw [same] at whole stop
      have closing : c = '\x7d' := by simpa using stop
      rw [closing] at whole
      rw [whole]
  · cases found

theorem pieces_cons {c : Char} {cs : List Char} (unopened : holeAt? (c :: cs) = none) :
    pieces (c :: cs) = .char c :: pieces cs := by
  rw [pieces]
  split
  · rename_i found
    cases unopened.symm.trans found
  · rfl

theorem pieces_of_unmarked {cs : List Char} (unmarked : ¬Marked (String.ofList cs)) : pieces cs = cs.map .char := by
  induction cs with
  | nil => rw [pieces, map_nil]
  | cons c cs ih =>
    have unopened : holeAt? (c :: cs) = none := by
      cases found : holeAt? (c :: cs) with
      | none => rfl
      | some hole =>
        refine absurd ⟨[], hole.1, hole.2, ?_⟩ unmarked
        rw [String.toList_ofList, nil_append]
        exact eq_of_holeAt? found
    rw [pieces_cons unopened, map_cons, ih]
    rintro ⟨before, name, after, same⟩
    refine unmarked ⟨c :: before, name, after, ?_⟩
    rw [String.toList_ofList] at same ⊢
    rw [same, cons_append]

end Text

namespace Environment

variable (env : Environment) (grouped : Bool)

theorem interpolate_of_unmarked {text : String} (unmarked : ¬Text.Marked text) (at_ : Token) :
    env.interpolate grouped at_ text = .ok text := by
  have each (cs : List Char) :
      (cs.map Text.Piece.char).mapM (env.pieceText grouped at_) = .ok (cs.map String.singleton) := by
    induction cs with
    | nil => rfl
    | cons c cs ih =>
      rw [map_cons, mapM_cons, ih]
      rfl
  have joined (cs : List Char) : String.join (cs.map String.singleton) = String.ofList cs := by
    induction cs with
    | nil => rfl
    | cons c cs ih =>
      rw [map_cons, String.join_cons, ih, ← String.toList_inj]
      simp
  rw [← String.ofList_toList (s := text)] at unmarked
  rw [interpolate, Text.pieces_of_unmarked unmarked, each]
  change Except.ok (String.join _) = _
  rw [joined, String.ofList_toList]

theorem interpolateToken_of_unmarked {token : Token} (unmarked : ¬Text.Marked token.text) :
    env.interpolateToken grouped token = .ok token := by
  rw [interpolateToken, interpolate_of_unmarked env grouped unmarked]
  rfl

theorem mapM_interpolateToken_of_unmarked {tokens : Tokens} (unmarked : ∀ token ∈ tokens, ¬Text.Marked token.text) :
    tokens.mapM (env.interpolateToken grouped) = .ok tokens := by
  induction tokens with
  | nil => rfl
  | cons token rest ih =>
    obtain ⟨first, others⟩ := forall_mem_cons.mp unmarked
    rw [mapM_cons, interpolateToken_of_unmarked env grouped first, ih others]
    rfl

end Environment

end LessCss
