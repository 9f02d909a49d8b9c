import LessCss.Proofs.Token.Extents

/-! Tokens that carry their own end. A closed comment, string or url ends with its last
character, and the text behind it does not matter. -/

set_option autoImplicit false

namespace LessCss.Lexeme

open List

theorem Extent.add_eq_closed {extent : Extent} {more length : Nat}
    (same : extent.add more = ⟨true, length⟩) : extent = ⟨true, length - more⟩ ∧ more ≤ length := by
  obtain ⟨closed, own⟩ := extent
  simp only [add, Extent.mk.injEq] at same
  obtain ⟨rfl, rfl⟩ := same
  simp

theorem add_one_eq {extent : Extent} {length : Nat} (same : extent.add 1 = ⟨true, length + 1⟩) :
    extent = ⟨true, length⟩ :=
  (Extent.add_eq_closed same).1

theorem commentExtent_closed {cs : List Char} {length : Nat} (closed : commentExtent cs = ⟨true, length⟩) :
    length ≠ 0 := by
  rintro rfl
  cases cs with
  | nil => cases closed
  | cons c rest =>
    by_cases ends : c = '*' ∧ rest.head? = some '/'
    · obtain ⟨rfl, head⟩ := ends
      obtain ⟨rest', rfl⟩ := List.head?_eq_some_iff.mp head
      rw [commentExtent_end] at closed
      cases closed
    · rw [commentExtent_cons ends] at closed
      exact absurd (Extent.add_eq_closed closed).2 (by decide)

theorem commentExtent_append {own after : List Char}
    (closed : commentExtent (own ++ after) = ⟨true, own.length⟩) (after' : List Char) :
    commentExtent (own ++ after') = ⟨true, own.length⟩ := by
  induction own with
  | nil => exact absurd rfl (commentExtent_closed closed)
  | cons c own ih =>
    -- Two characters end a comment, so the last but one has to be told apart.
    cases own with
    | nil =>
      by_cases ends : c = '*' ∧ after.head? = some '/'
      · obtain ⟨rfl, head⟩ := ends
        obtain ⟨rest, rfl⟩ := List.head?_eq_some_iff.mp head
        rw [cons_append, nil_append, commentExtent_end] at closed
        cases closed
      · rw [cons_append, nil_append, commentExtent_cons ends] at closed
        exact absurd rfl (commentExtent_closed (add_one_eq closed))
    | cons d own =>
      by_cases ends : c = '*' ∧ d = '/'
      · obtain ⟨rfl, rfl⟩ := ends
        rw [cons_append, cons_append, commentExtent_end] at closed ⊢
        exact closed
      · have inside (rest : List Char) : ¬(c = '*' ∧ (d :: own ++ rest).head? = some '/') := by
          simpa using ends
        rw [cons_append, commentExtent_cons (inside after)] at closed
        rw [cons_append, commentExtent_cons (inside after'), ih (add_one_eq closed)]
        rfl

theorem stringExtent_closed {quote : Char} {cs : List Char} {length : Nat}
    (closed : stringExtent quote cs = ⟨true, length⟩) : length ≠ 0 := by
  rintro rfl
  unfold stringExtent at closed
  split at closed
  · cases closed
  · split at closed
    · cases closed
    · split at closed
      · cases closed
      · split at closed
        · split at closed
          · cases closed
          · exact absurd (Extent.add_eq_closed closed).2 (by decide)
        · exact absurd (Extent.add_eq_closed closed).2 (by decide)

/-- How a closed string is made up: an escape takes two characters, and the quote ends it. -/
theorem closed_induction {quote : Char} {motive : List Char → Prop} (ends : motive [quote])
    (escape : '\\' ≠ quote → ∀ d own, motive own → motive ('\\' :: d :: own))
    (char : ∀ c own, c ≠ quote → c ≠ '\n' → c ≠ '\\' → motive own → motive (c :: own)) {own after : List Char}
    (closed : stringExtent quote (own ++ after) = ⟨true, own.length⟩) : motive own := by
  -- An escape takes two characters at once, so the induction is on the length.
  induction size : own.length using Nat.strongRecOn generalizing own with
  | ind size ih =>
    subst size
    cases own with
    | nil => exact absurd rfl (stringExtent_closed closed)
    | cons c own =>
      rw [cons_append, stringExtent.eq_def] at closed
      dsimp only at closed
      split at closed
      · rename_i last
        have none_ : own = [] := by simpa using congrArg Extent.length closed
        rwa [none_, beq_iff_eq.mp last]
      rename_i other
      split at closed
      · cases closed
      rename_i line
      split at closed
      · rename_i backslash
        cases beq_iff_eq.mp backslash
        cases own with
        | nil =>
          cases after with
          | nil => cases closed
          | cons d after => exact absurd (Extent.add_eq_closed closed).2 (by simp)
        | cons d own =>
          have shorter : own.length < ('\\' :: d :: own).length := by simp only [length_cons]; omega
          exact escape (by simpa using other) d own (ih own.length shorter (Extent.add_eq_closed closed).1 rfl)
      · rename_i plain
        exact char c own (by simpa using other) (by simpa using line) (by simpa using plain)
          (ih own.length (Nat.lt_succ_self _) (add_one_eq closed) rfl)

theorem stringExtent_append {quote : Char} {own after : List Char}
    (closed : stringExtent quote (own ++ after) = ⟨true, own.length⟩) (after' : List Char) :
    stringExtent quote (own ++ after') = ⟨true, own.length⟩ := by
  refine closed_induction (motive := fun own => stringExtent quote (own ++ after') = ⟨true, own.length⟩) ?_ ?_ ?_ closed
  · exact stringExtent_quote quote after'
  · intro other d own rest
    rw [cons_append, cons_append, stringExtent_escape other, rest]
    rfl
  · intro c own other line plain rest
    rw [cons_append, stringExtent_char other line plain, rest]
    rfl

theorem urlExtent_closed {depth : Nat} {cs : List Char} {length : Nat}
    (closed : urlExtent depth cs = ⟨true, length⟩) : length ≠ 0 := by
  rintro rfl
  cases cs with
  | nil =>
    rw [urlExtent] at closed
    cases closed
  | cons c rest =>
    rw [urlExtent] at closed
    dsimp only at closed
    split at closed
    · split at closed <;> exact absurd (Extent.add_eq_closed closed).2 (by simp)
    · split at closed
      · exact absurd (Extent.add_eq_closed closed).2 (by simp)
      · split at closed
        · split at closed
          · cases closed
          · exact absurd (Extent.add_eq_closed closed).2 (by simp)
        · exact absurd (Extent.add_eq_closed closed).2 (by simp)

theorem urlExtent_append {depth : Nat} {own after : List Char}
    (closed : urlExtent depth (own ++ after) = ⟨true, own.length⟩) (after' : List Char) :
    urlExtent depth (own ++ after') = ⟨true, own.length⟩ := by
  induction size : own.length using Nat.strongRecOn generalizing own depth with
  | ind size ih =>
    subst size
    cases own with
    | nil => exact absurd rfl (urlExtent_closed closed)
    | cons c own =>
      have next := fun depth => @ih own.length (Nat.lt_succ_self _) depth own
      rw [cons_append, urlExtent] at closed ⊢
      dsimp only at closed ⊢
      split at closed
      · rename_i quote
        rw [if_pos quote]
        split at closed
        · rename_i ends
          -- The string lies inside the url, so it is cut off there.
          obtain ⟨inner, fits⟩ := Extent.add_eq_closed closed
          generalize length : (stringExtent c (own ++ after)).length = n at inner fits ends
          have inside : n ≤ own.length := by simpa using fits
          have string : stringExtent c (own.take n ++ (own.drop n ++ after)) =
              ⟨true, (own.take n).length⟩ := by
            rw [← List.append_assoc, take_append_drop, length_take, Nat.min_eq_left inside,
              ← length, ← ends]
          have string' := stringExtent_append string (own.drop n ++ after')
          rw [← List.append_assoc, take_append_drop, length_take, Nat.min_eq_left inside] at string'
          rw [string', if_pos rfl, drop_append_of_le_length inside]
          rw [drop_append_of_le_length inside] at inner
          have rest := @ih (own.drop n).length (by simp only [length_drop, length_cons]; omega) depth (own.drop n) (by
            rw [inner]
            simp) rfl
          rw [rest]
          simp [Extent.add]
          omega
        · rename_i ends
          exact absurd (congrArg Extent.closed (Extent.add_eq_closed closed).1) (by simpa using ends)
      · rename_i quote
        rw [if_neg quote]
        split at closed
        · rename_i opens
          rw [if_pos opens, next _ (add_one_eq closed) rfl]
          rfl
        · rename_i opens
          rw [if_neg opens]
          split at closed
          · rename_i closes
            rw [if_pos closes]
            split at closed
            · rename_i last
              rw [if_pos last]
              exact closed
            · rename_i last
              rw [if_neg last, next _ (add_one_eq closed) rfl]
              rfl
          · rename_i closes
            rw [if_neg closes, next _ (add_one_eq closed) rfl]
            rfl

end LessCss.Lexeme
