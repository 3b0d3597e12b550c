import JackVM.Cursor

namespace JackVM

theorem skipGap_length_le {gap : Gap} {cs : List Char} {line : Nat} {c : Cursor}
    (h : skipGap gap cs line = .ok c) : c.rest.length ≤ cs.length := by
  fun_induction skipGap gap cs line <;> grind

theorem skipGap_nonempty_of_error {gap : Gap} {cs : List Char} {line opened : Nat}
    (h : skipGap gap cs line = .error opened) (hg : gap = .blank ∨ gap = .lineComment) :
    cs ≠ [] := by
  rintro rfl
  rcases hg with rfl | rfl <;> simp [skipGap] at h

/-- The cursor that a reading step leaves behind. -/
def cursorAfter : EStateM.Result TokenError Cursor (Option Token) → Cursor
  | .ok _ c => c
  | .error _ c => c

/-- Whether a reading step found anything before the end of the source. -/
def foundAny : EStateM.Result TokenError Cursor (Option Token) → Bool
  | .ok none _ => false
  | _ => true

theorem cursorAfter_deliver (found : Except TokenError Lexeme) (line : Nat) (after : Cursor) :
    cursorAfter (deliver found line after) = after := by
  cases found <;> rfl

theorem length_dropWhile_le (p : Char → Bool) (cs : List Char) :
    (cs.dropWhile p).length ≤ cs.length :=
  (List.dropWhile_suffix p).length_le

theorem readToken_length_le (c : Char) (cs : List Char) (line : Nat) :
    (cursorAfter (readToken c cs line)).rest.length ≤ cs.length := by
  unfold readToken
  split
  next => exact Nat.le_refl _
  next =>
    split
    next =>
      split
      next after heq =>
        rw [cursorAfter_deliver]
        have hle := length_dropWhile_le isStringChar cs
        rw [heq] at hle
        exact Nat.le_of_succ_le hle
      next => exact Nat.zero_le _
    next =>
      rw [cursorAfter_deliver]
      exact length_dropWhile_le isWordChar cs

/-- Every token and every error uses up at least one character. -/
theorem read_length_lt {c : Cursor} (h : foundAny c.read = true) :
    (cursorAfter c.read).rest.length < c.rest.length := by
  unfold Cursor.read at h ⊢
  cases heq : skipGap .blank c.rest c.line with
  | error opened =>
    have hne := skipGap_nonempty_of_error heq (Or.inl rfl)
    exact List.length_pos_iff.mpr hne
  | ok found =>
    obtain ⟨rest, line⟩ := found
    have hle := skipGap_length_le heq
    cases rest with
    | nil => simp [heq, foundAny] at h
    | cons ch cs =>
      have ht := readToken_length_le ch cs line
      simp only [List.length_cons] at hle
      show (cursorAfter (readToken ch cs line)).rest.length < c.rest.length
      omega

theorem read_length_lt_of_token {c after : Cursor} {t : Token}
    (h : c.read = .ok (some t) after) : after.rest.length < c.rest.length := by
  simpa [h, cursorAfter] using read_length_lt (c := c) (by simp [h, foundAny])

theorem read_length_lt_of_error {c after : Cursor} {e : TokenError}
    (h : c.read = .error e after) : after.rest.length < c.rest.length := by
  simpa [h, cursorAfter] using read_length_lt (c := c) (by simp [h, foundAny])

namespace Cursor

/-- Everything that reading from here to the end of the source gives, in order. -/
def results (c : Cursor) : List (Except TokenError Token) :=
  match h : c.read with
  | .ok none _ => []
  | .ok (some t) after =>
    have := read_length_lt_of_token h
    .ok t :: results after
  | .error e after =>
    have := read_length_lt_of_error h
    .error e :: results after
termination_by c.rest.length

theorem results_of_token {c after : Cursor} {t : Token} (h : c.read = .ok (some t) after) :
    c.results = .ok t :: after.results := by
  rw [results]
  grind

theorem results_of_error {c after : Cursor} {e : TokenError} (h : c.read = .error e after) :
    c.results = .error e :: after.results := by
  rw [results]
  grind

theorem results_of_end {c after : Cursor} (h : c.read = .ok none after) : c.results = [] := by
  rw [results]
  grind

end Cursor

end JackVM
