import JackVM.Proofs.TwoRuns

namespace JackVM

namespace Cursor

/-- Some text of the source lies between two places, where the line ends in it are counted. -/
structure Passes (c : Cursor) (text : List Char) (after : Cursor) : Prop where
  rest : c.rest = text ++ after.rest
  line : after.line = c.line + text.count '\n'

variable {c mid after : Cursor} {text more : List Char}

theorem Passes.refl (c : Cursor) : Passes c [] c :=
  ⟨rfl, by simp⟩

theorem Passes.trans (h : Passes c text mid) (hmid : Passes mid more after) :
    Passes c (text ++ more) after := by
  refine ⟨by rw [h.rest, hmid.rest, List.append_assoc], ?_⟩
  rw [hmid.line, h.line, List.count_append, Nat.add_assoc]

theorem passes_char (ch : Char) (cs : List Char) (line : Nat) :
    Passes ⟨ch :: cs, line⟩ [ch] ⟨cs, lineAfter ch line⟩ := by
  refine ⟨rfl, ?_⟩
  by_cases h : ch = '\n'
  · simp [lineAfter, h]
  · simp [lineAfter, h]

theorem passes_of_not_mem (text cs : List Char) (line : Nat) (h : '\n' ∉ text) :
    Passes ⟨text ++ cs, line⟩ text ⟨cs, line⟩ :=
  ⟨rfl, by rw [List.count_eq_zero_of_not_mem h, Nat.add_zero]⟩

theorem passes_toEnd (c : Cursor) : Passes c c.rest c.toEnd :=
  ⟨(List.append_nil _).symm, rfl⟩

theorem Passes.cons {ch : Char} {cs : List Char} {line : Nat}
    (h : Passes ⟨cs, lineAfter ch line⟩ text after) : Passes ⟨ch :: cs, line⟩ (ch :: text) after :=
  (passes_char ch cs line).trans h

end Cursor

section Gaps

variable {gap : Gap} {cs : List Char} {line : Nat} {c : Cursor}

theorem skipGap_blank {ch : Char} (h1 : ∀ rest, ch = '/' → cs = '/' :: rest → False)
    (h2 : ∀ rest, ch = '/' → cs = '*' :: rest → False) : skipGap .blank (ch :: cs) line =
      if isWhitespace ch then skipGap .blank cs (lineAfter ch line) else .ok ⟨ch :: cs, line⟩ := by
  rw [skipGap]
  · exact h1
  · exact h2

theorem skipGap_blockComment {ch : Char} {opened : Nat}
    (h : ∀ rest, ch = '*' → cs = '/' :: rest → False) :
    skipGap (.blockComment opened) (ch :: cs) line =
      skipGap (.blockComment opened) cs (lineAfter ch line) := by
  rw [skipGap]
  exact h

theorem skipGap_passes (h : skipGap gap cs line = .ok c) :
    ∃ text, Cursor.Passes ⟨cs, line⟩ text c := by
  fun_induction skipGap gap cs line with
  | case1 cs line ih | case2 cs line ih | case7 opened cs line ih =>
    obtain ⟨text, hc⟩ := ih h
    exact ⟨_, (Cursor.passes_of_not_mem [_, _] cs line (by decide)).trans hc⟩
  | case3 ch cs line _ _ _ ih | case5 cs line ih | case8 opened ch cs line _ ih =>
    obtain ⟨text, hc⟩ := ih h
    exact ⟨_, hc.cons⟩
  | case6 ch cs line hch ih =>
    obtain ⟨text, hc⟩ := ih h
    have hnew : '\n' ∉ [ch] := by simpa using Ne.symm hch
    exact ⟨_, (Cursor.passes_of_not_mem [ch] cs line hnew).trans hc⟩
  | case4 | case10 =>
    cases h
    exact ⟨[], .refl _⟩
  | case9 => cases h

/-- Skipping stops before a character that is not white space. -/
theorem isWhitespace_of_skipGap {ch : Char} {rest : List Char} {stop : Nat}
    (h : skipGap gap cs line = .ok ⟨ch :: rest, stop⟩) : isWhitespace ch = false := by
  fun_induction skipGap gap cs line with
  | case4 ch cs line _ _ hch =>
    cases h
    simpa using hch
  | case9 => cases h
  | case10 => cases h
  | case1 _ _ ih | case2 _ _ ih | case3 _ _ _ _ _ _ ih | case5 _ _ ih | case6 _ _ _ _ ih
  | case7 _ _ _ ih | case8 _ _ _ _ _ ih => exact ih h

end Gaps

section Reading

variable {c : Char} {cs : List Char} {line : Nat}

/-- Text in which a predicate holds that no line end meets. -/
theorem passes_takeWhile {p : Char → Bool} (h : p '\n' = false) (cs : List Char) (line : Nat) :
    Cursor.Passes ⟨cs, line⟩ (cs.takeWhile p) ⟨cs.dropWhile p, line⟩ := by
  have hnew : '\n' ∉ cs.takeWhile p := by
    intro hmem
    have hall := List.all_eq_true.mp List.all_takeWhile _ hmem
    simp [h] at hall
  have hpasses := Cursor.passes_of_not_mem _ (cs.dropWhile p) line hnew
  rwa [List.takeWhile_append_dropWhile] at hpasses

theorem readToken_passes (hc : isWhitespace c = false) :
    ∃ text, Cursor.Passes ⟨c :: cs, line⟩ text (cursorAfter (readToken c cs line)) := by
  have hnew : '\n' ∉ [c] := by
    rw [List.mem_singleton]
    rintro rfl
    simp [isWhitespace_newline] at hc
  have hfirst : Cursor.Passes ⟨c :: cs, line⟩ [c] ⟨cs, line⟩ :=
    Cursor.passes_of_not_mem [c] cs line hnew
  unfold readToken
  split
  next => exact ⟨_, hfirst⟩
  next =>
    split
    next =>
      have hbody := passes_takeWhile (p := isStringChar) (by decide) cs line
      split
      next after heq =>
        rw [cursorAfter_deliver]
        rw [heq] at hbody
        have hquote := Cursor.passes_of_not_mem ['"'] after line (by decide)
        exact ⟨_, hfirst.trans (hbody.trans hquote)⟩
      next => exact ⟨_, hfirst.trans (Cursor.passes_toEnd _)⟩
    next =>
      rw [cursorAfter_deliver]
      exact ⟨_, hfirst.trans (passes_takeWhile (by decide) cs line)⟩

theorem Cursor.read_passes (c : Cursor) : ∃ text, c.Passes text (cursorAfter c.read) := by
  unfold Cursor.read
  cases hgap : skipGap .blank c.rest c.line with
  | error opened => exact ⟨_, c.passes_toEnd⟩
  | ok found =>
    obtain ⟨rest, line⟩ := found
    obtain ⟨text, hfound⟩ := skipGap_passes hgap
    cases rest with
    | nil => exact ⟨text, hfound⟩
    | cons ch cs =>
      obtain ⟨more, htoken⟩ := readToken_passes (isWhitespace_of_skipGap hgap)
      exact ⟨_, hfound.trans htoken⟩

end Reading

/-- The place when that many lines stand before. -/
def Cursor.later (d : Nat) (c : Cursor) : Cursor :=
  ⟨c.rest, c.line + d⟩

def Gap.later (d : Nat) : Gap → Gap
  | blockComment opened => blockComment (opened + d)
  | gap => gap

@[simp] theorem Gap.later_blank (d : Nat) : blank.later d = blank := rfl

@[simp] theorem Gap.later_lineComment (d : Nat) : lineComment.later d = lineComment := rfl

/-- A reading step when that many lines stand before. -/
def laterResult (d : Nat) : EStateM.Result TokenError Cursor (Option Token) →
    EStateM.Result TokenError Cursor (Option Token)
  | .ok t? c => .ok (t?.map (Token.mapLine (· + d))) (c.later d)
  | .error e c => .error (e.mapLines (· + d)) (c.later d)

section Later

variable {gap : Gap} {cs : List Char} {line : Nat} (d : Nat)

theorem lineAfter_later (ch : Char) (line : Nat) :
    lineAfter ch (line + d) = lineAfter ch line + d := by
  unfold lineAfter
  split
  · exact Nat.add_right_comm _ _ _
  · rfl

theorem skipGap_later (gap : Gap) (cs : List Char) (line : Nat) :
    skipGap (gap.later d) cs (line + d) =
      ((skipGap gap cs line).map (Cursor.later d)).mapError (· + d) := by
  fun_induction skipGap gap cs line with
  | case1 cs line ih | case2 cs line ih | case7 opened cs line ih => exact ih
  | case3 ch cs line h1 h2 hch ih =>
    rw [← lineAfter_later] at ih
    rw [Gap.later_blank, skipGap_blank h1 h2, if_pos hch]
    exact ih
  | case4 ch cs line h1 h2 hch =>
    rw [Gap.later_blank, skipGap_blank h1 h2, if_neg hch]
    rfl
  | case5 cs line ih =>
    rw [← lineAfter_later] at ih
    exact ih
  | case6 ch cs line hch ih =>
    rw [Gap.later_lineComment, skipGap, if_neg hch]
    exact ih
  | case8 opened ch cs line h ih =>
    rw [← lineAfter_later] at ih
    rw [Gap.later, skipGap_blockComment h]
    exact ih
  | case9 => rfl
  | case10 gap line h =>
    cases gap with
    | blockComment opened => exact absurd rfl (h opened)
    | blank | lineComment => rfl

theorem readWord_later (word : String) (line : Nat) :
    readWord word (line + d) = (readWord word line).mapError (·.mapLines (· + d)) := by
  unfold readWord
  split
  next => rfl
  next =>
    split
    next => split <;> rfl
    next => split <;> rfl

theorem stringConstant_later (text : List Char) (line : Nat) :
    stringConstant text (line + d) = (stringConstant text line).mapError (·.mapLines (· + d)) := by
  unfold stringConstant
  split <;> rfl

theorem deliver_later (found : Except TokenError Lexeme) (line : Nat) (after : Cursor) :
    deliver (found.mapError (·.mapLines (· + d))) (line + d) (after.later d) =
      laterResult d (deliver found line after) := by
  cases found <;> rfl

theorem readToken_later (c : Char) (cs : List Char) (line : Nat) :
    readToken c cs (line + d) = laterResult d (readToken c cs line) := by
  unfold readToken
  split
  next => rfl
  next =>
    split
    next =>
      split
      next =>
        rw [stringConstant_later, ← deliver_later]
        rfl
      next =>
        simp [laterResult, TokenError.mapLines, Cursor.toEnd, Cursor.later, Nat.add_right_comm]
    next =>
      rw [readWord_later, ← deliver_later]
      rfl

theorem Cursor.read_later (c : Cursor) : (c.later d).read = laterResult d c.read := by
  have hgap := skipGap_later d .blank c.rest c.line
  unfold Cursor.read
  rw [Gap.later_blank] at hgap
  rw [Cursor.later, hgap]
  cases skipGap .blank c.rest c.line with
  | error opened =>
    simp [Except.map, Except.mapError, laterResult, TokenError.mapLines, Cursor.toEnd,
      Cursor.later, Nat.add_right_comm]
  | ok found =>
    obtain ⟨rest, line⟩ := found
    cases rest with
    | nil => rfl
    | cons ch cs => exact readToken_later d ch cs line

end Later

end JackVM
