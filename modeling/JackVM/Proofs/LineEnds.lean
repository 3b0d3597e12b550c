import JackVM.Proofs.Portions

namespace JackVM

/-- A result that does not come from a string or a comment without an end. -/
def Closed (r : Except TokenError Token) : Prop :=
  ∀ line, r ≠ .error (.openString line) ∧ r ≠ .error (.openComment line)

/-- A result of reading when that many lines stand before. -/
def resultLater (d : Nat) : Except TokenError Token → Except TokenError Token
  | .ok t => .ok (t.mapLine (· + d))
  | .error e => .error (e.mapLines (· + d))

section

variable {c c' : Cursor} {line : Nat} {r : Except TokenError Token} {text after : List Char}

/-- The results after a place depend on it by what is read there only. -/
theorem Cursor.results_congr (h : c.read = c'.read) : c.results = c'.results := by
  cases hread : c'.read with
  | ok t? after =>
    cases t? with
    | none => rw [results_of_end (h.trans hread), results_of_end hread]
    | some t => rw [results_of_token (h.trans hread), results_of_token hread]
  | error e after => rw [results_of_error (h.trans hread), results_of_error hread]

theorem Cursor.results_later (d : Nat) (c : Cursor) :
    (c.later d).results = c.results.map (resultLater d) := by
  fun_induction Cursor.results c with
  | case1 c after hread => exact results_of_end (by rw [c.read_later d, hread]; rfl)
  | case2 c t after hread _ ih =>
    have hlater : (c.later d).read = .ok (some (t.mapLine (· + d))) (after.later d) := by
      rw [c.read_later d, hread]
      rfl
    rw [results_of_token hlater, ih]
    rfl
  | case3 c e after hread _ ih =>
    have hlater : (c.later d).read = .error (e.mapLines (· + d)) (after.later d) := by
      rw [c.read_later d, hread]
      rfl
    rw [results_of_error hlater, ih]
    rfl

theorem EndsWord.isWordChar_head (h : EndsWord after) :
    ∀ c ∈ after.head?, isWordChar c = false := by
  intro c hc
  obtain hwhite | rfl | ⟨s, rfl⟩ := h c hc
  · exact isWordChar_of_isWhitespace hwhite
  · rfl
  · exact isWordChar_symbol (Symbol.ofChar?_eq_some_iff.mpr rfl)

/-- Text that stands for a result is read as this result. -/
theorem StandsFor.read (h : StandsFor line r text after) (hr : Closed r) :
    Cursor.read ⟨text ++ after, line⟩ = readingOf r ⟨after, line⟩ := by
  cases h with
  | token writable ends alone =>
    exact read_written writable (fun hword => (ends hword).isWordChar_head) alone
  | @unknownWord word _ nonempty chars ends unknown =>
    rw [read_wordChars nonempty chars ends.isWordChar_head, String.ofList_toList, readWord]
    simp [unknown, deliver, readingOf]
  | @largeInteger word _ nonempty digits large ends =>
    have hchars (c : Char) (hc : c ∈ word.toList) : isWordChar c = true :=
      isWordChar_of_isNameChar (isNameChar_of_isDigit (List.all_eq_true.mp digits c hc))
    rw [read_wordChars nonempty hchars ends.isWordChar_head, String.ofList_toList, readWord,
      ofText?_of_digits digits]
    simp [digits, Nat.not_le_of_lt large, deliver, readingOf]
  | @largeCharacter front back _ c closed large first =>
    have hfind : (front ++ c :: back).find? isOversized = some c := by
      rw [List.find?_eq_some_iff_append]
      refine ⟨by simpa [isOversized] using large, front, back, rfl, fun d hd => ?_⟩
      simpa [isOversized] using first d hd
    rw [List.cons_append, List.append_assoc, List.singleton_append, read_quoted closed,
      stringConstant, hfind]
    rfl
  | openString => exact absurd rfl (hr line).1
  | openComment => exact absurd rfl (hr line).2

/-- No line ends inside of the text of a result. -/
theorem StandsFor.count_newline (h : StandsFor line r text after) (hr : Closed r) :
    text.count '\n' = 0 := by
  obtain ⟨passed, hpasses⟩ := Cursor.read_passes ⟨text ++ after, line⟩
  have hafter : cursorAfter (readingOf r ⟨after, line⟩) = ⟨after, line⟩ := by cases r <;> rfl
  rw [h.read hr, hafter] at hpasses
  have htext : text = passed := List.append_cancel_right hpasses.rest
  have hline : line = line + passed.count '\n' := hpasses.line
  rw [htext]
  omega

theorem head?_append_newline {more : List Char} {c : Char}
    (h : c ∈ (after ++ '\n' :: more).head?) : c ∈ after.head? ∨ c = '\n' := by
  cases after with
  | nil => exact .inr (Option.some.inj h).symm
  | cons d after => exact .inl h

/-- What a text stands for does not change by more lines behind it. -/
theorem StandsFor.append_newline (h : StandsFor line r text after) (hr : Closed r)
    (more : List Char) : StandsFor line r text (after ++ '\n' :: more) := by
  have hends (hafter : EndsWord after) : EndsWord (after ++ '\n' :: more) := by
    intro c hc
    obtain hc | rfl := head?_append_newline hc
    · exact hafter c hc
    · exact .inl isWhitespace_newline
  cases h with
  | token writable ends alone =>
    refine .token writable (fun hword => hends (ends hword)) fun hslash c hc => ?_
    obtain hc | rfl := head?_append_newline hc
    · exact alone hslash c hc
    · decide
  | unknownWord nonempty chars ends unknown =>
    exact .unknownWord nonempty chars (hends ends) unknown
  | largeInteger nonempty digits large ends =>
    exact .largeInteger nonempty digits large (hends ends)
  | largeCharacter closed large first => exact .largeCharacter closed large first
  | openString => exact absurd rfl (hr line).1
  | openComment => exact absurd rfl (hr line).2

/-- What stands after the last token is trivia once its line has an end. -/
theorem Ending.exists_trivia (e : Ending) : ∃ ts, triviaText ts = e.text ++ ['\n'] := by
  obtain ⟨trivia, comment⟩ := e
  cases comment with
  | none =>
    refine ⟨trivia ++ [.white '\n' isWhitespace_newline], ?_⟩
    simp [Ending.text, triviaText, Trivia.text]
  | some body =>
    refine ⟨trivia ++ [.lineComment body.val body.property], ?_⟩
    simp [Ending.text, triviaText, Trivia.text]

theorem results_ending (e : Ending) (more : List Char) (line : Nat) :
    Cursor.results ⟨e.text ++ '\n' :: more, line⟩ =
      Cursor.results ⟨more, line + e.text.count '\n' + 1⟩ := by
  obtain ⟨ts, hts⟩ := e.exists_trivia
  have hread := read_triviaText ts more line
  rw [hts, List.append_assoc, List.singleton_append, List.count_append, List.count_singleton_self,
    ← Nat.add_assoc] at hread
  exact Cursor.results_congr hread

/-- The results of an accounted text stay when more lines come behind it, whose results then follow
them. -/
theorem Accounted.results_append {before : List Char} {ps : List Portion} {e : Ending}
    (h : Accounted before ps e.text) (hclosed : ∀ p ∈ ps, Closed p.result) (more : List Char) :
    Cursor.results ⟨portionsText ps e.text ++ '\n' :: more, 1 + before.count '\n'⟩ =
      ps.map Portion.result ++
        Cursor.results ⟨more, 1 + (before ++ portionsText ps e.text).count '\n' + 1⟩ := by
  induction ps generalizing before with
  | nil =>
    rw [portionsText, results_ending, List.count_append, ← Nat.add_assoc]
    rfl
  | cons p ps ih =>
    obtain ⟨-, hstands, hps⟩ := h
    obtain ⟨hp, hclosed⟩ := List.forall_mem_cons.mp hclosed
    have hhere : 1 + (before ++ triviaText p.before).count '\n' =
        1 + before.count '\n' + (triviaText p.before).count '\n' := by
      rw [List.count_append, Nat.add_assoc]
    have hread := (hstands.append_newline hp more).read hp
    rw [hhere, ← read_triviaText] at hread
    have hrest := ih hps hclosed
    rw [List.count_append, hstands.count_newline hp, Nat.add_zero, hhere] at hrest
    rw [portionsText, List.append_assoc, List.append_assoc, Cursor.results_of_readingOf hread,
      hrest, List.map_cons, List.cons_append]
    simp only [List.append_assoc]

end

/-- Where no string and no comment of the first text lacks its end, what comes after a line end is
read as if it stood alone, at later lines. -/
theorem results_append_newline (a b : String)
    (h : ∀ r ∈ (Cursor.ofText a).results, Closed r) :
    (Cursor.ofText (a ++ "\n" ++ b)).results = (Cursor.ofText a).results ++
      (Cursor.ofText b).results.map (resultLater (a.toList.count '\n' + 1)) := by
  obtain ⟨ps, e, htext, hresults, haccounted⟩ :=
    Cursor.exists_portions (Cursor.ofText a) [] rfl
  have hclosed : ∀ p ∈ ps, Closed p.result := by
    intro p hp
    exact h _ (hresults ▸ List.mem_map_of_mem hp)
  have hall := haccounted.results_append hclosed b.toList
  have hrest : portionsText ps e.text = a.toList := htext
  have hline : 1 + a.toList.count '\n' + 1 = 1 + (a.toList.count '\n' + 1) := Nat.add_assoc _ _ _
  rw [List.nil_append, hrest, hline] at hall
  rw [← Cursor.results_later, hresults]
  simpa [Cursor.ofText, Cursor.later] using hall

/-- A comment and a slash stand before line ends, and errors do not matter. -/
theorem results_append_newline_slash :
    (∀ r ∈ (Cursor.ofText "x // \"\n40000 \"a\"/").results, Closed r) ∧
      (Cursor.ofText ("x // \"\n40000 \"a\"/" ++ "\n" ++ "/ y\n\"")).results =
        [.ok ⟨.identifier "x", 1⟩, .error (.largeInteger 2 "40000"), .ok ⟨.string "a", 2⟩,
          .ok ⟨.symbol .slash, 2⟩, .ok ⟨.symbol .slash, 3⟩, .ok ⟨.identifier "y", 3⟩,
          .error (.openString 4)] := by
  have ha : (Cursor.ofText "x // \"\n40000 \"a\"/").results =
      [.ok ⟨.identifier "x", 1⟩, .error (.largeInteger 2 "40000"), .ok ⟨.string "a", 2⟩,
        .ok ⟨.symbol .slash, 2⟩] := by decide +kernel
  have hb : (Cursor.ofText "/ y\n\"").results =
      [.ok ⟨.symbol .slash, 1⟩, .ok ⟨.identifier "y", 1⟩, .error (.openString 2)] := by
    decide +kernel
  have hclosed : ∀ r ∈ (Cursor.ofText "x // \"\n40000 \"a\"/").results, Closed r := by
    simp [ha, Closed]
  refine ⟨hclosed, ?_⟩
  rw [results_append_newline _ _ hclosed, ha, hb]
  decide

end JackVM
