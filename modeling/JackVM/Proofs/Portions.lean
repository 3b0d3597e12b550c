import JackVM.Proofs.Layouts
import JackVM.Proofs.TakingBack

namespace JackVM

/-- A word goes up to the end of the source, or up to white space, a quote or a symbol. -/
def EndsWord (after : List Char) : Prop :=
  ∀ c ∈ after.head?, isWhitespace c = true ∨ c = '"' ∨ ∃ s : Symbol, s.char = c

/-- The text that a result of reading on a line is about, and the text after it. Where a string or a
comment does not end, nothing comes after it. -/
inductive StandsFor (line : Nat) : Except TokenError Token → List Char → List Char → Prop
  | token {x : Lexeme} {after : List Char} (writable : x.Writable)
    (ends : x.isWord = true → EndsWord after)
    (alone : x = .symbol .slash → ∀ c ∈ after.head?, c ≠ '/' ∧ c ≠ '*') :
    StandsFor line (.ok ⟨x, line⟩) x.written after
  | unknownWord {word : String} {after : List Char} (nonempty : word.toList ≠ [])
    (chars : ∀ c ∈ word.toList, isWordChar c = true) (ends : EndsWord after)
    (unknown : Keyword.ofText? word = none ∧ word.toList.all isDigit = false ∧
      isName word.toList = false) :
    StandsFor line (.error (.unknownWord line word)) word.toList after
  | largeInteger {word : String} {after : List Char} (nonempty : word.toList ≠ [])
    (digits : word.toList.all isDigit = true) (large : maxConstant < digitsValue word.toList)
    (ends : EndsWord after) :
    StandsFor line (.error (.largeInteger line word)) word.toList after
  | largeCharacter {front back after : List Char} {c : Char}
    (closed : ∀ d ∈ front ++ c :: back, d ≠ '"' ∧ d ≠ '\n') (large : maxConstant < c.toNat)
    (first : ∀ d ∈ front, d.toNat ≤ maxConstant) :
    StandsFor line (.error (.largeCharacter line c)) ('"' :: (front ++ c :: back ++ ['"'])) after
  | openString {body : List Char}
    (unclosed : ∀ front back, body = front ++ '"' :: back → '\n' ∈ front) :
    StandsFor line (.error (.openString line)) ('"' :: body) []
  | openComment {body : List Char} (unclosed : ¬['*', '/'] <:+: body) :
    StandsFor line (.error (.openComment line)) ('/' :: '*' :: body) []

/-- A result of reading with the trivia before it and the text that it is about. -/
structure Portion where
  before : List Trivia
  text : List Char
  result : Except TokenError Token

def portionsText : List Portion → List Char → List Char
  | [], ending => ending
  | p :: ps, ending => triviaText p.before ++ (p.text ++ portionsText ps ending)

/-- Each result stands for some text, on the line that the text starts on. The portions come after
some text and before an ending. -/
def Accounted (before : List Char) : List Portion → List Char → Prop
  | [], _ => True
  | p :: ps, ending =>
    let here := before ++ triviaText p.before
    p.text ≠ [] ∧ StandsFor (1 + here.count '\n') p.result p.text (portionsText ps ending) ∧
      Accounted (here ++ p.text) ps ending

section Stops

/-- What may come after all trivia: nothing, a comment that does not end, or a token. -/
inductive Stops : List Char → Prop
  | nothing : Stops []
  | lineComment {body : List Char} (h : '\n' ∉ body) : Stops ('/' :: '/' :: body)
  | openComment {body : List Char} (h : ¬['*', '/'] <:+: body) : Stops ('/' :: '*' :: body)
  | token {c : Char} {cs : List Char} (white : isWhitespace c = false)
    (slash : c = '/' → ∀ d ∈ cs.head?, d ≠ '/' ∧ d ≠ '*') : Stops (c :: cs)

/-- The first end of a comment. -/
theorem exists_comment_end {cs : List Char} (h : ['*', '/'] <:+: cs) :
    ∃ body rest, cs = body ++ '*' :: '/' :: rest ∧ ¬['*', '/'] <:+: body := by
  induction cs with
  | nil => simp at h
  | cons c cs ih =>
    by_cases hfirst : ['*', '/'] <+: c :: cs
    · obtain ⟨rest, hrest⟩ := hfirst
      exact ⟨[], rest, hrest.symm, by simp⟩
    · have hcs := (List.infix_cons_iff.mp h).resolve_left hfirst
      obtain ⟨body, rest, rfl, hbody⟩ := ih hcs
      refine ⟨c :: body, rest, rfl, fun hc => ?_⟩
      obtain hfront | hinfix := List.infix_cons_iff.mp hc
      · exact hfirst (hfront.trans (List.prefix_append (c :: body) _))
      · exact hbody hinfix

/-- A text starts with trivia, up to where they stop. -/
def TriviaStop (cs : List Char) : Prop :=
  ∃ ts stop, cs = triviaText ts ++ stop ∧ Stops stop

theorem Stops.triviaStop {cs : List Char} (h : Stops cs) : TriviaStop cs :=
  ⟨[], cs, rfl, h⟩

theorem TriviaStop.cons (t : Trivia) {cs : List Char} (h : TriviaStop cs) :
    TriviaStop (t.text ++ cs) := by
  obtain ⟨ts, stop, rfl, hstop⟩ := h
  exact ⟨t :: ts, stop, (List.append_assoc t.text (triviaText ts) stop).symm, hstop⟩

/-- Trivia can be taken off the front of a text until none is left. -/
theorem triviaStop (cs : List Char) : TriviaStop cs := by
  induction hn : cs.length using Nat.strongRecOn generalizing cs with
  | ind n ih =>
    subst hn
    cases cs with
    | nil => exact Stops.nothing.triviaStop
    | cons c cs =>
      by_cases hwhite : isWhitespace c = true
      · exact (ih _ (by simp) cs rfl).cons (.white c hwhite)
      by_cases hline : c = '/' ∧ ∃ more, cs = '/' :: more
      · obtain ⟨rfl, more, rfl⟩ := hline
        by_cases hend : '\n' ∈ more
        · obtain ⟨body, rest, rfl, hbody⟩ := List.eq_append_cons_of_mem hend
          have hrest := ih _ (by simp; omega) rest rfl
          simpa [Trivia.text] using hrest.cons (.lineComment body hbody)
        · exact (Stops.lineComment hend).triviaStop
      by_cases hblock : c = '/' ∧ ∃ more, cs = '*' :: more
      · obtain ⟨rfl, more, rfl⟩ := hblock
        by_cases hend : ['*', '/'] <:+: more
        · obtain ⟨body, rest, rfl, hbody⟩ := exists_comment_end hend
          have hrest := ih _ (by simp; omega) rest rfl
          simpa [Trivia.text] using hrest.cons (.blockComment body hbody)
        · exact (Stops.openComment hend).triviaStop
      refine (Stops.token (by simpa using hwhite) fun hc d hd => ⟨?_, ?_⟩).triviaStop
      · rintro rfl
        exact hline ⟨hc, List.head?_eq_some_iff.mp hd⟩
      · rintro rfl
        exact hblock ⟨hc, List.head?_eq_some_iff.mp hd⟩

end Stops

section Reading

variable {line : Nat}

/-- A step of reading that gives a certain result. -/
def readingOf : Except TokenError Token → Cursor → EStateM.Result TokenError Cursor (Option Token)
  | .ok t, after => .ok (some t) after
  | .error e, after => .error e after

theorem Cursor.results_of_readingOf {c after : Cursor} {r : Except TokenError Token}
    (h : c.read = readingOf r after) : c.results = r :: after.results := by
  cases r with
  | ok t => exact results_of_token h
  | error e => exact results_of_error h

theorem deliver_eq_readingOf (found : Except TokenError Lexeme) (line : Nat) (after : Cursor) :
    deliver found line after = readingOf (found.map fun x => ⟨x, line⟩) after := by
  cases found <;> rfl

theorem endsWord_dropWhile (cs : List Char) : EndsWord (cs.dropWhile isWordChar) := by
  intro c hc
  have hword := List.head?_dropWhile_not isWordChar cs
  rw [Option.mem_def.mp hc] at hword
  dsimp only at hword
  by_cases hwhite : isWhitespace c = true
  · exact .inl hwhite
  by_cases hquote : c = '"'
  · exact .inr (.inl hquote)
  cases hsymbol : Symbol.ofChar? c with
  | none => simp [isWordChar, hwhite, hquote, stringQuote, hsymbol] at hword
  | some s => exact .inr (.inr ⟨s, Symbol.ofChar?_eq_some_iff.mp hsymbol⟩)

theorem standsFor_readWord {word after : List Char} (hne : word ≠ [])
    (hchars : ∀ c ∈ word, isWordChar c = true) (hends : EndsWord after) :
    StandsFor line ((readWord (String.ofList word) line).map fun x => ⟨x, line⟩) word after := by
  obtain ⟨word, rfl⟩ : ∃ s : String, word = s.toList := ⟨_, String.toList_ofList.symm⟩
  rw [String.ofList_toList, readWord]
  cases hkeyword : Keyword.ofText? word with
  | some k =>
    rw [← Keyword.ofText?_eq_some_iff.mp hkeyword]
    exact .token trivial (fun _ => hends) (by simp)
  | none =>
    dsimp only
    by_cases hdigits : word.toList.all isDigit = true
    · rw [if_pos hdigits]
      by_cases hlarge : digitsValue word.toList ≤ maxConstant
      · rw [if_pos hlarge]
        exact .token (x := .integer word) ⟨hne, hdigits, hlarge⟩ (fun _ => hends) (by simp)
      · rw [if_neg hlarge]
        exact .largeInteger hne hdigits (Nat.lt_of_not_le hlarge) hends
    · rw [if_neg hdigits]
      by_cases hname : isName word.toList = true
      · rw [if_pos hname]
        exact .token (x := .identifier word) ⟨hname, hkeyword⟩ (fun _ => hends) (by simp)
      · rw [if_neg hname]
        exact .unknownWord hne hchars hends ⟨hkeyword, by simpa using hdigits, by simpa using hname⟩

theorem standsFor_stringConstant {body after : List Char}
    (hbody : ∀ c ∈ body, c ≠ '"' ∧ c ≠ '\n') :
    StandsFor line ((stringConstant body line).map fun x => ⟨x, line⟩) ('"' :: (body ++ ['"']))
      after := by
  unfold stringConstant
  cases hlarge : body.find? isOversized with
  | some c =>
    obtain ⟨hc, front, back, rfl, hfront⟩ := List.find?_eq_some_iff_append.mp hlarge
    refine .largeCharacter hbody (by simpa [isOversized] using hc) fun d hd => ?_
    simpa [isOversized] using hfront d hd
  | none =>
    rw [List.find?_eq_none] at hlarge
    obtain ⟨text, rfl⟩ : ∃ s : String, body = s.toList := ⟨_, String.toList_ofList.symm⟩
    rw [String.ofList_toList]
    refine .token (x := .string text) (fun c hc => ⟨?_, hbody c hc⟩)
      (fun hword => by cases hword) (by simp)
    simpa [isOversized] using hlarge c hc

/-- Where a string does not end on its line, each quote after it has a line end before it. -/
theorem newline_mem_of_unclosed {cs : List Char}
    (h : ∀ after, cs.dropWhile isStringChar ≠ '"' :: after) (front back : List Char)
    (hcs : cs = front ++ '"' :: back) : '\n' ∈ front := by
  subst hcs
  induction front with
  | nil => exact absurd rfl (h back)
  | cons c front ih =>
    by_cases hc : isStringChar c = true
    · refine List.mem_cons_of_mem _ (ih fun after hafter => h after ?_)
      rw [List.cons_append, List.dropWhile_cons_of_pos hc, hafter]
    · by_cases hnew : c = '\n'
      · exact hnew ▸ List.mem_cons_self
      · have hquote : c = '"' := by simpa [isStringChar, hnew, stringQuote] using hc
        subst hquote
        exact absurd (List.dropWhile_cons_of_neg hc) (h _)

theorem readToken_standsFor {c : Char} {cs : List Char} (line : Nat) (hc : isWhitespace c = false)
    (hslash : c = '/' → ∀ d ∈ cs.head?, d ≠ '/' ∧ d ≠ '*') :
    ∃ r text after, c :: cs = text ++ after.rest ∧ readToken c cs line = readingOf r after ∧
      StandsFor line r text after.rest := by
  unfold readToken
  split
  next s hs =>
    obtain rfl := Symbol.ofChar?_eq_some_iff.mp hs
    refine ⟨.ok ⟨.symbol s, line⟩, _, ⟨cs, line⟩, ?_, rfl, .token trivial nofun fun hx => ?_⟩
    · rw [Lexeme.written_symbol]
      rfl
    · cases hx
      exact hslash rfl
  next hs =>
    by_cases hquote : c = stringQuote
    · rw [if_pos hquote]
      subst hquote
      split
      next after heq =>
        have hbody : ∀ d ∈ cs.takeWhile isStringChar, d ≠ '"' ∧ d ≠ '\n' := by
          intro d hd
          have hd := List.all_eq_true.mp List.all_takeWhile d hd
          simpa [isStringChar, stringQuote] using hd
        refine ⟨_, _, ⟨after, line⟩, ?_, deliver_eq_readingOf _ _ _, standsFor_stringConstant hbody⟩
        conv_lhs => rw [← List.takeWhile_append_dropWhile (p := isStringChar) (l := cs), heq]
        simp [stringQuote]
      next hopen =>
        exact ⟨.error (.openString line), _, Cursor.toEnd ⟨cs, line⟩, (List.append_nil _).symm, rfl,
          .openString (newline_mem_of_unclosed hopen)⟩
    · rw [if_neg hquote]
      have hword : isWordChar c = true := by simp [isWordChar, hc, hquote, hs]
      refine ⟨_, c :: cs.takeWhile isWordChar, ⟨cs.dropWhile isWordChar, line⟩, ?_,
        deliver_eq_readingOf _ _ _, standsFor_readWord (List.cons_ne_nil _ _) ?_
          (endsWord_dropWhile cs)⟩
      · rw [List.cons_append, List.takeWhile_append_dropWhile]
      · refine List.forall_mem_cons.mpr ⟨hword, fun d hd => ?_⟩
        exact List.all_eq_true.mp List.all_takeWhile d hd

theorem skipGap_blockComment_open {body : List Char} {opened : Nat} (h : ¬['*', '/'] <:+: body) :
    skipGap (.blockComment opened) body line = .error opened := by
  induction body generalizing line with
  | nil => rfl
  | cons c body ih =>
    rw [List.infix_cons_iff, not_or] at h
    have hopen (rest : List Char) (hc : c = '*') (hrest : body = '/' :: rest) : False := by
      subst hc hrest
      exact h.1 ⟨rest, rfl⟩
    rw [skipGap_blockComment hopen]
    exact ih h.2

/-- A step of reading ends at the end of the source, with a comment there that may do without a line
end, or it goes past some trivia and the text that its result is about. -/
theorem Cursor.read_portion (c : Cursor) :
    (∃ (e : Ending) (after : Cursor), c.rest = e.text ∧ c.read = .ok none after) ∨
      ∃ (p : Portion) (after : Cursor), c.rest = triviaText p.before ++ (p.text ++ after.rest) ∧
        c.read = readingOf p.result after ∧
        StandsFor (c.line + (triviaText p.before).count '\n') p.result p.text after.rest := by
  obtain ⟨rest, line⟩ := c
  obtain ⟨ts, stop, rfl, hstop⟩ := triviaStop rest
  have hread := read_triviaText ts stop line
  cases hstop with
  | nothing =>
    obtain ⟨after, hend⟩ := read_ending ⟨ts, none⟩ line
    exact .inl ⟨⟨ts, none⟩, after, rfl, hend⟩
  | @lineComment body hbody =>
    obtain ⟨after, hend⟩ := read_ending ⟨ts, some ⟨body, hbody⟩⟩ line
    exact .inl ⟨⟨ts, some ⟨body, hbody⟩⟩, after, rfl, hend⟩
  | @openComment body hbody =>
    have hskip : skipGap .blank ('/' :: '*' :: body) (line + (triviaText ts).count '\n') =
        .error (line + (triviaText ts).count '\n') := skipGap_blockComment_open hbody
    have hopen : Cursor.read ⟨'/' :: '*' :: body, line + (triviaText ts).count '\n'⟩ =
        readingOf (.error (.openComment (line + (triviaText ts).count '\n')))
          (toEnd ⟨'/' :: '*' :: body, line + (triviaText ts).count '\n'⟩) := by
      simp only [Cursor.read, hskip]
      rfl
    refine .inr ⟨⟨ts, _, _⟩, _, ?_, hread.trans hopen, .openComment hbody⟩
    exact congrArg (triviaText ts ++ ·) (List.append_nil _).symm
  | @token ch cs hwhite hslash =>
    obtain ⟨r, text, after, hcs, htoken, hstands⟩ :=
      readToken_standsFor (line + (triviaText ts).count '\n') hwhite hslash
    refine .inr ⟨⟨ts, text, r⟩, after, congrArg (triviaText ts ++ ·) hcs, ?_, hstands⟩
    exact hread.trans ((read_of_stop hwhite hslash).trans htoken)

end Reading

section Accounts

theorem StandsFor.text_ne_nil {line : Nat} {r : Except TokenError Token} {text after : List Char}
    (h : StandsFor line r text after) : text ≠ [] := by
  cases h with
  | @token x _ hx =>
    cases x with
    | keyword k => cases k <;> decide
    | symbol s => simp [Lexeme.written_symbol]
    | integer digits => exact hx.1
    | string text => exact List.cons_ne_nil _ _
    | identifier name =>
      intro hnil
      have hname := hx.1
      rw [show name.toList = [] from hnil] at hname
      cases hname
  | unknownWord hne | largeInteger hne => exact hne
  | largeCharacter | openString | openComment => exact List.cons_ne_nil _ _

theorem StandsFor.after_eq_nil {line opened : Nat} {r : Except TokenError Token}
    {text after : List Char} (h : StandsFor line r text after)
    (hopen : r = .error (.openString opened) ∨ r = .error (.openComment opened)) : after = [] := by
  obtain rfl | rfl := hopen
  · cases h
    rfl
  · cases h
    rfl

/-- From any place on the source is accounted for. -/
theorem Cursor.exists_portions (c : Cursor) (before : List Char)
    (hline : c.line = 1 + before.count '\n') :
    ∃ (ps : List Portion) (e : Ending), portionsText ps e.text = c.rest ∧
      c.results = ps.map Portion.result ∧ Accounted before ps e.text := by
  induction hn : c.rest.length using Nat.strongRecOn generalizing c before with
  | ind n ih =>
    obtain ⟨e, after, hrest, hread⟩ | ⟨p, after, hrest, hread, hstands⟩ := c.read_portion
    · exact ⟨[], e, hrest.symm, results_of_end hread, trivial⟩
    · obtain ⟨text, hpasses⟩ := c.read_passes
      have hafter : cursorAfter c.read = after := by
        rw [hread]
        cases p.result <;> rfl
      rw [hafter] at hpasses
      have htext : text = triviaText p.before ++ p.text := by
        have hsame : text ++ after.rest = triviaText p.before ++ p.text ++ after.rest := by
          rw [← hpasses.rest, hrest, List.append_assoc]
        exact List.append_cancel_right hsame
      have hhere : c.line + (triviaText p.before).count '\n' =
          1 + (before ++ triviaText p.before).count '\n' := by
        rw [hline, List.count_append, Nat.add_assoc]
      have hnext : after.line = 1 + (before ++ triviaText p.before ++ p.text).count '\n' := by
        rw [hpasses.line, htext, List.count_append, ← Nat.add_assoc, hhere, List.count_append,
          List.count_append, List.count_append, Nat.add_assoc, Nat.add_assoc]
      have hne := hstands.text_ne_nil
      have hlt : after.rest.length < n := by
        have hpos := List.length_pos_iff.mpr hne
        rw [← hn, hrest, List.length_append, List.length_append]
        omega
      obtain ⟨ps, e, hps, hresults, haccounted⟩ := ih _ hlt after _ hnext rfl
      rw [hhere, ← hps] at hstands
      refine ⟨p :: ps, e, ?_, ?_, hne, hstands, haccounted⟩
      · rw [portionsText, hps, hrest]
      · rw [results_of_readingOf hread, hresults, List.map_cons]

/-- Where nothing is left of the text, no result is left either. -/
theorem Accounted.eq_nil {before ending : List Char} {ps : List Portion}
    (h : Accounted before ps ending) (hps : portionsText ps ending = []) : ps = [] := by
  cases ps with
  | nil => rfl
  | cons p ps =>
    simp only [portionsText, List.append_eq_nil_iff] at hps
    exact absurd hps.2.1 h.1

/-- A string or a comment that does not end is the last result, and nothing comes after it. -/
theorem Accounted.last {before ending : List Char} {ps front back : List Portion} {p : Portion}
    {line : Nat} (h : Accounted before ps ending) (hps : ps = front ++ p :: back)
    (hopen : p.result = .error (.openString line) ∨ p.result = .error (.openComment line)) :
    back = [] ∧ ending = [] := by
  induction front generalizing before ps with
  | nil =>
    subst hps
    have hafter := h.2.1.after_eq_nil hopen
    have hback := h.2.2.eq_nil hafter
    subst hback
    exact ⟨rfl, hafter⟩
  | cons q front ih =>
    subst hps
    exact ih h.2.2 rfl

/-- Reading a source comes to its end, and every character of it belongs to trivia or to the text
of just one result. -/
theorem results_account (source : String) :
    (∀ ends, (callAll source
      (List.replicate ((Cursor.ofText source).results.length + ends) .next)).1.reverse =
        ((Cursor.ofText source).results.map (Except.map some) ++
          List.replicate ends (Except.ok none)).map .read) ∧
      ∃ (ps : List Portion) (e : Ending), portionsText ps e.text = source.toList ∧
        (Cursor.ofText source).results = ps.map Portion.result ∧ Accounted [] ps e.text ∧
        ∀ front p back line, ps = front ++ p :: back →
          p.result = .error (.openString line) ∨ p.result = .error (.openComment line) →
            back = [] ∧ e.text = [] := by
  refine ⟨callAll_next source, ?_⟩
  obtain ⟨ps, e, htext, hresults, haccounted⟩ :=
    Cursor.exists_portions (Cursor.ofText source) [] rfl
  exact ⟨ps, e, htext, hresults, haccounted, fun _ _ _ _ hps hopen => haccounted.last hps hopen⟩

end Accounts

end JackVM
