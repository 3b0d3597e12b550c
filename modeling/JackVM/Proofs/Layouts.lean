import JackVM.Proofs.Positions

namespace JackVM

/-- A part of a source that stands for nothing. -/
inductive Trivia where
  | white (c : Char) (h : isWhitespace c = true)
  | lineComment (body : List Char) (h : '\n' ∉ body)
  | blockComment (body : List Char) (h : ¬['*', '/'] <:+: body)

def Trivia.text : Trivia → List Char
  | white c _ => [c]
  | lineComment body _ => '/' :: '/' :: (body ++ ['\n'])
  | blockComment body _ => '/' :: '*' :: (body ++ ['*', '/'])

def triviaText (ts : List Trivia) : List Char :=
  ts.flatMap Trivia.text

namespace Lexeme

/-- Whether a token can be written down at all. -/
def Writable : Lexeme → Prop
  | keyword _ | symbol _ => True
  | integer digits => digits.toList ≠ [] ∧ digits.toList.all isDigit = true ∧
      digitsValue digits.toList ≤ maxConstant
  | string text => ∀ c ∈ text.toList, c.toNat ≤ maxConstant ∧ c ≠ '"' ∧ c ≠ '\n'
  | identifier name => isName name.toList = true ∧ Keyword.ofText? name = none

instance : DecidablePred Writable
  | keyword _ | symbol _ => inferInstanceAs (Decidable True)
  | integer _ => inferInstanceAs (Decidable (_ ∧ _ ∧ _))
  | string text => List.decidableBAll _ text.toList
  | identifier _ => inferInstanceAs (Decidable (_ ∧ _))

def isWord : Lexeme → Bool
  | keyword _ | integer _ | identifier _ => true
  | symbol _ | string _ => false

/-- A token as it stands in a source. -/
def written (x : Lexeme) : List Char :=
  match x with
  | string text => '"' :: (text.toList ++ ['"'])
  | _ => x.text.toList

theorem written_symbol (s : Symbol) : (symbol s).written = [s.char] := by
  cases s <;> rfl

end Lexeme

/-- A token with the trivia before it. -/
structure Piece where
  before : List Trivia
  lexeme : Lexeme
  writable : lexeme.Writable

/-- Of two words one after the other the second one has trivia before it. -/
def Piece.Apart (p q : Piece) : Prop :=
  p.lexeme.isWord = true → q.lexeme.isWord = true → q.before ≠ []

def piecesText : List Piece → List Char → List Char
  | [], ending => ending
  | p :: ps, ending => triviaText p.before ++ (p.lexeme.written ++ piecesText ps ending)

/-- What stands after the last token. A line comment there may do without a line end. -/
structure Ending where
  trivia : List Trivia
  comment : Option {body : List Char // '\n' ∉ body}

def Ending.text (e : Ending) : List Char :=
  triviaText e.trivia ++
    match e.comment with
    | none => []
    | some body => '/' :: '/' :: body.val

/-- A slash does not open a comment with what follows it. -/
def SlashesStandAlone : List Piece → List Char → Prop
  | [], _ => True
  | p :: ps, ending =>
    (p.lexeme = .symbol .slash → ∀ c ∈ (piecesText ps ending).head?, c ≠ '/' ∧ c ≠ '*') ∧
      SlashesStandAlone ps ending

/-- Tokens in an order with trivia before, between and after them, of which there may be none but
between words. -/
structure Layout where
  pieces : List Piece
  ending : Ending
  apart : pieces.IsChain Piece.Apart
  slashes : SlashesStandAlone pieces ending.text

/-- The tokens of pieces that stand after some text, each with the line that it starts on. -/
def tokensAfter (before : List Char) : List Piece → List Token
  | [] => []
  | p :: ps =>
    let here := before ++ triviaText p.before
    ⟨p.lexeme, 1 + here.count '\n'⟩ :: tokensAfter (here ++ p.lexeme.written) ps

namespace Layout

def source (l : Layout) : String :=
  String.ofList (piecesText l.pieces l.ending.text)

def tokens (l : Layout) : List Token :=
  tokensAfter [] l.pieces

end Layout

section Characters

theorem forall_ascii {p : Char → Prop} (h : ∀ n : Fin 128, p (Char.ofNat n)) {c : Char}
    (hc : c.toNat < 128) : p c := by
  have hp := h ⟨c.toNat, hc⟩
  rwa [Char.ofNat_toNat] at hp

variable {c : Char}

theorem toNat_lt_of_isNameChar (h : isNameChar c = true) : c.toNat < 128 := by
  have hle {d : Char} (hd : d.toNat < 128) (hc : c ≤ d) : c.toNat < 128 :=
    Nat.lt_of_le_of_lt (UInt32.le_iff_toNat_le.mp hc) hd
  simp only [isNameChar, isNameStart, isDigit, Bool.or_eq_true, Bool.and_eq_true, decide_eq_true_eq,
    beq_iff_eq] at h
  rcases h with ((⟨-, h⟩ | ⟨-, h⟩) | rfl) | ⟨-, h⟩
  · exact hle (by decide) h
  · exact hle (by decide) h
  · decide
  · exact hle (by decide) h

theorem isWordChar_of_isNameChar (h : isNameChar c = true) : isWordChar c = true := by
  refine forall_ascii (p := fun c => isNameChar c = true → isWordChar c = true) ?_
    (toNat_lt_of_isNameChar h) h
  decide

theorem isNameChar_of_isDigit (h : isDigit c = true) : isNameChar c = true := by
  simp [isNameChar, h]

theorem isNameChar_of_isNameStart (h : isNameStart c = true) : isNameChar c = true := by
  simp [isNameChar, h]

theorem isDigit_of_isNameStart (h : isNameStart c = true) : isDigit c = false := by
  refine forall_ascii (p := fun c => isNameStart c = true → isDigit c = false) ?_
    (toNat_lt_of_isNameChar (isNameChar_of_isNameStart h)) h
  decide

theorem isWordChar_of_isWhitespace (h : isWhitespace c = true) : isWordChar c = false := by
  simp [isWordChar, h]

end Characters

section Skipping

variable {cs : List Char} {line : Nat}

theorem count_newline_cons (c : Char) (cs : List Char) (line : Nat) :
    line + (c :: cs).count '\n' = lineAfter c line + cs.count '\n' := by
  have hline : lineAfter c line = line + [c].count '\n' := (Cursor.passes_char c cs line).line
  rw [hline, ← List.singleton_append, List.count_append, Nat.add_assoc]

theorem skipGap_lineComment {body : List Char} (h : '\n' ∉ body) :
    skipGap .lineComment (body ++ '\n' :: cs) line = skipGap .blank cs (line + 1) := by
  induction body with
  | nil => rfl
  | cons c body ih =>
    rw [List.mem_cons, not_or] at h
    rw [List.cons_append, skipGap, if_neg (Ne.symm h.1)]
    exact ih h.2

theorem skipGap_lineComment_end {body : List Char} (h : '\n' ∉ body) :
    skipGap .lineComment body line = .ok ⟨[], line⟩ := by
  induction body with
  | nil => rfl
  | cons c body ih =>
    rw [List.mem_cons, not_or] at h
    rw [skipGap, if_neg (Ne.symm h.1)]
    exact ih h.2

theorem skipGap_blockComment_end {body : List Char} {opened : Nat} (h : ¬['*', '/'] <:+: body) :
    skipGap (.blockComment opened) (body ++ '*' :: '/' :: cs) line =
      skipGap .blank cs (line + body.count '\n') := by
  induction body generalizing line with
  | nil => rfl
  | cons c body ih =>
    rw [List.infix_cons_iff, not_or] at h
    have hopen (rest : List Char) (hc : c = '*') (hrest : body ++ '*' :: '/' :: cs = '/' :: rest) :
        False := by
      subst hc
      cases body with
      | nil => cases hrest
      | cons d body =>
        obtain ⟨rfl, -⟩ := List.cons.inj hrest
        exact h.1 (List.prefix_append ['*', '/'] body)
    rw [List.cons_append, skipGap_blockComment hopen, ih h.2, count_newline_cons]

theorem skipGap_trivia (t : Trivia) :
    skipGap .blank (t.text ++ cs) line = skipGap .blank cs (line + t.text.count '\n') := by
  cases t with
  | white c h =>
    have hslash : c ≠ '/' := by
      rintro rfl
      exact absurd h (by decide)
    rw [Trivia.text, List.singleton_append, skipGap_blank (fun _ hc => absurd hc hslash)
      (fun _ hc => absurd hc hslash), if_pos h, count_newline_cons]
    rfl
  | lineComment body h =>
    have hcount : ('/' :: '/' :: (body ++ ['\n'])).count '\n' = 1 := by
      simp [List.count_eq_zero_of_not_mem h]
    rw [Trivia.text, hcount, List.cons_append, List.cons_append, List.append_assoc]
    exact skipGap_lineComment h
  | blockComment body h =>
    have hcount : ('/' :: '*' :: (body ++ ['*', '/'])).count '\n' = body.count '\n' := by
      simp
    rw [Trivia.text, hcount, List.cons_append, List.cons_append, List.append_assoc]
    exact skipGap_blockComment_end h

theorem skipGap_triviaText (ts : List Trivia) (cs : List Char) (line : Nat) :
    skipGap .blank (triviaText ts ++ cs) line =
      skipGap .blank cs (line + (triviaText ts).count '\n') := by
  induction ts generalizing line with
  | nil => rfl
  | cons t ts ih =>
    rw [triviaText, List.flatMap_cons, List.append_assoc, skipGap_trivia, List.count_append,
      ← Nat.add_assoc]
    exact ih _

/-- Trivia are passed over wherever they stand. -/
theorem read_triviaText (ts : List Trivia) (cs : List Char) (line : Nat) :
    Cursor.read ⟨triviaText ts ++ cs, line⟩ =
      Cursor.read ⟨cs, line + (triviaText ts).count '\n'⟩ := by
  unfold Cursor.read
  rw [skipGap_triviaText]
  cases skipGap .blank cs (line + (triviaText ts).count '\n') with
  | ok found =>
    obtain ⟨found, stop⟩ := found
    cases found <;> rfl
  | error opened => simp [Cursor.toEnd, List.count_append, Nat.add_assoc]

theorem read_ending (e : Ending) (line : Nat) :
    ∃ after, Cursor.read ⟨e.text, line⟩ = .ok none after := by
  rw [Ending.text, read_triviaText]
  cases e.comment with
  | none => exact ⟨_, rfl⟩
  | some body =>
    obtain ⟨body, h⟩ := body
    have hskip (line : Nat) : skipGap .blank ('/' :: '/' :: body) line = .ok ⟨[], line⟩ :=
      skipGap_lineComment_end h
    simp only [Cursor.read, hskip]
    exact ⟨_, rfl⟩

end Skipping

section Tokens

variable {rest : List Char} {line : Nat}

theorem read_of_stop {c : Char} {cs : List Char} (hc : isWhitespace c = false)
    (hslash : c = '/' → ∀ d ∈ cs.head?, d ≠ '/' ∧ d ≠ '*') :
    Cursor.read ⟨c :: cs, line⟩ = readToken c cs line := by
  have hline (more : List Char) (h : c = '/') (hcs : cs = '/' :: more) : False := by
    subst hcs
    exact (hslash h '/' rfl).1 rfl
  have hblock (more : List Char) (h : c = '/') (hcs : cs = '*' :: more) : False := by
    subst hcs
    exact (hslash h '*' rfl).2 rfl
  simp [Cursor.read, skipGap_blank hline hblock, hc]

theorem read_symbol {s : Symbol} (h : s = .slash → ∀ d ∈ rest.head?, d ≠ '/' ∧ d ≠ '*') :
    Cursor.read ⟨s.char :: rest, line⟩ = .ok (some ⟨.symbol s, line⟩) ⟨rest, line⟩ := by
  have hwhite : isWhitespace s.char = false := by cases s <;> decide
  have hslash (hs : s.char = '/') : s = .slash := Symbol.char_injective hs
  rw [read_of_stop hwhite fun hs => h (hslash hs), readToken, Symbol.ofChar?_eq_some_iff.mpr rfl]

/-- A predicate that holds up to a place tells where that is. -/
theorem takeWhile_append_eq {p : Char → Bool} {body rest : List Char}
    (hbody : ∀ c ∈ body, p c = true) (hrest : ∀ c ∈ rest.head?, p c = false) :
    (body ++ rest).takeWhile p = body ∧ (body ++ rest).dropWhile p = rest := by
  rw [List.takeWhile_append_of_pos hbody, List.dropWhile_append_of_pos hbody]
  cases rest with
  | nil => simp
  | cons c rest =>
    have hc : p c = false := hrest c rfl
    simp [hc]

/-- Text in quotes that lie on one line is read as one string constant. -/
theorem read_quoted {body : List Char} (h : ∀ c ∈ body, c ≠ '"' ∧ c ≠ '\n') :
    Cursor.read ⟨'"' :: (body ++ '"' :: rest), line⟩ =
      deliver (stringConstant body line) line ⟨rest, line⟩ := by
  have hchars : ∀ c ∈ body, isStringChar c = true := by
    intro c hc
    simpa [isStringChar, stringQuote] using h c hc
  have hquote : ∀ c ∈ ('"' :: rest).head?, isStringChar c = false := by
    intro c hc
    cases hc
    rfl
  obtain ⟨htake, hdrop⟩ := takeWhile_append_eq hchars hquote
  have hsymbol : Symbol.ofChar? '"' = none := rfl
  rw [read_of_stop rfl fun h => absurd h (by decide), readToken, hsymbol]
  simp only [stringQuote, if_pos]
  rw [hdrop, htake]
  rfl

theorem read_string {text : String} (h : (Lexeme.string text).Writable) :
    Cursor.read ⟨'"' :: (text.toList ++ '"' :: rest), line⟩ =
      .ok (some ⟨.string text, line⟩) ⟨rest, line⟩ := by
  have hfits : text.toList.find? isOversized = none := by
    rw [List.find?_eq_none]
    intro c hc
    simpa [isOversized] using (h c hc).1
  rw [read_quoted fun c hc => (h c hc).2]
  simp [stringConstant, hfits, deliver]

/-- Characters of words that stand together are read as one word. -/
theorem read_wordChars {word : List Char} (hword : word ≠ [])
    (hchars : ∀ c ∈ word, isWordChar c = true) (hrest : ∀ c ∈ rest.head?, isWordChar c = false) :
    Cursor.read ⟨word ++ rest, line⟩ =
      deliver (readWord (String.ofList word) line) line ⟨rest, line⟩ := by
  obtain ⟨c, cs, rfl⟩ := List.exists_cons_of_ne_nil hword
  obtain ⟨hc, hcs⟩ := List.forall_mem_cons.mp hchars
  obtain ⟨htake, hdrop⟩ := takeWhile_append_eq hcs hrest
  simp only [isWordChar, Bool.and_eq_true, bne_iff_ne, Option.isNone_iff_eq_none] at hc
  obtain ⟨⟨hwhite, hquote⟩, hsymbol⟩ := hc
  have hslash : c ≠ '/' := by
    rintro rfl
    cases hsymbol
  rw [List.cons_append, read_of_stop (by simpa using hwhite) fun h => absurd h hslash, readToken,
    hsymbol]
  simp only [hquote, if_neg, not_false_eq_true]
  rw [htake, hdrop]

theorem read_word {word : List Char} {x : Lexeme} (hword : word ≠ [])
    (hchars : ∀ c ∈ word, isWordChar c = true) (hrest : ∀ c ∈ rest.head?, isWordChar c = false)
    (hx : readWord (String.ofList word) line = .ok x) :
    Cursor.read ⟨word ++ rest, line⟩ = .ok (some ⟨x, line⟩) ⟨rest, line⟩ := by
  rw [read_wordChars hword hchars hrest, hx]
  rfl

theorem readWord_keyword (k : Keyword) (line : Nat) :
    readWord k.text line = .ok (.keyword k) := by
  rw [readWord, Keyword.ofText?_eq_some_iff.mpr rfl]

theorem all_isWordChar_keyword (k : Keyword) : k.text.toList.all isWordChar = true := by
  cases k <;> decide

/-- No reserved word consists of digits. -/
theorem ofText?_of_digits {word : String} (h : word.toList.all isDigit = true) :
    Keyword.ofText? word = none := by
  cases hk : Keyword.ofText? word with
  | none => rfl
  | some k =>
    rw [← Keyword.ofText?_eq_some_iff.mp hk] at h
    revert h
    cases k <;> decide

theorem readWord_integer {digits : String} (h : (Lexeme.integer digits).Writable) (line : Nat) :
    readWord digits line = .ok (.integer digits) := by
  obtain ⟨-, hdigits, hvalue⟩ := h
  rw [readWord, ofText?_of_digits hdigits]
  simp [hdigits, hvalue]

theorem readWord_identifier {name : String} (h : (Lexeme.identifier name).Writable) (line : Nat) :
    readWord name line = .ok (.identifier name) := by
  obtain ⟨hname, hkeyword⟩ := h
  have hdigits : name.toList.all isDigit = false := by
    cases hn : name.toList with
    | nil => simp [hn, isName] at hname
    | cons c cs =>
      simp only [hn, isName, Bool.and_eq_true] at hname
      simp [isDigit_of_isNameStart hname.1]
  rw [readWord, hkeyword]
  simp [hdigits, hname]

theorem isWordChar_of_isName {name : List Char} (h : isName name = true) :
    ∀ c ∈ name, isWordChar c = true := by
  cases name with
  | nil => simp
  | cons c cs =>
    simp only [isName, Bool.and_eq_true] at h
    obtain ⟨hc, hcs⟩ := h
    refine List.forall_mem_cons.mpr ⟨?_, fun d hd => ?_⟩
    · exact isWordChar_of_isNameChar (isNameChar_of_isNameStart hc)
    · exact isWordChar_of_isNameChar (List.all_eq_true.mp hcs d hd)

/-- A token is read back when what follows does not change it. -/
theorem read_written {x : Lexeme} (hx : x.Writable)
    (hword : x.isWord = true → ∀ c ∈ rest.head?, isWordChar c = false)
    (hslash : x = .symbol .slash → ∀ c ∈ rest.head?, c ≠ '/' ∧ c ≠ '*') :
    Cursor.read ⟨x.written ++ rest, line⟩ = .ok (some ⟨x, line⟩) ⟨rest, line⟩ := by
  cases x with
  | keyword k =>
    refine read_word ?_ (List.all_eq_true.mp (all_isWordChar_keyword k)) (hword rfl) ?_
    · cases k <;> decide
    · exact String.ofList_toList ▸ readWord_keyword k line
  | symbol s =>
    rw [Lexeme.written_symbol]
    exact read_symbol fun hs => hslash (congrArg Lexeme.symbol hs)
  | integer digits =>
    have hchars (c : Char) (hc : c ∈ digits.toList) : isWordChar c = true :=
      isWordChar_of_isNameChar (isNameChar_of_isDigit (List.all_eq_true.mp hx.2.1 c hc))
    exact read_word hx.1 hchars (hword rfl) (String.ofList_toList ▸ readWord_integer hx line)
  | string text =>
    rw [Lexeme.written, List.cons_append, List.append_assoc]
    exact read_string hx
  | identifier name =>
    have hne : name.toList ≠ [] := by
      intro hnil
      have hname := hx.1
      simp [hnil, isName] at hname
    exact read_word hne (isWordChar_of_isName hx.1) (hword rfl)
      (String.ofList_toList ▸ readWord_identifier hx line)

end Tokens

section Boundaries

theorem count_written {x : Lexeme} (h : x.Writable) : x.written.count '\n' = 0 := by
  have hread : Cursor.read ⟨x.written ++ [], 0⟩ = .ok (some ⟨x, 0⟩) ⟨[], 0⟩ :=
    read_written h (fun _ _ hc => nomatch hc) (fun _ _ hc => nomatch hc)
  obtain ⟨text, hpasses⟩ := Cursor.read_passes ⟨x.written ++ [], 0⟩
  rw [hread] at hpasses
  have hrest : x.written = text := by simpa [cursorAfter] using hpasses.rest
  have hline : 0 = text.count '\n' := by simpa [cursorAfter] using hpasses.line
  rw [hrest, ← hline]

theorem head_triviaText {ts : List Trivia} (h : ts ≠ []) (cs : List Char) :
    ∀ c ∈ (triviaText ts ++ cs).head?, isWordChar c = false := by
  obtain ⟨t, ts, rfl⟩ := List.exists_cons_of_ne_nil h
  intro c hc
  cases t with
  | white d hd =>
    cases hc
    exact isWordChar_of_isWhitespace hd
  | lineComment | blockComment =>
    cases hc
    decide

theorem head_written {x : Lexeme} (h : x.isWord = false) (cs : List Char) :
    ∀ c ∈ (x.written ++ cs).head?, isWordChar c = false := by
  intro c hc
  cases x with
  | symbol s =>
    rw [Lexeme.written_symbol] at hc
    cases hc
    exact isWordChar_symbol (Symbol.ofChar?_eq_some_iff.mpr rfl)
  | string text =>
    cases hc
    decide
  | keyword | integer | identifier => cases h

theorem head_ending (e : Ending) : ∀ c ∈ e.text.head?, isWordChar c = false := by
  obtain ⟨trivia, comment⟩ := e
  by_cases h : trivia = []
  · subst h
    intro c hc
    cases comment with
    | none => cases hc
    | some body =>
      cases hc
      decide
  · exact head_triviaText h _

/-- A word ends where the next token or the end of the source begins. -/
theorem head_piecesText {p : Piece} {ps : List Piece} {e : Ending} (hp : p.lexeme.isWord = true)
    (h : (p :: ps).IsChain Piece.Apart) :
    ∀ c ∈ (piecesText ps e.text).head?, isWordChar c = false := by
  cases ps with
  | nil => exact head_ending e
  | cons q ps =>
    have hq := (List.isChain_cons_cons.mp h).1 hp
    rw [piecesText]
    by_cases hbefore : q.before = []
    · have hnot : q.lexeme.isWord = false := by
        cases hw : q.lexeme.isWord with
        | false => rfl
        | true => exact absurd hbefore (hq hw)
      rw [hbefore]
      exact head_written hnot _
    · exact head_triviaText hbefore _

end Boundaries

section Layouts

/-- The tokens of pieces are read back from where they stand. -/
theorem results_piecesText (ps : List Piece) (e : Ending) (before : List Char)
    (hapart : ps.IsChain Piece.Apart)
    (hslashes : SlashesStandAlone ps e.text) :
    Cursor.results ⟨piecesText ps e.text, 1 + before.count '\n'⟩ =
      (tokensAfter before ps).map .ok := by
  induction ps generalizing before with
  | nil =>
    obtain ⟨after, hread⟩ := read_ending e (1 + before.count '\n')
    exact Cursor.results_of_end hread
  | cons p ps ih =>
    have hread := (read_triviaText p.before _ (1 + before.count '\n')).trans
      (read_written p.writable (fun hp => head_piecesText hp hapart) hslashes.1)
    have hgap : 1 + (before ++ triviaText p.before).count '\n' =
        1 + before.count '\n' + (triviaText p.before).count '\n' := by
      rw [List.count_append, Nat.add_assoc]
    have htail : ps.IsChain Piece.Apart := by
      cases hapart with
      | singleton => exact .nil
      | cons_cons _ htail => exact htail
    have hrest := ih (before ++ triviaText p.before ++ p.lexeme.written) htail hslashes.2
    rw [← hgap] at hread
    rw [List.count_append, count_written p.writable, Nat.add_zero] at hrest
    rw [piecesText, Cursor.results_of_token hread, hrest]
    rfl

/-- Reading a layout of tokens gives these tokens, at the lines on which they stand, and no error
nor anything else. -/
theorem results_layout (l : Layout) :
    (Cursor.ofText l.source).results = l.tokens.map .ok := by
  have h := results_piecesText l.pieces l.ending [] l.apart l.slashes
  rw [List.count_nil, Nat.add_zero] at h
  rw [Cursor.ofText, Layout.source, String.toList_ofList, h]
  rfl

end Layouts

/-- Tokens that touch each other and comments, and a comment at the very end. -/
def touchingTokens : Layout where
  pieces :=
    [⟨[], .keyword .kwLet, trivial⟩,
     ⟨[.white '\t' rfl], .identifier "x", by decide⟩,
     ⟨[.lineComment ['/', '*'] (by decide)], .symbol .slash, trivial⟩,
     ⟨[], .integer "007", by decide⟩,
     ⟨[], .string "a /* b", by decide⟩,
     ⟨[.blockComment ['*', '\n'] (by decide)], .identifier "y", by decide⟩]
  ending := ⟨[.white '\n' rfl], some ⟨['/'], by decide⟩⟩
  apart := by simp [Piece.Apart, Lexeme.isWord]
  slashes := by simp [SlashesStandAlone, piecesText, Lexeme.written, Lexeme.text, triviaText]

theorem results_touchingTokens :
    (Cursor.ofText "let\tx///*\n/007\"a /* b\"/**\n*/y\n///").results =
      [.ok ⟨.keyword .kwLet, 1⟩, .ok ⟨.identifier "x", 1⟩, .ok ⟨.symbol .slash, 2⟩,
       .ok ⟨.integer "007", 2⟩, .ok ⟨.string "a /* b", 2⟩, .ok ⟨.identifier "y", 3⟩] :=
  results_layout touchingTokens

end JackVM
