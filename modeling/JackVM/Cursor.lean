import JackVM.TokenError
import JackVM.Token

namespace JackVM

/-- A place in a source: the characters from there on and the line they start on. -/
structure Cursor where
  rest : List Char
  line : Nat
  deriving DecidableEq, Repr

namespace Cursor

def ofText (source : String) : Cursor :=
  ⟨source.toList, 1⟩

def toEnd (c : Cursor) : Cursor :=
  ⟨[], c.line + c.rest.count '\n'⟩

end Cursor

/-- Where skipping stands: outside of comments, in a line comment, or in a block comment that was
opened on a certain line. -/
inductive Gap where
  | blank
  | lineComment
  | blockComment (opened : Nat)
  deriving DecidableEq, Repr

/-- Skips white space and comments from a line on. A block comment that does not end gives the line
that it was opened on. -/
def skipGap : Gap → List Char → Nat → Except Nat Cursor
  | .blank, '/' :: '/' :: cs, line => skipGap .lineComment cs line
  | .blank, '/' :: '*' :: cs, line => skipGap (.blockComment line) cs line
  | .blank, c :: cs, line =>
    if isWhitespace c then skipGap .blank cs (lineAfter c line) else .ok ⟨c :: cs, line⟩
  | .lineComment, c :: cs, line =>
    if c = '\n' then skipGap .blank cs (lineAfter c line) else skipGap .lineComment cs line
  | .blockComment _, '*' :: '/' :: cs, line => skipGap .blank cs line
  | .blockComment opened, c :: cs, line => skipGap (.blockComment opened) cs (lineAfter c line)
  | .blockComment opened, [], _ => .error opened
  | _, [], line => .ok ⟨[], line⟩

/-- What a word is: a reserved word, an integer constant within range, an identifier, or nothing. -/
def readWord (word : String) (line : Nat) : Except TokenError Lexeme :=
  match Keyword.ofText? word with
  | some k => .ok (.keyword k)
  | none =>
    if word.toList.all isDigit then
      if digitsValue word.toList ≤ maxConstant then .ok (.integer word)
      else .error (.largeInteger line word)
    else if isName word.toList then .ok (.identifier word)
    else .error (.unknownWord line word)

/-- Whether a character is too large to be pushed as a constant. -/
def isOversized (c : Char) : Bool :=
  maxConstant < c.toNat

/-- The string constant with this text, unless it holds a character that is too large. -/
def stringConstant (text : List Char) (line : Nat) : Except TokenError Lexeme :=
  match text.find? isOversized with
  | some c => .error (.largeCharacter line c)
  | none => .ok (.string (String.ofList text))

/-- Goes on at a cursor with a token that starts on a line, or with the error found instead. -/
def deliver (found : Except TokenError Lexeme) (line : Nat) (after : Cursor) :
    EStateM.Result TokenError Cursor (Option Token) :=
  match found with
  | .ok x => .ok (some ⟨x, line⟩) after
  | .error e => .error e after

/-- Reads the token that starts with a character outside of gaps. A string constant that does not
end on its line makes the rest of the source unusable. -/
def readToken (c : Char) (cs : List Char) (line : Nat) :
    EStateM.Result TokenError Cursor (Option Token) :=
  match Symbol.ofChar? c with
  | some s => .ok (some ⟨.symbol s, line⟩) ⟨cs, line⟩
  | none =>
    if c = stringQuote then
      match cs.dropWhile isStringChar with
      | '"' :: after => deliver (stringConstant (cs.takeWhile isStringChar) line) line ⟨after, line⟩
      | _ => .error (.openString line) (Cursor.toEnd ⟨cs, line⟩)
    else
      deliver (readWord (String.ofList (c :: cs.takeWhile isWordChar)) line) line
        ⟨cs.dropWhile isWordChar, line⟩

namespace Cursor

/-- Reads the next token, none at the end of the source. An error uses up the characters it is
about, so that reading can go on. -/
def read : EStateM TokenError Cursor (Option Token) := fun c =>
  match skipGap .blank c.rest c.line with
  | .error opened => .error (.openComment opened) c.toEnd
  | .ok ⟨[], line⟩ => .ok none ⟨[], line⟩
  | .ok ⟨ch :: cs, line⟩ => readToken ch cs line

end Cursor

end JackVM
