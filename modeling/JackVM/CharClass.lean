import JackVM.Symbol

namespace JackVM

/-- First and last code of each run of white space. -/
def whitespaceRanges : List (Nat × Nat) :=
  [(0x9, 0xd), (0x20, 0x20), (0x85, 0x85), (0xa0, 0xa0), (0x1680, 0x1680), (0x2000, 0x200a),
   (0x2028, 0x2029), (0x202f, 0x202f), (0x205f, 0x205f), (0x3000, 0x3000)]

def isWhitespace (c : Char) : Bool :=
  whitespaceRanges.any fun r => r.1 ≤ c.toNat && c.toNat ≤ r.2

def stringQuote : Char := '"'

/-- Words end before white space, a quote or a symbol. -/
def isWordChar (c : Char) : Bool :=
  !isWhitespace c && c != stringQuote && (Symbol.ofChar? c).isNone

/-- String constants lie on one line and hold no quote. -/
def isStringChar (c : Char) : Bool :=
  c != stringQuote && c != '\n'

def isDigit (c : Char) : Bool :=
  '0' ≤ c && c ≤ '9'

def isNameStart (c : Char) : Bool :=
  ('a' ≤ c && c ≤ 'z') || ('A' ≤ c && c ≤ 'Z') || c == '_'

def isNameChar (c : Char) : Bool :=
  isNameStart c || isDigit c

/-- An identifier is an ASCII letter or underscore followed by letters, digits and underscores. -/
def isName : List Char → Bool
  | [] => false
  | c :: cs => isNameStart c && cs.all isNameChar

/-- The number that a list of digits denotes, read from the left after a number already read. -/
def digitsValueFrom (n : Nat) (cs : List Char) : Nat :=
  cs.foldl (fun m c => 10 * m + (c.toNat - '0'.toNat)) n

def digitsValue (cs : List Char) : Nat :=
  digitsValueFrom 0 cs

/-- The line that a character stands before, when it stands on a given line. -/
def lineAfter (c : Char) (line : Nat) : Nat :=
  if c = '\n' then line + 1 else line

theorem isWhitespace_newline : isWhitespace '\n' = true := by
  decide

theorem isWordChar_symbol {c : Char} {s : Symbol} (h : Symbol.ofChar? c = some s) :
    isWordChar c = false := by
  simp [isWordChar, h]

end JackVM
