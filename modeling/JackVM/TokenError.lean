import JackVM.Printable

namespace JackVM

/-- The largest number that the machine can push. -/
def maxConstant : Nat := 32767

/-- Why no token could be read, or the last one not be taken back. -/
inductive TokenError where
  | unknownWord (line : Nat) (text : String)
  | openString (line : Nat)
  | openComment (line : Nat)
  | largeInteger (line : Nat) (text : String)
  | largeCharacter (line : Nat) (character : Char)
  | nothingToUnread
  deriving DecidableEq, Repr

/-- A character in single quotes, by its code in hexadecimal if it has no shape of its own. -/
def quotedChar (c : Char) : String :=
  if isPrintable c then s!"'{c}'"
  else "'\\u\x7b" ++ String.ofList (Nat.toDigits 16 c.toNat) ++ "\x7d'"

def TokenError.message : TokenError → String
  | unknownWord line text => s!"line {line}: unrecognized token `{text}`"
  | openString line => s!"line {line}: unterminated string constant"
  | openComment line => s!"line {line}: unterminated block comment"
  | largeInteger line text =>
    s!"line {line}: integer constant {text} is out of range (0..={maxConstant})"
  | largeCharacter line c =>
    s!"line {line}: character {quotedChar c} in string constant has a code above {maxConstant}"
  | nothingToUnread => "cannot rewind further"

end JackVM
