import JackVM.CharClass
import JackVM.Keyword

namespace JackVM

/-- What a token is, apart from where it stands. -/
inductive Lexeme where
  | keyword (word : Keyword)
  | symbol (symbol : Symbol)
  | integer (digits : String)
  | string (text : String)
  | identifier (name : String)
  deriving DecidableEq, Repr

namespace Lexeme

/-- The characters of the token, for a string constant those between the quotes. -/
def text : Lexeme → String
  | keyword word => word.text
  | symbol s => s.char.toString
  | integer digits => digits
  | string text => text
  | identifier name => name

def kindName : Lexeme → String
  | keyword _ => "keyword"
  | symbol _ => "symbol"
  | integer _ => "integer constant"
  | string _ => "string constant"
  | identifier _ => "identifier"

def describe (x : Lexeme) : String :=
  match x with
  | string text => s!"{x.kindName} \"{text}\""
  | _ => s!"{x.kindName} `{x.text}`"

/-- The number that an integer constant denotes; other tokens denote none. -/
def value? : Lexeme → Option Nat
  | integer digits => some (digitsValue digits.toList)
  | _ => none

def name? : Lexeme → Option String
  | identifier name => some name
  | _ => none

end Lexeme

/-- A token with the line that it starts on, counted from one. -/
structure Token where
  lexeme : Lexeme
  line : Nat
  deriving DecidableEq, Repr

namespace Token

def isKeyword (t : Token) (word : Keyword) : Bool :=
  t.lexeme == .keyword word

def isSymbol (t : Token) (s : Symbol) : Bool :=
  t.lexeme == .symbol s

theorem isKeyword_iff {t : Token} {word : Keyword} :
    t.isKeyword word = true ↔ t.lexeme = .keyword word := by
  simp [isKeyword]

theorem isSymbol_iff {t : Token} {s : Symbol} :
    t.isSymbol s = true ↔ t.lexeme = .symbol s := by
  simp [isSymbol]

end Token

end JackVM
