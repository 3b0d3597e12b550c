import JackVM.Declarations
import JackVM.TokenError
import JackVM.Token

namespace JackVM

/-- What could have stood where the source went wrong. -/
inductive Expected where
  | tokens (options : List Lexeme)
  | identifier
  | type
  | typeOrVoid
  | term
  | endOfSource
  /-- The end of a return statement that gives no value. -/
  | semicolonInVoid
  deriving DecidableEq, Repr

def quotedText (x : Lexeme) : String :=
  s!"\"{x.text}\""

def Expected.text : Expected → String
  | tokens [option] => quotedText option
  | tokens options => "one of " ++ ", ".intercalate (options.map quotedText)
  | identifier => "an identifier"
  | type => "a type"
  | typeOrVoid => "a type or \"void\""
  | term => "a term"
  | endOfSource => "end of input"
  | semicolonInVoid => "\";\" (the subroutine is void)"

/-- Why a class was not compiled. -/
inductive CompileError where
  | token (error : TokenError)
  | unexpected (found : Token) (expected : Expected)
  | unexpectedEnd
  | undeclared (line : Nat) (name : String)
  | alreadyDeclared (line : Nat) (error : AlreadyDeclared)
  /-- The current object was named in a function, or a word that asks for a subroutine stands
  outside of one. -/
  | thisInFunction (line : Nat) (outside : Option Keyword)
  /-- A subroutine of the current object was called in a function. -/
  | callInFunction (line : Nat) (name : String)
  /-- The sink took no further instruction. -/
  | refused
  /-- The bound on the depth of recursion was reached. -/
  | outOfFuel
  deriving DecidableEq, Repr

namespace CompileError

def message : CompileError → String
  | token error => error.message
  | unexpected found expected =>
    s!"line {found.line}: expected {expected.text}, found {found.lexeme.describe}"
  | unexpectedEnd => "unexpected end of input"
  | undeclared line name => s!"line {line}: undefined identifier `{name}`"
  | alreadyDeclared line error => s!"line {line}: {error.message}"
  | thisInFunction line none => s!"line {line}: `this` cannot be used inside a function"
  | thisInFunction line (some word) => s!"line {line}: `{word.text}` outside of a subroutine"
  | callInFunction line name =>
    s!"line {line}: `{name}` needs an object, but there is none inside a function"
  | refused => "failed to emit instruction"
  | outOfFuel => "source is nested too deeply"

/-- The texts of the errors behind an error, nearest first. -/
def causes : CompileError → List String
  | alreadyDeclared _ error => [error.message]
  | refused => ["an error occurred when formatting an argument"]
  | _ => []

end CompileError

end JackVM
