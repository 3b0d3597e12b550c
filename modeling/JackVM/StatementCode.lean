import JackVM.ExpressionCode

namespace JackVM

/-- The tokens that may stand where a list of statements goes on or ends. -/
def afterStatement : List Lexeme :=
  [.keyword .kwLet, .keyword .kwIf, .keyword .kwWhile, .keyword .kwDo, .keyword .kwReturn,
   .symbol .closeBrace]

namespace Compiling

variable {τ σ : Type} [TokenSource τ] [CodeSink σ]

/-- Checks that a list of statements ends with a closing brace. -/
def expectBlockEnd {τ σ : Type} (t : Token) : CompilingFrom τ σ Unit :=
  if t.isSymbol .closeBrace then pure () else throw (.unexpected t (.tokens afterStatement))

/-- `name ([ expression ])? = expression ;` after `let`. The address of an element is kept on the
stack until the value is known, since working out the value may use the same pointer. -/
def letStatement (fuel : Nat) : CompilingFrom τ σ Token := do
  let target ← variableOf (← next)
  let t ← next
  match t.lexeme with
  | .symbol .openBracket => do
    pushVariable target
    let t ← next
    let t ← expression fuel t
    expect .closeBracket t
    put (.op .add)
    expectNext .equal
    let t ← next
    let t ← expression fuel t
    put (.pop .temp 0)
    put (.pop .pointer 1)
    put (.push .temp 0)
    put (.pop .that 0)
    expect .semicolon t
    next
  | .symbol .equal => do
    let t ← next
    let t ← expression fuel t
    popVariable target
    expect .semicolon t
    next
  | _ => throw (.unexpected t (.tokens [.symbol .openBracket, .symbol .equal]))

/-- `call ;` after `do`. The value of the call is dropped. -/
def doStatement (fuel : Nat) : CompilingFrom τ σ Token := do
  let t ← next
  let _ ← nameOf t
  let t ← call fuel t
  expect .semicolon t
  put (.pop .temp 0)
  next

/-- `expression? ;` after the word `return`. A subroutine that gives no value returns zero. -/
def returnStatement (fuel : Nat) (word : Token) : CompilingFrom τ σ Token := do
  match ← currentRoutine with
  | none => throw (.thisInFunction word.line (some .kwReturn))
  | some r => do
    let t ← next
    if r.returnsVoid then
      if t.isSymbol .semicolon then put (.push .constant 0)
      else throw (.unexpected t .semicolonInVoid)
    else
      let t ← expression fuel t
      expect .semicolon t
    put .ret
    next

/-- `( expression )` and the negation of its value. -/
def negatedCondition (fuel : Nat) : CompilingFrom τ σ Unit := do
  expectNext .openParen
  let t ← next
  let t ← expression fuel t
  expect .closeParen t
  put (.op .not)

mutual

/-- `statement*` from a token on. -/
def statements : Nat → Token → CompilingFrom τ σ Token
  | 0, _ => throw .outOfFuel
  | fuel + 1, t =>
    match t.lexeme with
    | .keyword .kwLet => do
      let t ← letStatement fuel
      statements fuel t
    | .keyword .kwIf => do
      let t ← ifStatement fuel
      statements fuel t
    | .keyword .kwWhile => do
      let t ← whileStatement fuel
      statements fuel t
    | .keyword .kwDo => do
      let t ← doStatement fuel
      statements fuel t
    | .keyword .kwReturn => do
      let t ← returnStatement fuel t
      statements fuel t
    | _ => pure t

/-- `{ statement* }` -/
def block : Nat → CompilingFrom τ σ Token
  | 0 => throw .outOfFuel
  | fuel + 1 => do
    expectNext .openBrace
    let t ← next
    let t ← statements fuel t
    expectBlockEnd t
    next

/-- `( expression ) block (else block)?` after `if`. -/
def ifStatement : Nat → CompilingFrom τ σ Token
  | 0 => throw .outOfFuel
  | fuel + 1 => do
    negatedCondition fuel
    let otherwise ← freshLabel "IF_FALSE"
    put (.ifGoto otherwise)
    let t ← block fuel
    if t.isKeyword .kwElse then
      let finish ← freshLabel "IF_END"
      put (.goto finish)
      put (.label otherwise)
      let t ← block fuel
      put (.label finish)
      pure t
    else
      put (.label otherwise)
      pure t

/-- `( expression ) block` after `while`. -/
def whileStatement : Nat → CompilingFrom τ σ Token
  | 0 => throw .outOfFuel
  | fuel + 1 => do
    let top ← freshLabel "WHILE_TOP"
    let finish ← freshLabel "WHILE_END"
    put (.label top)
    negatedCondition fuel
    put (.ifGoto finish)
    let t ← block fuel
    put (.goto top)
    put (.label finish)
    pure t

end

end Compiling

end JackVM
