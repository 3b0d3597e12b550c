import JackVM.Compilation

namespace JackVM

/-- The instruction for a binary operator. Multiplication and division are calls. -/
def binaryInstruction? : Lexeme → Option Instruction
  | .symbol .plus => some (.op .add)
  | .symbol .minus => some (.op .sub)
  | .symbol .star => some (.call "Math.multiply" 2)
  | .symbol .slash => some (.call "Math.divide" 2)
  | .symbol .ampersand => some (.op .and)
  | .symbol .bar => some (.op .or)
  | .symbol .less => some (.op .lt)
  | .symbol .greater => some (.op .gt)
  | .symbol .equal => some (.op .eq)
  | _ => none

/-- The code that builds a string object: a new one of the right size, to which each character is
appended. -/
def stringCode (text : String) : List Instruction :=
  .push .constant text.length :: .call "String.new" 1 ::
    text.toList.flatMap fun c => [.push .constant c.toNat, .call "String.appendChar" 2]

namespace Compiling

variable {τ σ : Type} [TokenSource τ] [CodeSink σ]

/-- Puts instructions in order. -/
def putAll {τ : Type} : List Instruction → CompilingFrom τ σ Unit
  | [] => pure ()
  | i :: code => do
    put i
    putAll code

/-- Pushes the current object, which a method has as its first argument and a constructor at its
first pointer. -/
def pushThis {τ : Type} (line : Nat) : CompilingFrom τ σ Unit := do
  match (← currentRoutine).map Routine.kind with
  | some .method => put (.push .argument 0)
  | some .constructor => put (.push .pointer 0)
  | some .function => throw (.thisInFunction line none)
  | none => throw (.thisInFunction line (some .kwThis))

/-- Pushes the object that a subroutine named without a dot is called on. -/
def pushObject {τ : Type} (line : Nat) (name : String) : CompilingFrom τ σ Unit := do
  match (← currentRoutine).map Routine.kind with
  | some .method | some .constructor => put (.push .pointer 0)
  | _ => throw (.callInFunction line name)

/-- Reads from after the name at the start of a call to its opening parenthesis, and gives the full
name of the subroutine and the number of objects pushed. A variable before the dot stands for the
class of its type and is pushed; without a dot the current object is pushed. -/
def callee (first : Token) : CompilingFrom τ σ (String × Nat) := do
  let name ← nameOf first
  let t ← next
  match t.lexeme with
  | .symbol .dot => do
    let member ← nameOf (← next)
    expectNext .openParen
    match (← names).find? name with
    | some v => do
      pushVariable v
      pure (s!"{v.typeName}.{member}", 1)
    | none => pure (s!"{name}.{member}", 0)
  | .symbol .openParen => do
    pushObject first.line name
    let object ← className
    pure (s!"{object}.{name}", 1)
  | _ => throw (.unexpected t (.tokens [.symbol .openParen, .symbol .dot]))

mutual

/-- `term (operator term)*` from its first token on. Like every step of the grammar it gives the
first token after what it read. -/
def expression : Nat → Token → CompilingFrom τ σ Token
  | 0, _ => throw .outOfFuel
  | fuel + 1, t => do
    let t ← term fuel t
    operators fuel t

/-- `(operator term)*`. All operators bind alike and are worked from the left. -/
def operators : Nat → Token → CompilingFrom τ σ Token
  | 0, _ => throw .outOfFuel
  | fuel + 1, t =>
    match binaryInstruction? t.lexeme with
    | none => pure t
    | some i => do
      let t ← next
      let t ← term fuel t
      put i
      operators fuel t

/-- A constant, a variable, an element of an array, a call, an expression in parentheses, or a unary
operator with its term. -/
def term : Nat → Token → CompilingFrom τ σ Token
  | 0, _ => throw .outOfFuel
  | fuel + 1, t => do
    beginTerm t
    match t.lexeme with
    | .integer digits => do
      put (.push .constant (digitsValue digits.toList))
      next
    | .string text => do
      putAll (stringCode text)
      next
    | .keyword .kwTrue => do
      put (.push .constant 1)
      put (.op .neg)
      next
    | .keyword .kwFalse | .keyword .kwNull => do
      put (.push .constant 0)
      next
    | .keyword .kwThis => do
      pushThis t.line
      next
    | .symbol .openParen => do
      let t ← next
      let t ← expression fuel t
      expect .closeParen t
      next
    | .symbol .minus => do
      let t ← next
      let t ← term fuel t
      put (.op .neg)
      pure t
    | .symbol .tilde => do
      let t ← next
      let t ← term fuel t
      put (.op .not)
      pure t
    | .identifier _ => do
      let after ← next
      match after.lexeme with
      | .symbol .openBracket => do
        pushVariable (← variableOf t)
        let t ← next
        let t ← expression fuel t
        expect .closeBracket t
        put (.op .add)
        put (.pop .pointer 1)
        put (.push .that 0)
        next
      | .symbol .openParen | .symbol .dot => do
        unread
        call fuel t
      | _ => do
        pushVariable (← variableOf t)
        pure after
    | _ => throw (.unexpected t .term)

/-- `name(arguments)` or `name.name(arguments)` from its first name on. -/
def call : Nat → Token → CompilingFrom τ σ Token
  | 0, _ => throw .outOfFuel
  | fuel + 1, t => do
    let (name, receivers) ← callee t
    let (count, t) ← arguments fuel
    expect .closeParen t
    put (.call name (count + receivers))
    next

/-- `(expression (, expression)*)?` after the opening parenthesis, and the number of expressions. -/
def arguments : Nat → CompilingFrom τ σ (Nat × Token)
  | 0 => throw .outOfFuel
  | fuel + 1 => do
    let t ← next
    if t.isSymbol .closeParen then pure (0, t)
    else do
      let t ← expression fuel t
      moreArguments fuel 1 t

/-- `(, expression)*` after a number of expressions. -/
def moreArguments : Nat → Nat → Token → CompilingFrom τ σ (Nat × Token)
  | 0, _, _ => throw .outOfFuel
  | fuel + 1, count, t =>
    if t.isSymbol .comma then do
      let t ← next
      let t ← expression fuel t
      moreArguments fuel (count + 1) t
    else pure (count, t)

end

end Compiling

end JackVM
