import JackVM.StatementCode

namespace JackVM

/-- The tokens that may stand where the members of a class go on or end. -/
def afterMember : List Lexeme :=
  [.keyword .kwStatic, .keyword .kwField, .keyword .kwConstructor, .keyword .kwFunction,
   .keyword .kwMethod, .symbol .closeBrace]

def classVariableKind? : Lexeme → Option VariableKind
  | .keyword .kwStatic => some .staticVar
  | .keyword .kwField => some .field
  | _ => none

def routineKind? : Lexeme → Option RoutineKind
  | .keyword .kwConstructor => some .constructor
  | .keyword .kwFunction => some .function
  | .keyword .kwMethod => some .method
  | _ => none

/-- The code that a subroutine starts with. A constructor gets memory for the fields, and both a
constructor and a method point to their object. -/
def prologue (kind : RoutineKind) (fields : Nat) : List Instruction :=
  match kind with
  | .constructor => [.push .constant fields, .call "Memory.alloc" 1, .pop .pointer 0]
  | .method => [.push .argument 0, .pop .pointer 0]
  | .function => []

namespace Compiling

variable {τ σ : Type} [TokenSource τ]

/-- `name (, name)* ;` which declares each name with a type. -/
def nameList (typeName : String) (k : VariableKind) : Nat → CompilingFrom τ σ Token
  | 0 => throw .outOfFuel
  | fuel + 1 => do
    declareName (← next) typeName k
    let t ← next
    match t.lexeme with
    | .symbol .comma => nameList typeName k fuel
    | .symbol .semicolon => next
    | _ => throw (.unexpected t (.tokens [.symbol .comma, .symbol .semicolon]))

/-- `type name (, name)* ;` after the word that gives the kind. -/
def typedNames (k : VariableKind) (fuel : Nat) : CompilingFrom τ σ Token := do
  let typeName ← typeOf (← next)
  nameList typeName k fuel

/-- The declarations of the class's variables from a token on. -/
def classVariables : Nat → Token → CompilingFrom τ σ Token
  | 0, _ => throw .outOfFuel
  | fuel + 1, t =>
    match classVariableKind? t.lexeme with
    | some k => do
      let t ← typedNames k fuel
      classVariables fuel t
    | none => pure t

/-- The declarations of a subroutine's own variables from a token on. -/
def localVariables : Nat → Token → CompilingFrom τ σ Token
  | 0, _ => throw .outOfFuel
  | fuel + 1, t =>
    if t.isKeyword .kwVar then do
      let t ← typedNames .localVar fuel
      localVariables fuel t
    else pure t

/-- `type name (, type name)*` from its first token on. -/
def parameters : Nat → Token → CompilingFrom τ σ Token
  | 0, _ => throw .outOfFuel
  | fuel + 1, t => do
    let typeName ← typeOf t
    declareName (← next) typeName .argument
    let t ← next
    if t.isSymbol .comma then
      let t ← next
      parameters fuel t
    else pure t

/-- `( parameters? )` -/
def parameterList (fuel : Nat) : CompilingFrom τ σ Unit := do
  expectNext .openParen
  let t ← next
  let t ← if t.isSymbol .closeParen then pure t else parameters fuel t
  expect .closeParen t

variable [CodeSink σ]

/-- `{ variables statement* }` with the header and the start of the code of a subroutine. The size
of the frame is known when all variables are declared. -/
def routineBody (name : String) (kind : RoutineKind) (fuel : Nat) : CompilingFrom τ σ Unit := do
  expectNext .openBrace
  let t ← next
  let t ← localVariables fuel t
  let d ← names
  let object ← className
  put (.function s!"{object}.{name}" (d.count .localVar))
  putAll (prologue kind (d.count .field))
  let t ← statements fuel t
  expectBlockEnd t

/-- `type name parameters body` after the word that gives the kind of the subroutine. -/
def routine (kind : RoutineKind) (fuel : Nat) : CompilingFrom τ σ Token := do
  let returned ← next
  checkReturnType returned
  let name ← nameOf (← next)
  setNames ((← names).enterSubroutine (kind = .method))
  setRoutine (some ⟨name, kind, returned.isKeyword .kwVoid⟩)
  parameterList fuel
  routineBody name kind fuel
  setRoutine none
  next

/-- The subroutines of a class from a token on. -/
def routines : Nat → Token → CompilingFrom τ σ Token
  | 0, _ => throw .outOfFuel
  | fuel + 1, t =>
    match routineKind? t.lexeme with
    | some kind => do
      let t ← routine kind fuel
      routines fuel t
    | none => pure t

/-- `class name { variables subroutines }` and the token after it, if any. -/
def classDeclaration (fuel : Nat) (t : Token) : CompilingFrom τ σ (Option Token) := do
  if t.isKeyword .kwClass then
    setClassName (← nameOf (← next))
    setNames (← names).enterClass
    expectNext .openBrace
    let t ← next
    let t ← classVariables fuel t
    let t ← routines fuel t
    if t.isSymbol .closeBrace then next?
    else throw (.unexpected t (.tokens afterMember))
  else throw (.unexpected t (.tokens [.keyword .kwClass]))

/-- The class that a source consists of, with nothing after it. -/
def wholeSource (fuel : Nat) : CompilingFrom τ σ Unit := do
  let t ← next
  match ← classDeclaration fuel t with
  | some trailing => throw (.unexpected trailing .endOfSource)
  | none => pure ()

end Compiling

namespace Compilation

variable {τ σ : Type} [TokenSource τ] [CodeSink σ]

/-- Compiles the next class of a source, and gives what can be gone on with afterwards, also after
an error. -/
def compileClass (s : Compilation σ τ) : Except CompileError Unit × Compilation σ τ :=
  match Compiling.wholeSource (TokenSource.depthBound s.tokens) s with
  | .ok _ after => (.ok (), after)
  | .error e after => (.error e, after)

end Compilation

/-- Compiles a source of one class to a sink, which is given back as it stands at the end or at the
first error. -/
def compileTo {σ : Type} [CodeSink σ] (source : String) (sink : σ) :
    Except CompileError Unit × σ :=
  let (result, after) := (Compilation.ofText source sink).compileClass
  (result, after.sink)

def compileInstructions (source : String) : Except CompileError (List Instruction) :=
  match compileTo source (#[] : Array Instruction) with
  | (.ok _, code) => .ok code.toList
  | (.error e, _) => .error e

def compileText (source : String) : Except CompileError String :=
  match compileTo source CodeText.empty with
  | (.ok _, code) => .ok code.text
  | (.error e, _) => .error e

end JackVM
