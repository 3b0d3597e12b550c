import JackVM.CodeSink
import JackVM.CompileError
import JackVM.LabelSupply
import JackVM.TokenStream

namespace JackVM

inductive RoutineKind where
  | constructor
  | function
  | method
  deriving DecidableEq, Repr

/-- What is known of a subroutine while its text is read. -/
structure Routine where
  name : String
  kind : RoutineKind
  returnsVoid : Bool
  deriving DecidableEq, Repr

/-- What compiling a source keeps while it goes along: the tokens still to come, the names in sight,
the labels handed out, the class and the subroutine being read, and the code put so far. -/
structure Compilation (σ : Type) (τ : Type := TokenStream) where
  tokens : τ
  names : Declarations
  labels : LabelSupply
  className : String
  /-- None outside of a subroutine. -/
  routine : Option Routine
  sink : σ

def Compilation.ofText {σ : Type} (source : String) (sink : σ) : Compilation σ :=
  ⟨.ofText source, .empty, .start, "", none, sink⟩

/-- A step of compiling, which may stop with an error. What was read and put before remains. -/
abbrev CompilingFrom (τ σ : Type) := EStateM CompileError (Compilation σ τ)

abbrev Compiling (σ : Type) := CompilingFrom TokenStream σ

namespace Compiling

section Tokens

variable {τ σ : Type} [TokenSource τ]

/-- Reads a token, none at the end of the source. -/
def next? : CompilingFrom τ σ (Option Token) := fun s =>
  match TokenSource.next s.tokens with
  | .ok t? tokens => .ok t? { s with tokens := tokens }
  | .error e tokens => .error (.token e) { s with tokens := tokens }

/-- Reads a token, where the source must not end. -/
def next : CompilingFrom τ σ Token := do
  match ← next? with
  | some t => pure t
  | none => throw .unexpectedEnd

def unread : CompilingFrom τ σ Unit := fun s =>
  match TokenSource.unread s.tokens with
  | .ok _ tokens => .ok () { s with tokens := tokens }
  | .error e tokens => .error (.token e) { s with tokens := tokens }

/-- Tells the source of the tokens that a term starts with this one. -/
def beginTerm (t : Token) : CompilingFrom τ σ Unit := fun s =>
  .ok () { s with tokens := TokenSource.beginTerm t s.tokens }

end Tokens

variable {τ σ : Type}

def put [CodeSink σ] (i : Instruction) : CompilingFrom τ σ Unit := fun s =>
  match CodeSink.put? s.sink i with
  | some sink => .ok () { s with sink := sink }
  | none => .error .refused s

def pushVariable [CodeSink σ] (v : Variable) : CompilingFrom τ σ Unit :=
  put (.push v.segment v.index)

def popVariable [CodeSink σ] (v : Variable) : CompilingFrom τ σ Unit :=
  put (.pop v.segment v.index)

def names : CompilingFrom τ σ Declarations := fun s =>
  .ok s.names s

def setNames (d : Declarations) : CompilingFrom τ σ Unit := fun s =>
  .ok () { s with names := d }

def className : CompilingFrom τ σ String := fun s =>
  .ok s.className s

def setClassName (name : String) : CompilingFrom τ σ Unit := fun s =>
  .ok () { s with className := name }

/-- The subroutine being read, none outside of one. -/
def currentRoutine : CompilingFrom τ σ (Option Routine) := fun s =>
  .ok s.routine s

def setRoutine (r? : Option Routine) : CompilingFrom τ σ Unit := fun s =>
  .ok () { s with routine := r? }

/-- A new label for the class and the subroutine being read. -/
def freshLabel (purpose : String) : CompilingFrom τ σ Label := fun s =>
  let subroutine := (s.routine.map Routine.name).getD ""
  let (label, labels) := s.labels.fresh s.className subroutine purpose
  .ok label { s with labels := labels }

def nameOf (t : Token) : CompilingFrom τ σ String :=
  match t.lexeme.name? with
  | some name => pure name
  | none => throw (.unexpected t .identifier)

/-- The text of a type, which is one of three words or the name of a class. -/
def typeOf (t : Token) : CompilingFrom τ σ String :=
  match t.lexeme with
  | .keyword .kwInt | .keyword .kwChar | .keyword .kwBoolean | .identifier _ => pure t.lexeme.text
  | _ => throw (.unexpected t .type)

def checkReturnType (t : Token) : CompilingFrom τ σ Unit :=
  match t.lexeme with
  | .keyword .kwInt | .keyword .kwChar | .keyword .kwBoolean | .keyword .kwVoid | .identifier _ =>
    pure ()
  | _ => throw (.unexpected t .typeOrVoid)

def expect (s : Symbol) (t : Token) : CompilingFrom τ σ Unit :=
  if t.isSymbol s then pure () else throw (.unexpected t (.tokens [.symbol s]))

def expectNext [TokenSource τ] (s : Symbol) : CompilingFrom τ σ Unit := do
  expect s (← next)

def variableOf (t : Token) : CompilingFrom τ σ Variable := do
  let name ← nameOf t
  match (← names).find? name with
  | some v => pure v
  | none => throw (.undeclared t.line name)

def declareName (t : Token) (typeName : String) (k : VariableKind) : CompilingFrom τ σ Unit := do
  let name ← nameOf t
  match (← names).declare name typeName k with
  | .ok d => setNames d
  | .error e => throw (.alreadyDeclared t.line e)

end Compiling

end JackVM
