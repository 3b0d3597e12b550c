import JackVM.Declarations

namespace JackVM

inductive Segment where
  | constant
  | argument
  | localVar
  | staticVar
  | this
  | that
  | pointer
  | temp
  deriving DecidableEq, Repr

def Segment.text : Segment → String
  | constant => "constant"
  | argument => "argument"
  | localVar => "local"
  | staticVar => "static"
  | this => "this"
  | that => "that"
  | pointer => "pointer"
  | temp => "temp"

def VariableKind.segment : VariableKind → Segment
  | staticVar => .staticVar
  | field => .this
  | argument => .argument
  | localVar => .localVar

def Variable.segment (v : Variable) : Segment :=
  v.kind.segment

inductive StackOp where
  | add
  | sub
  | neg
  | and
  | or
  | not
  | eq
  | gt
  | lt
  deriving DecidableEq, Repr

def StackOp.text : StackOp → String
  | add => "add"
  | sub => "sub"
  | neg => "neg"
  | and => "and"
  | or => "or"
  | not => "not"
  | eq => "eq"
  | gt => "gt"
  | lt => "lt"

/-- A place to jump to: the subroutine it lies in, what it is for, and its number. -/
structure Label where
  className : String
  subroutine : String
  purpose : String
  number : Nat
  deriving DecidableEq, Repr

def Label.text (l : Label) : String :=
  s!"{l.className}.{l.subroutine}${l.purpose}${l.number}"

inductive Instruction where
  | push (segment : Segment) (index : Nat)
  | pop (segment : Segment) (index : Nat)
  | op (operation : StackOp)
  | label (place : Label)
  | goto (place : Label)
  | ifGoto (place : Label)
  | call (name : String) (arguments : Nat)
  | function (name : String) (locals : Nat)
  | ret
  deriving DecidableEq, Repr

/-- The line of code for an instruction, without its line end. -/
def Instruction.text : Instruction → String
  | push segment index => s!"push {segment.text} {index}"
  | pop segment index => s!"pop {segment.text} {index}"
  | op operation => operation.text
  | label place => s!"label {place.text}"
  | goto place => s!"goto {place.text}"
  | ifGoto place => s!"if-goto {place.text}"
  | call name arguments => s!"call {name} {arguments}"
  | function name locals => s!"function {name} {locals}"
  | ret => "return"

end JackVM
