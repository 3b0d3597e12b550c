import JackVM.ExpressionCode

namespace JackVM

/-- The operators between two terms. -/
inductive BinaryOperator where
  | add
  | subtract
  | multiply
  | divide
  | and
  | or
  | less
  | greater
  | equal
  deriving DecidableEq, Repr

namespace BinaryOperator

def symbol : BinaryOperator → Symbol
  | add => .plus
  | subtract => .minus
  | multiply => .star
  | divide => .slash
  | and => .ampersand
  | or => .bar
  | less => .less
  | greater => .greater
  | equal => .equal

/-- The machine has no instruction to multiply or divide. -/
def instruction : BinaryOperator → Instruction
  | add => .op .add
  | subtract => .op .sub
  | multiply => .call "Math.multiply" 2
  | divide => .call "Math.divide" 2
  | and => .op .and
  | or => .op .or
  | less => .op .lt
  | greater => .op .gt
  | equal => .op .eq

end BinaryOperator

/-- The operators before a term. -/
inductive UnaryOperator where
  | negate
  | complement
  deriving DecidableEq, Repr

namespace UnaryOperator

def symbol : UnaryOperator → Symbol
  | negate => .minus
  | complement => .tilde

def operation : UnaryOperator → StackOp
  | negate => .neg
  | complement => .not

end UnaryOperator

/-- The terms of one token that name no variable and no object. -/
inductive Constant where
  | integer (digits : String)
  | string (text : String)
  | true
  | false
  | null
  deriving DecidableEq, Repr

def Constant.lexeme : Constant → Lexeme
  | integer digits => .integer digits
  | string text => .string text
  | true => .keyword .kwTrue
  | false => .keyword .kwFalse
  | null => .keyword .kwNull

mutual

/-- An operand of an expression. A call without a qualifier is one of the current object. -/
inductive Term where
  | constant (value : Constant)
  | this
  | variable (name : String)
  | element (name : String) (index : Expression)
  | call (qualifier : Option String) (name : String) (arguments : List Expression)
  | parens (inner : Expression)
  | unary (op : UnaryOperator) (operand : Term)

/-- A term and the operators and terms after it. -/
inductive Expression where
  | chain (first : Term) (rest : List (BinaryOperator × Term))

end

/-- The tokens of a call up to its opening parenthesis. -/
def calleeLexemes (qualifier : Option String) (name : String) : List Lexeme :=
  match qualifier with
  | none => [.identifier name, .symbol .openParen]
  | some q => [.identifier q, .symbol .dot, .identifier name, .symbol .openParen]

mutual

def Term.lexemes : Term → List Lexeme
  | .constant c => [c.lexeme]
  | .this => [.keyword .kwThis]
  | .variable x => [.identifier x]
  | .element x i =>
    .identifier x :: .symbol .openBracket :: (i.lexemes ++ [.symbol .closeBracket])
  | .call q f es => calleeLexemes q f ++ (argumentLexemes es ++ [.symbol .closeParen])
  | .parens e => .symbol .openParen :: (e.lexemes ++ [.symbol .closeParen])
  | .unary op t => .symbol op.symbol :: t.lexemes

def Expression.lexemes : Expression → List Lexeme
  | .chain t rest => t.lexemes ++ operationLexemes rest

def operationLexemes : List (BinaryOperator × Term) → List Lexeme
  | [] => []
  | (op, t) :: rest => .symbol op.symbol :: (t.lexemes ++ operationLexemes rest)

def argumentLexemes : List Expression → List Lexeme
  | [] => []
  | e :: es => e.lexemes ++ moreArgumentLexemes es

/-- The arguments after the first, each with its comma. -/
def moreArgumentLexemes : List Expression → List Lexeme
  | [] => []
  | e :: es => .symbol .comma :: (e.lexemes ++ moreArgumentLexemes es)

end

def callLexemes (qualifier : Option String) (name : String) (arguments : List Expression) :
    List Lexeme :=
  calleeLexemes qualifier name ++ (argumentLexemes arguments ++ [.symbol .closeParen])

inductive Statement where
  | assign (name : String) (value : Expression)
  | assignElement (name : String) (index value : Expression)
  | branch (condition : Expression) (yes : List Statement) (no : Option (List Statement))
  | loop (condition : Expression) (body : List Statement)
  | perform (qualifier : Option String) (name : String) (arguments : List Expression)
  | giveBack (value : Option Expression)

def braced (xs : List Lexeme) : List Lexeme :=
  .symbol .openBrace :: (xs ++ [.symbol .closeBrace])

mutual

def Statement.lexemes : Statement → List Lexeme
  | .assign x e =>
    .keyword .kwLet :: .identifier x :: .symbol .equal :: (e.lexemes ++ [.symbol .semicolon])
  | .assignElement x i e =>
    .keyword .kwLet :: .identifier x :: .symbol .openBracket ::
      (i.lexemes ++ .symbol .closeBracket :: .symbol .equal :: (e.lexemes ++ [.symbol .semicolon]))
  | .branch c yes none =>
    .keyword .kwIf :: .symbol .openParen ::
      (c.lexemes ++ .symbol .closeParen :: braced (statementLexemes yes))
  | .branch c yes (some no) =>
    .keyword .kwIf :: .symbol .openParen ::
      (c.lexemes ++ .symbol .closeParen ::
        (braced (statementLexemes yes) ++ .keyword .kwElse :: braced (statementLexemes no)))
  | .loop c body =>
    .keyword .kwWhile :: .symbol .openParen ::
      (c.lexemes ++ .symbol .closeParen :: braced (statementLexemes body))
  | .perform q f es => .keyword .kwDo :: (callLexemes q f es ++ [.symbol .semicolon])
  | .giveBack none => [.keyword .kwReturn, .symbol .semicolon]
  | .giveBack (some e) => .keyword .kwReturn :: (e.lexemes ++ [.symbol .semicolon])

def statementLexemes : List Statement → List Lexeme
  | [] => []
  | s :: ss => s.lexemes ++ statementLexemes ss

end

inductive TypeName where
  | int
  | char
  | boolean
  | ofClass (name : String)
  deriving DecidableEq, Repr

def TypeName.lexeme : TypeName → Lexeme
  | int => .keyword .kwInt
  | char => .keyword .kwChar
  | boolean => .keyword .kwBoolean
  | ofClass name => .identifier name

structure NameGroup where
  type : TypeName
  first : String
  others : List String
  deriving DecidableEq, Repr

/-- The tokens of names with commas between them, up to the semicolon. -/
def nameLexemes (first : String) : List String → List Lexeme
  | [] => [.identifier first, .symbol .semicolon]
  | x :: xs => .identifier first :: .symbol .comma :: nameLexemes x xs

namespace NameGroup

def names (g : NameGroup) : List String :=
  g.first :: g.others

def lexemes (g : NameGroup) : List Lexeme :=
  g.type.lexeme :: nameLexemes g.first g.others

end NameGroup

structure Parameter where
  type : TypeName
  name : String
  deriving DecidableEq, Repr

namespace Parameter

def lexemes (p : Parameter) : List Lexeme :=
  [p.type.lexeme, .identifier p.name]

end Parameter

def parameterLexemes : List Parameter → List Lexeme
  | [] => []
  | [p] => p.lexemes
  | p :: q :: ps => p.lexemes ++ .symbol .comma :: parameterLexemes (q :: ps)

/-- A subroutine, which gives nothing back if it has no type. -/
structure RoutineTree where
  kind : RoutineKind
  returned : Option TypeName
  name : String
  parameters : List Parameter
  locals : List NameGroup
  body : List Statement

def RoutineKind.lexeme : RoutineKind → Lexeme
  | constructor => .keyword .kwConstructor
  | function => .keyword .kwFunction
  | method => .keyword .kwMethod

/-- The type that a subroutine gives back. -/
def returnedLexeme : Option TypeName → Lexeme
  | none => .keyword .kwVoid
  | some type => type.lexeme

namespace RoutineTree

def lexemes (r : RoutineTree) : List Lexeme :=
  r.kind.lexeme :: returnedLexeme r.returned :: .identifier r.name :: .symbol .openParen ::
    (parameterLexemes r.parameters ++ .symbol .closeParen ::
      braced (r.locals.flatMap (fun g => .keyword .kwVar :: g.lexemes) ++ statementLexemes r.body))

end RoutineTree

structure ClassVariables where
  isField : Bool
  group : NameGroup
  deriving DecidableEq, Repr

namespace ClassVariables

def kind (v : ClassVariables) : VariableKind :=
  if v.isField then .field else .staticVar

def lexemes (v : ClassVariables) : List Lexeme :=
  .keyword (if v.isField then .kwField else .kwStatic) :: v.group.lexemes

end ClassVariables

/-- The part of a class that its subroutines depend on. -/
structure ClassHead where
  name : String
  variableGroups : List ClassVariables
  deriving DecidableEq, Repr

structure ClassTree extends ClassHead where
  routines : List RoutineTree

namespace ClassTree

def lexemes (c : ClassTree) : List Lexeme :=
  .keyword .kwClass :: .identifier c.name ::
    braced (c.variableGroups.flatMap ClassVariables.lexemes ++ c.routines.flatMap RoutineTree.lexemes)

end ClassTree

end JackVM
