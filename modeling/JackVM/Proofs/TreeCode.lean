import JackVM.ClassCode
import JackVM.Proofs.Scoping

namespace JackVM

def Constant.code : Constant → List Instruction
  | integer digits => [.push .constant (digitsValue digits.toList)]
  | string text => stringCode text
  | true => [.push .constant 1, .op .neg]
  | false | null => [.push .constant 0]

namespace Scope

def pushCode (ρ : Scope) (name : String) : List Instruction :=
  match ρ.find? name with
  | some v => [.push v.segment v.index]
  | none => []

def popCode (ρ : Scope) (name : String) : List Instruction :=
  match ρ.find? name with
  | some v => [.pop v.segment v.index]
  | none => []

/-- The current object of a method is its first argument, that of a constructor is new. -/
def thisCode (ρ : Scope) : List Instruction :=
  match ρ.routine.kind with
  | .method => [.push .argument 0]
  | .constructor => [.push .pointer 0]
  | .function => []

/-- The object that a call is made on. A qualifier that is no variable names a class. -/
def receiverCode (ρ : Scope) : Option String → List Instruction
  | none => [.push .pointer 0]
  | some q => ρ.pushCode q

/-- The full name of the subroutine that a call means. -/
def callee (ρ : Scope) (qualifier : Option String) (name : String) : String :=
  match qualifier with
  | none => s!"{ρ.className}.{name}"
  | some q =>
    match ρ.find? q with
    | some v => s!"{v.typeName}.{name}"
    | none => s!"{q}.{name}"

def label (ρ : Scope) (purpose : String) (number : Nat) : Label :=
  ⟨ρ.className, ρ.routine.name, purpose, number⟩

end Scope

mutual

def Term.code (ρ : Scope) : Term → List Instruction
  | .constant c => c.code
  | .this => ρ.thisCode
  | .variable x => ρ.pushCode x
  | .element x i => ρ.pushCode x ++ (i.code ρ ++ [.op .add, .pop .pointer 1, .push .that 0])
  | .call q f es =>
    ρ.receiverCode q ++
      (argumentCode ρ es ++ [.call (ρ.callee q f) (es.length + (ρ.receiverCode q).length)])
  | .parens e => e.code ρ
  | .unary op t => t.code ρ ++ [.op op.operation]

def Expression.code (ρ : Scope) : Expression → List Instruction
  | .chain t rest => t.code ρ ++ operationCode ρ rest

def operationCode (ρ : Scope) : List (BinaryOperator × Term) → List Instruction
  | [] => []
  | (op, t) :: rest => t.code ρ ++ op.instruction :: operationCode ρ rest

def argumentCode (ρ : Scope) : List Expression → List Instruction
  | [] => []
  | e :: es => e.code ρ ++ argumentCode ρ es

end

/-- The code of a call, of which the receiver counts as an argument. -/
def callCode (ρ : Scope) (qualifier : Option String) (name : String)
    (arguments : List Expression) : List Instruction :=
  ρ.receiverCode qualifier ++
    (argumentCode ρ arguments ++
      [.call (ρ.callee qualifier name) (arguments.length + (ρ.receiverCode qualifier).length)])

mutual

/-- How many labels a statement needs. -/
def Statement.labels : Statement → Nat
  | .branch _ yes none => 1 + labelCount yes
  | .branch _ yes (some no) => 2 + labelCount yes + labelCount no
  | .loop _ body => 2 + labelCount body
  | _ => 0

def labelCount : List Statement → Nat
  | [] => 0
  | s :: ss => s.labels + labelCount ss

end

/-- How many labels subroutines need. -/
def routineLabels : List RoutineTree → Nat
  | [] => 0
  | r :: rs => labelCount r.body + routineLabels rs

/-- Moves the value on the stack to the address below it. -/
def storeCode : List Instruction :=
  [.pop .temp 0, .pop .pointer 1, .push .temp 0, .pop .that 0]

mutual

/-- The code of a statement, with its labels numbered on from a number. A label gets its number
when it is first needed, which for the end of a branch is after its first block. -/
def Statement.code (ρ : Scope) : Statement → Nat → List Instruction
  | .assign x e, _ => e.code ρ ++ ρ.popCode x
  | .assignElement x i e, _ => ρ.pushCode x ++ (i.code ρ ++ .op .add :: (e.code ρ ++ storeCode))
  | .branch c yes none, n =>
    c.code ρ ++ .op .not :: .ifGoto (ρ.label "IF_FALSE" n) ::
      (statementCode ρ yes (n + 1) ++ [.label (ρ.label "IF_FALSE" n)])
  | .branch c yes (some no), n =>
    c.code ρ ++ .op .not :: .ifGoto (ρ.label "IF_FALSE" n) ::
      (statementCode ρ yes (n + 1) ++ .goto (ρ.label "IF_END" (n + 1 + labelCount yes)) ::
        .label (ρ.label "IF_FALSE" n) ::
          (statementCode ρ no (n + 1 + labelCount yes + 1) ++
            [.label (ρ.label "IF_END" (n + 1 + labelCount yes))]))
  | .loop c body, n =>
    .label (ρ.label "WHILE_TOP" n) :: (c.code ρ ++ .op .not ::
      .ifGoto (ρ.label "WHILE_END" (n + 1)) :: (statementCode ρ body (n + 2) ++
        [.goto (ρ.label "WHILE_TOP" n), .label (ρ.label "WHILE_END" (n + 1))]))
  | .perform q f es, _ => callCode ρ q f es ++ [.pop .temp 0]
  | .giveBack none, _ => [.push .constant 0, .ret]
  | .giveBack (some e), _ => e.code ρ ++ [.ret]

def statementCode (ρ : Scope) : List Statement → Nat → List Instruction
  | [], _ => []
  | s :: ss, n => s.code ρ n ++ statementCode ρ ss (n + s.labels)

end

namespace ClassHead

/-- The code of a subroutine after its header. -/
def bodyCode (c : ClassHead) (r : RoutineTree) (n : Nat) : List Instruction :=
  prologue r.kind c.objectSize ++ statementCode (c.scope r) r.body n

def routineCode (c : ClassHead) (r : RoutineTree) (n : Nat) : List Instruction :=
  .function s!"{c.name}.{r.name}" r.frameSize :: c.bodyCode r n

/-- The code of subroutines, with their labels numbered on from a number. -/
def routinesCode (c : ClassHead) : List RoutineTree → Nat → List Instruction
  | [], _ => []
  | r :: rs, n => c.routineCode r n ++ c.routinesCode rs (n + labelCount r.body)

end ClassHead

def ClassTree.code (c : ClassTree) : List Instruction :=
  c.routinesCode c.routines 0

end JackVM
