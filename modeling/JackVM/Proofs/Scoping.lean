import JackVM.Proofs.Syntax

namespace JackVM

/-- Where a statement stands: in which class and subroutine, and which variables its names stand
for. -/
structure Scope where
  className : String
  routine : Routine
  find? : String → Option Variable

namespace Scope

def Declares (ρ : Scope) (name : String) : Prop :=
  (ρ.find? name).isSome

/-- Whether there is a current object. -/
def HasObject (ρ : Scope) : Prop :=
  ρ.routine.kind ≠ .function

instance (ρ : Scope) (name : String) : Decidable (ρ.Declares name) :=
  inferInstanceAs (Decidable ((ρ.find? name).isSome = true))

instance (ρ : Scope) : Decidable ρ.HasObject :=
  inferInstanceAs (Decidable (ρ.routine.kind ≠ .function))

end Scope

mutual

/-- Variables are declared, and only a method or a constructor has a current object. The qualifier
of a call may be any name. -/
def Term.Scoped (ρ : Scope) : Term → Prop
  | .constant _ => True
  | .this => ρ.HasObject
  | .variable x => ρ.Declares x
  | .element x i => ρ.Declares x ∧ i.Scoped ρ
  | .call q _ es => (q = none → ρ.HasObject) ∧ ArgumentsScoped ρ es
  | .parens e => e.Scoped ρ
  | .unary _ t => t.Scoped ρ

def Expression.Scoped (ρ : Scope) : Expression → Prop
  | .chain t rest => t.Scoped ρ ∧ OperationsScoped ρ rest

def OperationsScoped (ρ : Scope) : List (BinaryOperator × Term) → Prop
  | [] => True
  | (_, t) :: rest => t.Scoped ρ ∧ OperationsScoped ρ rest

def ArgumentsScoped (ρ : Scope) : List Expression → Prop
  | [] => True
  | e :: es => e.Scoped ρ ∧ ArgumentsScoped ρ es

end

mutual

/-- A statement must also give back a value exactly where its subroutine has a type. -/
def Statement.Scoped (ρ : Scope) : Statement → Prop
  | .assign x e => ρ.Declares x ∧ e.Scoped ρ
  | .assignElement x i e => ρ.Declares x ∧ i.Scoped ρ ∧ e.Scoped ρ
  | .branch c yes none => c.Scoped ρ ∧ StatementsScoped ρ yes
  | .branch c yes (some no) => c.Scoped ρ ∧ StatementsScoped ρ yes ∧ StatementsScoped ρ no
  | .loop c body => c.Scoped ρ ∧ StatementsScoped ρ body
  | .perform q _ es => (q = none → ρ.HasObject) ∧ ArgumentsScoped ρ es
  | .giveBack none => ρ.routine.returnsVoid = true
  | .giveBack (some e) => ρ.routine.returnsVoid = false ∧ e.Scoped ρ

def StatementsScoped (ρ : Scope) : List Statement → Prop
  | [] => True
  | s :: ss => s.Scoped ρ ∧ StatementsScoped ρ ss

end

structure Declaration where
  kind : VariableKind
  typeName : String
  name : String
  deriving DecidableEq, Repr

/-- The variables of declarations in order. Each kind is counted on from the places already taken. -/
def numbered (taken : VariableKind → Nat) : List Declaration → List Variable
  | [] => []
  | x :: xs =>
    ⟨x.name, x.kind, x.typeName, taken x.kind⟩ ::
      numbered (fun k => if k = x.kind then taken k + 1 else taken k) xs

namespace NameGroup

def declarations (g : NameGroup) (k : VariableKind) : List Declaration :=
  g.names.map fun name => ⟨k, g.type.lexeme.text, name⟩

end NameGroup

def Parameter.declaration (p : Parameter) : Declaration :=
  ⟨.argument, p.type.lexeme.text, p.name⟩

@[simp] theorem Parameter.kind_declaration (p : Parameter) : p.declaration.kind = .argument := rfl

namespace RoutineTree

def declarations (r : RoutineTree) : List Declaration :=
  r.parameters.map Parameter.declaration ++ r.locals.flatMap fun g => g.declarations .localVar

/-- The arguments of a method start after its object. -/
def places (r : RoutineTree) (k : VariableKind) : Nat :=
  if r.kind = .method ∧ k = .argument then 1 else 0

def ownVariables (r : RoutineTree) : List Variable :=
  numbered r.places r.declarations

/-- How many places a subroutine needs for its own variables. -/
def frameSize (r : RoutineTree) : Nat :=
  (r.locals.flatMap NameGroup.names).length

end RoutineTree

namespace ClassHead

def declarations (c : ClassHead) : List Declaration :=
  c.variableGroups.flatMap fun v => v.group.declarations v.kind

def classVariables (c : ClassHead) : List Variable :=
  numbered (fun _ => 0) c.declarations

/-- How many places an object of the class needs. -/
def objectSize (c : ClassHead) : Nat :=
  ((c.variableGroups.filter ClassVariables.isField).flatMap fun v => v.group.names).length

/-- A subroutine's own variables come before those of the class. -/
def scope (c : ClassHead) (r : RoutineTree) : Scope where
  className := c.name
  routine := ⟨r.name, r.kind, r.returned.isNone⟩
  find? name := (r.ownVariables ++ c.classVariables).find? fun v => v.name = name

/-- A subroutine declares each name once, and its statements keep to the rules of their scope. -/
structure Admits (c : ClassHead) (r : RoutineTree) : Prop where
  names : (r.declarations.map Declaration.name).Nodup
  body : StatementsScoped (c.scope r) r.body

end ClassHead

namespace ClassTree

/-- The class declares each name of its own once, and its subroutines keep to the rules. -/
structure Valid (c : ClassTree) : Prop where
  names : (c.declarations.map Declaration.name).Nodup
  routines : ∀ r ∈ c.routines, c.Admits r

end ClassTree

end JackVM
