import JackVM.NameMap

namespace JackVM

inductive VariableKind where
  | staticVar
  | field
  | argument
  | localVar
  deriving DecidableEq, Repr

namespace VariableKind

def text : VariableKind → String
  | staticVar => "static"
  | field => "field"
  | argument => "argument"
  | localVar => "local"

/-- Whether variables of the kind belong to the class and not to one subroutine. -/
def isClassLevel : VariableKind → Bool
  | staticVar | field => true
  | argument | localVar => false

end VariableKind

structure Variable where
  name : String
  kind : VariableKind
  typeName : String
  /-- Its place among the variables of its kind. -/
  index : Nat
  deriving DecidableEq, Repr

/-- A name was declared before at the same level. -/
structure AlreadyDeclared where
  name : String
  /-- The kind of the earlier declaration. -/
  kind : VariableKind
  deriving DecidableEq, Repr

def AlreadyDeclared.message (e : AlreadyDeclared) : String :=
  s!"`{e.name}` is already declared as {e.kind.text} in this scope"

/-- The next index of each kind of variables. -/
structure Counters where
  statics : Nat
  fields : Nat
  arguments : Nat
  locals : Nat
  deriving DecidableEq, Repr

namespace Counters

def zero : Counters :=
  ⟨0, 0, 0, 0⟩

def get (c : Counters) : VariableKind → Nat
  | .staticVar => c.statics
  | .field => c.fields
  | .argument => c.arguments
  | .localVar => c.locals

/-- Goes on to the next index of a kind. -/
def advance (c : Counters) : VariableKind → Counters
  | .staticVar => { c with statics := c.statics + 1 }
  | .field => { c with fields := c.fields + 1 }
  | .argument => { c with arguments := c.arguments + 1 }
  | .localVar => { c with locals := c.locals + 1 }

/-- Starts a subroutine's own variables again. The receiver of a method takes the first argument. -/
def restart (c : Counters) (isMethod : Bool) : Counters :=
  { c with arguments := if isMethod then 1 else 0, locals := 0 }

@[simp] theorem get_zero (k : VariableKind) : zero.get k = 0 := by
  cases k <;> rfl

theorem get_advance (c : Counters) (j k : VariableKind) :
    (c.advance j).get k = if k = j then c.get k + 1 else c.get k := by
  cases j <;> cases k <;> rfl

theorem get_restart (c : Counters) (isMethod : Bool) (k : VariableKind) :
    (c.restart isMethod).get k = if k.isClassLevel then c.get k
      else if k = .argument ∧ isMethod then 1 else 0 := by
  cases k <;> cases isMethod <;> rfl

end Counters

/-- The variables in sight, of the class and of the subroutine being read, each under its name, and
the indices for the next ones. -/
structure Declarations where
  ofClass : NameMap Variable
  ofSubroutine : NameMap Variable
  counters : Counters
  deriving DecidableEq, Repr

namespace Declarations

def empty : Declarations :=
  ⟨.empty, .empty, .zero⟩

instance : Inhabited Declarations := ⟨empty⟩

/-- Starts a class, where no name is known. -/
def enterClass (_ : Declarations) : Declarations :=
  empty

/-- Starts a subroutine, which has no variables of its own yet. -/
def enterSubroutine (d : Declarations) (isMethod : Bool) : Declarations :=
  { d with ofSubroutine := .empty, counters := d.counters.restart isMethod }

/-- The variables at the level of a kind. -/
def level (d : Declarations) (k : VariableKind) : NameMap Variable :=
  if k.isClassLevel then d.ofClass else d.ofSubroutine

/-- The index that the next variable of a kind gets. -/
def count (d : Declarations) (k : VariableKind) : Nat :=
  d.counters.get k

/-- Puts a variable of a kind at its level under a name, with the next index. -/
def insert (d : Declarations) (name typeName : String) (k : VariableKind) : Declarations :=
  let v : Variable := ⟨name, k, typeName, d.count k⟩
  let counters := d.counters.advance k
  if k.isClassLevel then ⟨d.ofClass.insert name v, d.ofSubroutine, counters⟩
  else ⟨d.ofClass, d.ofSubroutine.insert name v, counters⟩

/-- Declares a name, which must be new at the level of its kind. -/
def declare (d : Declarations) (name typeName : String) (k : VariableKind) :
    Except AlreadyDeclared Declarations :=
  match (d.level k).get? name with
  | some v => .error ⟨name, v.kind⟩
  | none => .ok (d.insert name typeName k)

/-- The variable that a name stands for. A subroutine's own names come before those of the class. -/
def find? (d : Declarations) (name : String) : Option Variable :=
  (d.ofSubroutine.get? name).or (d.ofClass.get? name)

def contains (d : Declarations) (name : String) : Bool :=
  (d.find? name).isSome

theorem level_insert (d : Declarations) (name typeName : String) (j k : VariableKind) :
    (d.insert name typeName j).level k = if j.isClassLevel = k.isClassLevel
      then (d.level k).insert name ⟨name, j, typeName, d.count j⟩ else d.level k := by
  unfold insert level
  cases j.isClassLevel <;> cases k.isClassLevel <;> rfl

/-- A new variable takes one index of its own kind and none of another. -/
theorem count_insert (d : Declarations) (name typeName : String) (j k : VariableKind) :
    (d.insert name typeName j).count k = if k = j then d.count k + 1 else d.count k := by
  unfold insert count
  split <;> exact d.counters.get_advance j k

theorem level_enterSubroutine (d : Declarations) (isMethod : Bool) (k : VariableKind) :
    (d.enterSubroutine isMethod).level k = if k.isClassLevel then d.level k else .empty := by
  cases k <;> rfl

theorem count_enterSubroutine (d : Declarations) (isMethod : Bool) (k : VariableKind) :
    (d.enterSubroutine isMethod).count k = if k.isClassLevel then d.count k
      else if k = .argument ∧ isMethod then 1 else 0 :=
  d.counters.get_restart isMethod k

end Declarations

end JackVM
