import JackVM.CompileError
import JackVM.Proofs.Scoping
import JackVM.Proofs.Steps

namespace JackVM

/-- What a token has to keep to besides the grammar. -/
inductive Rule where
  | free
  /-- A name is declared, which must be new among the earlier ones of its level, latest first. -/
  | new (earlier : List Declaration)
  /-- A name must stand for a variable. -/
  | known (ρ : Scope)
  /-- There must be a current object, which is named here. -/
  | object (ρ : Scope)
  /-- There must be a current object, of which a subroutine is named here. -/
  | member (ρ : Scope)

namespace Rule

/-- The error for a token that breaks its rule. -/
def fault? (t : Token) : Rule → Option CompileError
  | free => none
  | new earlier =>
    (earlier.find? fun x => x.name = t.lexeme.text).map fun x =>
      .alreadyDeclared t.line ⟨t.lexeme.text, x.kind⟩
  | known ρ => if ρ.Declares t.lexeme.text then none else some (.undeclared t.line t.lexeme.text)
  | object ρ => if ρ.HasObject then none else some (.thisInFunction t.line none)
  | member ρ => if ρ.HasObject then none else some (.callInFunction t.line t.lexeme.text)

/-- A token keeps to its rule on whichever line it stands. -/
def IsKeptBy (x : Lexeme) : Rule → Prop
  | free => True
  | new earlier => ∀ y ∈ earlier, y.name ≠ x.text
  | known ρ => ρ.Declares x.text
  | object ρ | member ρ => ρ.HasObject

theorem fault?_eq_none_iff {t : Token} {rule : Rule} :
    rule.fault? t = none ↔ rule.IsKeptBy t.lexeme := by
  cases rule <;> simp [fault?, IsKeptBy]

end Rule

/-- A token of a tree with its rule. -/
structure Mark where
  lexeme : Lexeme
  rule : Rule

namespace Mark

def free (x : Lexeme) : Mark :=
  ⟨x, .free⟩

def IsKept (m : Mark) : Prop :=
  m.rule.IsKeptBy m.lexeme

@[simp] theorem lexeme_free (x : Lexeme) : (free x).lexeme = x := rfl

@[simp] theorem rule_free (x : Lexeme) : (free x).rule = .free := rfl

@[simp] theorem isKept_free (x : Lexeme) : (free x).IsKept := trivial

end Mark

/-- The name of a call without a qualifier is one of the current object's subroutines. A qualifier
may be any name. -/
def calleeMarks (ρ : Scope) (qualifier : Option String) (name : String) : List Mark :=
  match qualifier with
  | none => [⟨.identifier name, .member ρ⟩, .free (.symbol .openParen)]
  | some q =>
    [.free (.identifier q), .free (.symbol .dot), .free (.identifier name),
      .free (.symbol .openParen)]

mutual

def Term.marks (ρ : Scope) : Term → List Mark
  | .constant c => [.free c.lexeme]
  | .this => [⟨.keyword .kwThis, .object ρ⟩]
  | .variable x => [⟨.identifier x, .known ρ⟩]
  | .element x i =>
    ⟨.identifier x, .known ρ⟩ :: .free (.symbol .openBracket) ::
      (i.marks ρ ++ [.free (.symbol .closeBracket)])
  | .call q f es => calleeMarks ρ q f ++ (argumentMarks ρ es ++ [.free (.symbol .closeParen)])
  | .parens e => .free (.symbol .openParen) :: (e.marks ρ ++ [.free (.symbol .closeParen)])
  | .unary op t => .free (.symbol op.symbol) :: t.marks ρ

def Expression.marks (ρ : Scope) : Expression → List Mark
  | .chain t rest => t.marks ρ ++ operationMarks ρ rest

def operationMarks (ρ : Scope) : List (BinaryOperator × Term) → List Mark
  | [] => []
  | (op, t) :: rest => .free (.symbol op.symbol) :: (t.marks ρ ++ operationMarks ρ rest)

def argumentMarks (ρ : Scope) : List Expression → List Mark
  | [] => []
  | e :: es => e.marks ρ ++ moreArgumentMarks ρ es

def moreArgumentMarks (ρ : Scope) : List Expression → List Mark
  | [] => []
  | e :: es => .free (.symbol .comma) :: (e.marks ρ ++ moreArgumentMarks ρ es)

end

def callMarks (ρ : Scope) (qualifier : Option String) (name : String)
    (arguments : List Expression) : List Mark :=
  calleeMarks ρ qualifier name ++ (argumentMarks ρ arguments ++ [.free (.symbol .closeParen)])

def bracedMarks (ms : List Mark) : List Mark :=
  .free (.symbol .openBrace) :: (ms ++ [.free (.symbol .closeBrace)])

mutual

def Statement.marks (ρ : Scope) : Statement → List Mark
  | .assign x e =>
    .free (.keyword .kwLet) :: ⟨.identifier x, .known ρ⟩ :: .free (.symbol .equal) ::
      (e.marks ρ ++ [.free (.symbol .semicolon)])
  | .assignElement x i e =>
    .free (.keyword .kwLet) :: ⟨.identifier x, .known ρ⟩ :: .free (.symbol .openBracket) ::
      (i.marks ρ ++ .free (.symbol .closeBracket) :: .free (.symbol .equal) ::
        (e.marks ρ ++ [.free (.symbol .semicolon)]))
  | .branch c yes none =>
    .free (.keyword .kwIf) :: .free (.symbol .openParen) ::
      (c.marks ρ ++ .free (.symbol .closeParen) :: bracedMarks (statementMarks ρ yes))
  | .branch c yes (some no) =>
    .free (.keyword .kwIf) :: .free (.symbol .openParen) ::
      (c.marks ρ ++ .free (.symbol .closeParen) :: (bracedMarks (statementMarks ρ yes) ++
        .free (.keyword .kwElse) :: bracedMarks (statementMarks ρ no)))
  | .loop c body =>
    .free (.keyword .kwWhile) :: .free (.symbol .openParen) ::
      (c.marks ρ ++ .free (.symbol .closeParen) :: bracedMarks (statementMarks ρ body))
  | .perform q f es =>
    .free (.keyword .kwDo) :: (callMarks ρ q f es ++ [.free (.symbol .semicolon)])
  | .giveBack none => [.free (.keyword .kwReturn), .free (.symbol .semicolon)]
  | .giveBack (some e) =>
    .free (.keyword .kwReturn) :: (e.marks ρ ++ [.free (.symbol .semicolon)])

def statementMarks (ρ : Scope) : List Statement → List Mark
  | [] => []
  | s :: ss => s.marks ρ ++ statementMarks ρ ss

end

/-- Names with commas between them, each declared after those before it. -/
def nameMarks (k : VariableKind) (typeName : String) (earlier : List Declaration)
    (first : String) : List String → List Mark
  | [] => [⟨.identifier first, .new earlier⟩, .free (.symbol .semicolon)]
  | x :: xs =>
    ⟨.identifier first, .new earlier⟩ :: .free (.symbol .comma) ::
      nameMarks k typeName (⟨k, typeName, first⟩ :: earlier) x xs

def NameGroup.marks (k : VariableKind) (earlier : List Declaration) (g : NameGroup) : List Mark :=
  .free g.type.lexeme :: nameMarks k g.type.lexeme.text earlier g.first g.others

/-- Groups of names, each after the word that gives its kind. -/
def groupMarks (earlier : List Declaration) : List (Lexeme × VariableKind × NameGroup) → List Mark
  | [] => []
  | (word, k, g) :: gs =>
    .free word :: (g.marks k earlier ++ groupMarks ((g.declarations k).reverse ++ earlier) gs)

def parameterMarks (earlier : List Declaration) : List Parameter → List Mark
  | [] => []
  | [p] => [.free p.type.lexeme, ⟨.identifier p.name, .new earlier⟩]
  | p :: q :: ps =>
    .free p.type.lexeme :: ⟨.identifier p.name, .new earlier⟩ :: .free (.symbol .comma) ::
      parameterMarks (p.declaration :: earlier) (q :: ps)

def NameGroup.localEntry (g : NameGroup) : Lexeme × VariableKind × NameGroup :=
  (.keyword .kwVar, .localVar, g)

def ClassVariables.entry (v : ClassVariables) : Lexeme × VariableKind × NameGroup :=
  (.keyword (if v.isField then .kwField else .kwStatic), v.kind, v.group)

namespace RoutineTree

/-- A subroutine's own variables are one level, whether they are parameters or not. -/
def marks (c : ClassHead) (r : RoutineTree) : List Mark :=
  .free r.kind.lexeme :: .free (returnedLexeme r.returned) :: .free (.identifier r.name) ::
    .free (.symbol .openParen) :: (parameterMarks [] r.parameters ++ .free (.symbol .closeParen) ::
      bracedMarks (groupMarks (r.parameters.map Parameter.declaration).reverse
          (r.locals.map NameGroup.localEntry) ++
        statementMarks (c.scope r) r.body))

end RoutineTree

namespace ClassTree

def marks (c : ClassTree) : List Mark :=
  .free (.keyword .kwClass) :: .free (.identifier c.name) ::
    bracedMarks (groupMarks [] (c.variableGroups.map ClassVariables.entry) ++
      c.routines.flatMap (RoutineTree.marks c.toClassHead))

/-- The rules for the tokens of a class, in order. -/
def rules (c : ClassTree) : List Rule :=
  c.marks.map Mark.rule

end ClassTree

section Lexemes

@[simp] theorem lexemes_calleeMarks (ρ : Scope) (q : Option String) (f : String) :
    (calleeMarks ρ q f).map Mark.lexeme = calleeLexemes q f := by
  cases q <;> rfl

mutual

@[simp] theorem Term.lexemes_marks (ρ : Scope) : (e : Term) →
    (e.marks ρ).map Mark.lexeme = e.lexemes
  | .constant _ | .this | .variable _ => by simp [Term.marks, Term.lexemes]
  | .element _ i => by simp [Term.marks, Term.lexemes, i.lexemes_marks ρ]
  | .call _ _ es => by simp [Term.marks, Term.lexemes, lexemes_argumentMarks ρ es]
  | .parens e => by simp [Term.marks, Term.lexemes, e.lexemes_marks ρ]
  | .unary _ t => by simp [Term.marks, Term.lexemes, t.lexemes_marks ρ]

@[simp] theorem Expression.lexemes_marks (ρ : Scope) : (e : Expression) →
    (e.marks ρ).map Mark.lexeme = e.lexemes
  | .chain t rest => by
    simp [Expression.marks, Expression.lexemes, t.lexemes_marks ρ, lexemes_operationMarks ρ rest]

@[simp] theorem lexemes_operationMarks (ρ : Scope) : (ops : List (BinaryOperator × Term)) →
    (operationMarks ρ ops).map Mark.lexeme = operationLexemes ops
  | [] => rfl
  | (_, t) :: rest => by
    simp [operationMarks, operationLexemes, t.lexemes_marks ρ, lexemes_operationMarks ρ rest]

@[simp] theorem lexemes_argumentMarks (ρ : Scope) : (es : List Expression) →
    (argumentMarks ρ es).map Mark.lexeme = argumentLexemes es
  | [] => rfl
  | e :: es => by
    simp [argumentMarks, argumentLexemes, e.lexemes_marks ρ, lexemes_moreArgumentMarks ρ es]

@[simp] theorem lexemes_moreArgumentMarks (ρ : Scope) : (es : List Expression) →
    (moreArgumentMarks ρ es).map Mark.lexeme = moreArgumentLexemes es
  | [] => rfl
  | e :: es => by
    simp [moreArgumentMarks, moreArgumentLexemes, e.lexemes_marks ρ,
      lexemes_moreArgumentMarks ρ es]

end

@[simp] theorem lexemes_callMarks (ρ : Scope) (q : Option String) (f : String)
    (es : List Expression) : (callMarks ρ q f es).map Mark.lexeme = callLexemes q f es := by
  simp [callMarks, callLexemes]

@[simp] theorem lexemes_bracedMarks (ms : List Mark) :
    (bracedMarks ms).map Mark.lexeme = braced (ms.map Mark.lexeme) := by
  simp [bracedMarks, braced]

mutual

@[simp] theorem Statement.lexemes_marks (ρ : Scope) : (st : Statement) →
    (st.marks ρ).map Mark.lexeme = st.lexemes
  | .assign _ _ | .assignElement _ _ _ | .perform _ _ _ => by
    simp [Statement.marks, Statement.lexemes]
  | .branch _ yes none => by
    simp [Statement.marks, Statement.lexemes, lexemes_statementMarks ρ yes]
  | .branch _ yes (some no) => by
    simp [Statement.marks, Statement.lexemes, lexemes_statementMarks ρ yes,
      lexemes_statementMarks ρ no]
  | .loop _ body => by simp [Statement.marks, Statement.lexemes, lexemes_statementMarks ρ body]
  | .giveBack none | .giveBack (some _) => by simp [Statement.marks, Statement.lexemes]

@[simp] theorem lexemes_statementMarks (ρ : Scope) : (ss : List Statement) →
    (statementMarks ρ ss).map Mark.lexeme = statementLexemes ss
  | [] => rfl
  | st :: ss => by
    simp [statementMarks, statementLexemes, st.lexemes_marks ρ, lexemes_statementMarks ρ ss]

end

@[simp] theorem lexemes_nameMarks (k : VariableKind) (typeName : String)
    (earlier : List Declaration) (first : String) (xs : List String) :
    (nameMarks k typeName earlier first xs).map Mark.lexeme = nameLexemes first xs := by
  induction xs generalizing earlier first with
  | nil => rfl
  | cons x xs ih => simp [nameMarks, nameLexemes, ih]

@[simp] theorem NameGroup.lexemes_marks (k : VariableKind) (earlier : List Declaration)
    (g : NameGroup) : (g.marks k earlier).map Mark.lexeme = g.lexemes := by
  simp [NameGroup.marks, NameGroup.lexemes]

@[simp] theorem lexemes_groupMarks (earlier : List Declaration)
    (gs : List (Lexeme × VariableKind × NameGroup)) :
    (groupMarks earlier gs).map Mark.lexeme = gs.flatMap fun g => g.1 :: g.2.2.lexemes := by
  induction gs generalizing earlier with
  | nil => rfl
  | cons g gs ih => simp [groupMarks, ih]

@[simp] theorem lexemes_parameterMarks (earlier : List Declaration) (ps : List Parameter) :
    (parameterMarks earlier ps).map Mark.lexeme = parameterLexemes ps := by
  induction ps generalizing earlier with
  | nil => rfl
  | cons p ps ih =>
    cases ps with
    | nil => rfl
    | cons q ps => simp [parameterMarks, parameterLexemes, Parameter.lexemes, ih]

@[simp] theorem RoutineTree.lexemes_marks (c : ClassHead) (r : RoutineTree) :
    (r.marks c).map Mark.lexeme = r.lexemes := by
  simp [RoutineTree.marks, RoutineTree.lexemes, NameGroup.localEntry, List.flatMap_map]

@[simp] theorem ClassTree.lexemes_marks (c : ClassTree) :
    c.marks.map Mark.lexeme = c.lexemes := by
  simp only [ClassTree.marks, ClassTree.lexemes, List.map_cons, List.map_append,
    Mark.lexeme_free, lexemes_bracedMarks, lexemes_groupMarks, List.flatMap_map, List.map_flatMap,
    RoutineTree.lexemes_marks]
  rfl

/-- Each token of a class has a rule. -/
theorem ClassTree.length_rules (c : ClassTree) : c.rules.length = c.lexemes.length := by
  rw [← c.lexemes_marks, rules, List.length_map, List.length_map]

end Lexemes

end JackVM
