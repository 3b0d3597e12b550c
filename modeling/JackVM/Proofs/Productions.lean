import JackVM.Proofs.Actions

namespace JackVM

theorem isPlain_binaryInstruction? {x : Lexeme} {i : Instruction}
    (h : binaryInstruction? x = some i) : i.isPlain = true := by
  unfold binaryInstruction? at h
  split at h <;> cases h <;> rfl

section Expressions

variable {σ : Type} [CodeSink σ] {T : Token → Prop} {owed : List Nat}

theorem acts_pushThis {line : Nat} :
    Acts T owed (Compiling.pushThis line : Compiling σ Unit) owed fun _ => True := by
  unfold Compiling.pushThis
  refine Acts.currentRoutine.bind fun r? _ => ?_
  split
  · exact .put fun d => .plain rfl
  · exact .put fun d => .plain rfl
  · exact .throw (by simp)
  · exact .throw (by simp)

theorem acts_pushObject {line : Nat} {name : String} :
    Acts T owed (Compiling.pushObject line name : Compiling σ Unit) owed fun _ => True := by
  unfold Compiling.pushObject
  refine Acts.currentRoutine.bind fun r? _ => ?_
  split
  · exact .put fun d => .plain rfl
  · exact .put fun d => .plain rfl
  · exact .throw (by simp)

theorem acts_callee {t : Token} :
    Acts T owed (Compiling.callee t : Compiling σ (String × Nat)) owed fun _ => True := by
  unfold Compiling.callee
  refine Acts.nameOf.bind fun name _ => .next_then fun u _ => ?_
  split
  · refine .next_then fun v _ => Acts.nameOf.bind fun member _ => ?_
    refine Acts.expectNext.bind fun _ _ => Acts.names.bind fun d _ => ?_
    split
    · exact Acts.pushVariable.bind fun _ _ => .pure trivial
    · exact .pure trivial
  · exact acts_pushObject.bind fun _ _ => Acts.className.bind fun object _ => .pure trivial
  · exact .throw (by simp)

/-- All that is read of expressions up to a depth of recursion is done by acts. -/
structure ActsOnExpressions (σ : Type) [CodeSink σ] (T : Token → Prop) (fuel : Nat) :
    Prop where
  expression {owed : List Nat} {t : Token} : T t →
    Acts T owed (Compiling.expression fuel t : Compiling σ Token) owed T
  operators {owed : List Nat} {t : Token} : T t →
    Acts T owed (Compiling.operators fuel t : Compiling σ Token) owed T
  term {owed : List Nat} {t : Token} : T t →
    Acts T owed (Compiling.term fuel t : Compiling σ Token) owed T
  call {owed : List Nat} {t : Token} :
    Acts T owed (Compiling.call fuel t : Compiling σ Token) owed T
  arguments {owed : List Nat} :
    Acts T owed (Compiling.arguments fuel : Compiling σ (Nat × Token)) owed fun p => T p.2
  moreArguments {owed : List Nat} {n : Nat} {t : Token} : T t →
    Acts T owed (Compiling.moreArguments fuel n t : Compiling σ (Nat × Token)) owed
      fun p => T p.2

namespace ActsOnExpressions

variable {fuel : Nat} {t : Token} (ih : ActsOnExpressions σ T fuel)

include ih

theorem expression_succ (ht : T t) :
    Acts T owed (Compiling.expression (fuel + 1) t : Compiling σ Token) owed T := by
  unfold Compiling.expression
  exact (ih.term ht).bind fun u hu => ih.operators hu

theorem operators_succ (ht : T t) :
    Acts T owed (Compiling.operators (fuel + 1) t : Compiling σ Token) owed T := by
  unfold Compiling.operators
  split
  next => exact .pure ht
  next i hi =>
    refine .next_then fun u hu => (ih.term hu).bind fun v hv => ?_
    exact .plain_then (isPlain_binaryInstruction? hi) (ih.operators hv)

theorem unary_acts {i : Instruction} (hi : i.isPlain = true) :
    Acts T owed (do
      let t ← Compiling.next
      let t ← Compiling.term fuel t
      Compiling.put i
      pure t : Compiling σ Token) owed T :=
  .next_then fun _ hu => (ih.term hu).bind fun _ hv => .plain_then hi (.pure hv)

theorem element_acts :
    Acts T owed (do
      Compiling.pushVariable (← Compiling.variableOf t)
      let t ← Compiling.next
      let t ← Compiling.expression fuel t
      Compiling.expect .closeBracket t
      Compiling.put (.op .add)
      Compiling.put (.pop .pointer 1)
      Compiling.put (.push .that 0)
      Compiling.next : Compiling σ Token) owed T := by
  refine Acts.variableOf.bind fun v _ => Acts.pushVariable.bind fun _ _ => ?_
  refine .next_then fun u hu => (ih.expression hu).bind fun w _ => Acts.expect.bind fun _ _ => ?_
  exact .plain_then rfl (.plain_then rfl (.plain_then rfl .next))

theorem term_succ (ht : T t) :
    Acts T owed (Compiling.term (fuel + 1) t : Compiling σ Token) owed T := by
  unfold Compiling.term
  refine Acts.beginTerm.bind fun _ _ => ?_
  split
  next digits hl => exact .put_then (fun d => .integer ht hl) .next
  next text hl =>
    refine Acts.bind (.putAll fun i hi d => .string ht hl hi) fun _ _ => .next
  next => exact .put_then (fun d => .fixed (Nat.le_refl 1)) (.plain_then rfl .next)
  next => exact .put_then (fun d => .fixed (Nat.zero_le 1)) .next
  next => exact .put_then (fun d => .fixed (Nat.zero_le 1)) .next
  next => exact acts_pushThis.bind fun _ _ => .next
  next =>
    refine .next_then fun u hu => (ih.expression hu).bind fun v _ => ?_
    exact Acts.expect.bind fun _ _ => .next
  next => exact ih.unary_acts rfl
  next => exact ih.unary_acts rfl
  next =>
    refine .next_then fun after hafter => ?_
    split
    next => exact ih.element_acts
    next => exact Acts.unread.bind fun _ _ => ih.call
    next => exact Acts.unread.bind fun _ _ => ih.call
    next =>
      refine Acts.variableOf.bind fun v _ => Acts.pushVariable.bind fun _ _ => ?_
      exact .pure hafter
  next => exact .throw (by simp)

theorem call_succ : Acts T owed (Compiling.call (fuel + 1) t : Compiling σ Token) owed T := by
  unfold Compiling.call
  refine acts_callee.bind fun p _ => ih.arguments.bind fun q _ => ?_
  exact Acts.expect.bind fun _ _ => .plain_then rfl .next

theorem arguments_succ :
    Acts T owed (Compiling.arguments (fuel + 1) : Compiling σ (Nat × Token)) owed
      fun p => T p.2 := by
  unfold Compiling.arguments
  refine .next_then fun t ht => ?_
  split
  · exact .pure ht
  · exact (ih.expression ht).bind fun u hu => ih.moreArguments hu

theorem moreArguments_succ {n : Nat} (ht : T t) :
    Acts T owed (Compiling.moreArguments (fuel + 1) n t : Compiling σ (Nat × Token)) owed
      fun p => T p.2 := by
  unfold Compiling.moreArguments
  split
  · refine .next_then fun u hu => (ih.expression hu).bind fun v hv => ih.moreArguments hv
  · exact .pure ht

end ActsOnExpressions

theorem actsOnExpressions (fuel : Nat) : ActsOnExpressions σ T fuel := by
  induction fuel with
  | zero =>
    constructor
    case expression | operators | term | moreArguments =>
      intros
      exact .throw (by simp)
    case call | arguments => exact .throw (by simp)
  | succ fuel ih =>
    exact ⟨ih.expression_succ, ih.operators_succ, ih.term_succ, ih.call_succ, ih.arguments_succ,
      ih.moreArguments_succ⟩

end Expressions

section Statements

variable {σ : Type} [CodeSink σ] {T : Token → Prop} {owed : List Nat} {fuel : Nat}

theorem acts_expectBlockEnd {t : Token} :
    Acts T owed (Compiling.expectBlockEnd t : Compiling σ Unit) owed fun _ => True := by
  unfold Compiling.expectBlockEnd
  split
  · exact .pure trivial
  · exact .throw (by simp)

theorem acts_letStatement :
    Acts T owed (Compiling.letStatement fuel : Compiling σ Token) owed T := by
  have hexpression := actsOnExpressions (σ := σ) (T := T) fuel
  unfold Compiling.letStatement
  refine .next_then fun _ _ => Acts.variableOf.bind fun target _ => .next_then fun t _ => ?_
  split
  next =>
    refine Acts.pushVariable.bind fun _ _ => .next_then fun i hi => ?_
    refine (hexpression.expression hi).bind fun _ _ => Acts.expect.bind fun _ _ => ?_
    refine .plain_then rfl (Acts.expectNext.bind fun _ _ => .next_then fun e he => ?_)
    refine (hexpression.expression he).bind fun _ _ => ?_
    refine .plain_then rfl (.plain_then rfl (.plain_then rfl (.plain_then rfl ?_)))
    exact Acts.expect.bind fun _ _ => .next
  next =>
    refine .next_then fun e he => (hexpression.expression he).bind fun _ _ => ?_
    exact Acts.popVariable.bind fun _ _ => Acts.expect.bind fun _ _ => .next
  next => exact .throw (by simp)

theorem acts_doStatement :
    Acts T owed (Compiling.doStatement fuel : Compiling σ Token) owed T := by
  unfold Compiling.doStatement
  refine .next_then fun t _ => Acts.nameOf.bind fun _ _ => ?_
  refine (actsOnExpressions fuel).call.bind fun _ _ => Acts.expect.bind fun _ _ => ?_
  exact .plain_then rfl .next

theorem acts_returnStatement {word : Token} :
    Acts T owed (Compiling.returnStatement fuel word : Compiling σ Token) owed T := by
  unfold Compiling.returnStatement
  refine Acts.currentRoutine.bind fun r? _ => ?_
  cases r? with
  | none => exact .throw (by simp)
  | some r =>
  refine .next_then fun t ht => ?_
  have hreturn : Acts T owed (do
      Compiling.put .ret
      Compiling.next : Compiling σ Token) owed T := .plain_then rfl .next
  split
  · split
    · exact .put_then (fun d => .fixed (Nat.zero_le 1)) hreturn
    · exact (Acts.throw (Q := fun _ => True) (by simp)).bind fun _ _ => hreturn
  · refine ((actsOnExpressions fuel).expression ht).bind fun _ _ => ?_
    exact Acts.expect.bind fun _ _ => hreturn

theorem acts_negatedCondition :
    Acts T owed (Compiling.negatedCondition fuel : Compiling σ Unit) owed fun _ => True := by
  unfold Compiling.negatedCondition
  refine Acts.expectNext.bind fun _ _ => .next_then fun t ht => ?_
  refine ((actsOnExpressions fuel).expression ht).bind fun _ _ => Acts.expect.bind fun _ _ => ?_
  exact .put fun d => .plain rfl

/-- The same for statements. -/
structure ActsOnStatements (σ : Type) [CodeSink σ] (T : Token → Prop) (fuel : Nat) :
    Prop where
  statements {owed : List Nat} {t : Token} : T t →
    Acts T owed (Compiling.statements fuel t : Compiling σ Token) owed T
  block {owed : List Nat} :
    Acts T owed (Compiling.block fuel : Compiling σ Token) owed T
  ifStatement {owed : List Nat} :
    Acts T owed (Compiling.ifStatement fuel : Compiling σ Token) owed T
  whileStatement {owed : List Nat} :
    Acts T owed (Compiling.whileStatement fuel : Compiling σ Token) owed T

namespace ActsOnStatements

variable (ih : ActsOnStatements σ T fuel)

include ih

theorem statements_succ {t : Token} (ht : T t) :
    Acts T owed (Compiling.statements (fuel + 1) t : Compiling σ Token) owed T := by
  unfold Compiling.statements
  split
  next => exact acts_letStatement.bind fun _ hu => ih.statements hu
  next => exact ih.ifStatement.bind fun _ hu => ih.statements hu
  next => exact ih.whileStatement.bind fun _ hu => ih.statements hu
  next => exact acts_doStatement.bind fun _ hu => ih.statements hu
  next => exact acts_returnStatement.bind fun _ hu => ih.statements hu
  next => exact .pure ht

theorem block_succ : Acts T owed (Compiling.block (fuel + 1) : Compiling σ Token) owed T := by
  unfold Compiling.block
  refine Acts.expectNext.bind fun _ _ => .next_then fun t ht => ?_
  exact (ih.statements ht).bind fun _ _ => acts_expectBlockEnd.bind fun _ _ => .next

/-- The label after the first block is owed while the block is read, and the one at the end is handed
out before the first has its place. -/
theorem ifStatement_succ :
    Acts T owed (Compiling.ifStatement (fuel + 1) : Compiling σ Token) owed T := by
  unfold Compiling.ifStatement
  refine acts_negatedCondition.bind fun _ _ => .freshLabel_then fun otherwise => ?_
  refine .plain_then rfl (ih.block.bind fun t ht => ?_)
  split
  · refine .freshLabel_then fun finish => .plain_then rfl ?_
    refine .put_then (fun d => .place (List.Perm.swap _ _ _)) (ih.block.bind fun u hu => ?_)
    exact .put_then (fun d => .place (.refl _)) (.pure hu)
  · exact .put_then (fun d => .place (.refl _)) (.pure ht)

theorem whileStatement_succ :
    Acts T owed (Compiling.whileStatement (fuel + 1) : Compiling σ Token) owed T := by
  unfold Compiling.whileStatement
  refine .freshLabel_then fun top => .freshLabel_then fun finish => ?_
  refine .put_then (fun d => .place (List.Perm.swap _ _ _)) ?_
  refine acts_negatedCondition.bind fun _ _ => .plain_then rfl (ih.block.bind fun t ht => ?_)
  exact .plain_then rfl (.put_then (fun d => .place (.refl _)) (.pure ht))

end ActsOnStatements

theorem actsOnStatements (fuel : Nat) : ActsOnStatements σ T fuel := by
  induction fuel with
  | zero =>
    constructor
    case statements =>
      intros
      exact .throw (by simp)
    case block | ifStatement | whileStatement => exact .throw (by simp)
  | succ fuel ih =>
    exact ⟨ih.statements_succ, ih.block_succ, ih.ifStatement_succ, ih.whileStatement_succ⟩

end Statements

section Classes

variable {σ : Type} [CodeSink σ] {T : Token → Prop} {owed : List Nat} {fuel : Nat}

theorem acts_typeOf {t : Token} :
    Acts T owed (Compiling.typeOf t : Compiling σ String) owed fun _ => True := by
  unfold Compiling.typeOf
  split
  case h_5 => exact .throw (by simp)
  all_goals exact .pure trivial

theorem acts_checkReturnType {t : Token} :
    Acts T owed (Compiling.checkReturnType t : Compiling σ Unit) owed fun _ => True := by
  unfold Compiling.checkReturnType
  split
  case h_6 => exact .throw (by simp)
  all_goals exact .pure trivial

theorem acts_nameList {typeName : String} {k : VariableKind} :
    Acts T owed (Compiling.nameList typeName k fuel : Compiling σ Token) owed T := by
  induction fuel with
  | zero => exact .throw (by simp)
  | succ fuel ih =>
    unfold Compiling.nameList
    refine .next_then fun _ _ => Acts.declareName.bind fun _ _ => .next_then fun _ _ => ?_
    split
    · exact ih
    · exact .next
    · exact .throw (by simp)

theorem acts_typedNames {k : VariableKind} :
    Acts T owed (Compiling.typedNames k fuel : Compiling σ Token) owed T := by
  unfold Compiling.typedNames
  exact .next_then fun _ _ => acts_typeOf.bind fun _ _ => acts_nameList

theorem acts_classVariables {t : Token} (ht : T t) :
    Acts T owed (Compiling.classVariables fuel t : Compiling σ Token) owed T := by
  induction fuel generalizing t with
  | zero => exact .throw (by simp)
  | succ fuel ih =>
    unfold Compiling.classVariables
    split
    · exact acts_typedNames.bind fun _ hu => ih hu
    · exact .pure ht

theorem acts_localVariables {t : Token} (ht : T t) :
    Acts T owed (Compiling.localVariables fuel t : Compiling σ Token) owed T := by
  induction fuel generalizing t with
  | zero => exact .throw (by simp)
  | succ fuel ih =>
    unfold Compiling.localVariables
    split
    · exact acts_typedNames.bind fun _ hu => ih hu
    · exact .pure ht

theorem acts_parameters {t : Token} :
    Acts T owed (Compiling.parameters fuel t : Compiling σ Token) owed T := by
  induction fuel generalizing t with
  | zero => exact .throw (by simp)
  | succ fuel ih =>
    unfold Compiling.parameters
    refine acts_typeOf.bind fun _ _ => .next_then fun _ _ => ?_
    refine Acts.declareName.bind fun _ _ => .next_then fun u hu => ?_
    split
    · exact .next_then fun _ _ => ih
    · exact .pure hu

theorem acts_parameterList :
    Acts T owed (Compiling.parameterList fuel : Compiling σ Unit) owed fun _ => True := by
  unfold Compiling.parameterList
  refine Acts.expectNext.bind fun _ _ => .next_then fun t ht => ?_
  dsimp only
  split
  · exact (Acts.pure ht).bind fun _ _ => .expect
  · exact acts_parameters.bind fun _ _ => .expect

theorem acts_routineBody {name : String} {kind : RoutineKind} :
    Acts T owed (Compiling.routineBody name kind fuel : Compiling σ Unit) owed fun _ => True := by
  unfold Compiling.routineBody
  refine Acts.expectNext.bind fun _ _ => .next_then fun t ht => ?_
  refine (acts_localVariables ht).bind fun u hu => .prologue_then ?_
  refine ((actsOnStatements fuel).statements hu).bind fun _ _ => ?_
  exact acts_expectBlockEnd

theorem acts_routine {kind : RoutineKind} :
    Acts T owed (Compiling.routine kind fuel : Compiling σ Token) owed T := by
  unfold Compiling.routine
  refine .next_then fun _ _ => acts_checkReturnType.bind fun _ _ => .next_then fun _ _ => ?_
  refine Acts.nameOf.bind fun _ _ => .enter_then (Acts.setRoutine.bind fun _ _ => ?_)
  refine acts_parameterList.bind fun _ _ => acts_routineBody.bind fun _ _ => ?_
  exact Acts.setRoutine.bind fun _ _ => .next

theorem acts_routines {t : Token} (ht : T t) :
    Acts T owed (Compiling.routines fuel t : Compiling σ Token) owed T := by
  induction fuel generalizing t with
  | zero => exact .throw (by simp)
  | succ fuel ih =>
    unfold Compiling.routines
    split
    · exact acts_routine.bind fun _ hu => ih hu
    · exact .pure ht

/-- What follows the name of a class. -/
theorem acts_members (fuel : Nat) :
    Acts T owed (do
      Compiling.expectNext .openBrace
      let t ← Compiling.next
      let t ← Compiling.classVariables fuel t
      let t ← Compiling.routines fuel t
      if t.isSymbol .closeBrace then Compiling.next?
      else throw (.unexpected t (.tokens afterMember)) : Compiling σ (Option Token))
      owed fun _ => True := by
  refine Acts.expectNext.bind fun _ _ => .next_then fun _ ht => ?_
  refine (acts_classVariables ht).bind fun _ hu => (acts_routines hu).bind fun _ _ => ?_
  split
  · exact Acts.next?.imp fun _ _ => trivial
  · exact .throw (by simp)

end Classes

section WholeSource

open Compiling

variable {σ α β : Type} [CodeSink σ] {T : Token → Prop} {s : Compilation σ}

/-- A part of compiling stops before a class is entered, or it enters one, where the names of any
class before are forgotten, and goes on by acts. -/
def EntersClass (T : Token → Prop) (x : Compiling σ α) (s : Compilation σ) : Prop :=
  (∃ e tokens, x s = .error e { s with tokens := tokens } ∧ e ≠ .refused) ∨
    ∃ (tokens : TokenStream) (name : String) (rest : Compiling σ α), tokens.Offers T ∧
      Acts T [] rest [] (fun _ => True) ∧
      x s = rest { s with tokens := tokens, className := name, names := s.names.enterClass }

theorem EntersClass.bind {x : Compiling σ α} {f : α → Compiling σ β} (hx : EntersClass T x s)
    (hf : ∀ a, Acts T [] (f a) [] fun _ => True) : EntersClass T (x >>= f) s := by
  rcases hx with ⟨e, tokens, h, he⟩ | ⟨tokens, name, rest, htokens, hrest, h⟩
  · exact .inl ⟨e, tokens, bind_of_error h, he⟩
  · exact .inr ⟨tokens, name, rest >>= f, htokens, hrest.bind fun a _ => hf a, bind_of_eq h⟩

theorem entersClass_next_then {f : Token → Compiling σ α} (hs : s.tokens.Offers T)
    (hf : ∀ t tokens, tokens.Offers T → EntersClass T (f t) { s with tokens := tokens }) :
    EntersClass T (next >>= f) s := by
  cases hnext : TokenSource.next s.tokens with
  | ok t? tokens =>
    have hrun : next? s = .ok t? { s with tokens := tokens } := by simp [next?, hnext]
    cases t? with
    | some t =>
      have h : next s = .ok t { s with tokens := tokens } := bind_of_ok hrun
      have hrest := hf t tokens (hs.next_ok hnext).1
      rwa [EntersClass, ← bind_of_ok (f := f) h] at hrest
    | none =>
      have h : next s = .error .unexpectedEnd { s with tokens := tokens } := bind_of_ok hrun
      exact .inl ⟨.unexpectedEnd, tokens, bind_of_error h, by simp⟩
  | error e tokens =>
    have hrun : next? s = .error (.token e) { s with tokens := tokens } := by simp [next?, hnext]
    have h : next s = .error (.token e) { s with tokens := tokens } := bind_of_error hrun
    exact .inl ⟨.token e, tokens, bind_of_error h, by simp⟩

theorem entersClass_classDeclaration (fuel : Nat) (t : Token) (hs : s.tokens.Offers T) :
    EntersClass T (classDeclaration fuel t) s := by
  unfold classDeclaration
  split
  · refine entersClass_next_then hs fun u tokens htokens => ?_
    cases hname : u.lexeme.name? with
    | some name =>
      simp only [nameOf, hname]
      exact .inr ⟨tokens, name, _, htokens, acts_members fuel, rfl⟩
    | none =>
      simp only [nameOf, hname]
      exact .inl ⟨.unexpected u .identifier, tokens, rfl, by simp⟩
  · exact .inl ⟨.unexpected t (.tokens [.keyword .kwClass]), s.tokens, rfl, by simp⟩

theorem entersClass_wholeSource (fuel : Nat) (hs : s.tokens.Offers T) :
    EntersClass T (wholeSource fuel) s := by
  unfold wholeSource
  refine entersClass_next_then hs fun t tokens htokens => ?_
  refine (entersClass_classDeclaration fuel t htokens).bind fun trailing => ?_
  split
  · exact .throw (by simp)
  · exact .pure trivial

/-- The acts of compiling the next class of a source, after its name. -/
theorem compileClass_run (hs : s.tokens.Offers T) :
    (∃ tokens, s.compileClass.2 = { s with tokens := tokens } ∧
      s.compileClass.1 ≠ .error .refused) ∨
    ∃ tokens name rest, tokens.Offers T ∧
      Run T ⟨{ s with tokens := tokens, className := name, names := s.names.enterClass }, []⟩
        ⟨s.compileClass.2, rest⟩ ∧
      (s.compileClass.1 = .error .refused → Progress.Refused T ⟨s.compileClass.2, rest⟩) := by
  unfold Compilation.compileClass
  rcases entersClass_wholeSource (TokenSource.depthBound s.tokens) hs with
    ⟨e, tokens, h, he⟩ | ⟨tokens, name, rest, htokens, hrest, h⟩
  · left
    rw [h]
    exact ⟨tokens, rfl, fun hrefused => he (Except.error.inj hrefused)⟩
  · right
    rw [h]
    cases hz : rest { s with tokens, className := name, names := s.names.enterClass } with
    | ok u after =>
      exact ⟨tokens, name, [], htokens, (hrest.ok htokens hz).1, by simp⟩
    | error e after =>
      obtain ⟨owed, hrun, hrefused⟩ := hrest.error htokens hz
      exact ⟨tokens, name, owed, htokens, hrun, fun h => hrefused (Except.error.inj h)⟩

end WholeSource

end JackVM
