import JackVM.Proofs.LabelScopes

namespace JackVM

/-- Two ends of a step, with the same result and with states that are related. -/
inductive EndsAs {ε ρ ρ' α : Type} (R : ρ → ρ' → Prop) :
    EStateM.Result ε ρ α → EStateM.Result ε ρ' α → Prop
  | ok {a : α} {s : ρ} {s' : ρ'} : R s s' → EndsAs R (.ok a s) (.ok a s')
  | error {e : ε} {s : ρ} {s' : ρ'} : R s s' → EndsAs R (.error e s) (.error e s')

theorem EndsAs.refl {ε ρ α : Type} {R : ρ → ρ → Prop} (hR : ∀ s, R s s)
    (y : EStateM.Result ε ρ α) : EndsAs R y y := by
  cases y with
  | ok a s => exact .ok (hR s)
  | error e s => exact .error (hR s)

theorem EndsAs.imp {ε ρ ρ' α : Type} {R R' : ρ → ρ' → Prop} {y : EStateM.Result ε ρ α}
    {y' : EStateM.Result ε ρ' α} (h : EndsAs R y y') (hR : ∀ s s', R s s' → R' s s') :
    EndsAs R' y y' := by
  cases h with
  | ok hs => exact .ok (hR _ _ hs)
  | error hs => exact .error (hR _ _ hs)

variable {τ τ' σ α β : Type}

/-- From states that are related, two parts of compiling come to the same result, and to states that
are related again. -/
def Agree (R : Compilation σ τ → Compilation σ τ' → Prop) (x : CompilingFrom τ σ α)
    (x' : CompilingFrom τ' σ α) : Prop :=
  ∀ s s', R s s' → EndsAs R (x s) (x' s')

variable {R : Compilation σ τ → Compilation σ τ' → Prop}

namespace Agree

variable {x : CompilingFrom τ σ α} {x' : CompilingFrom τ' σ α} {f : α → CompilingFrom τ σ β}
  {f' : α → CompilingFrom τ' σ β}

theorem pure (a : α) : Agree R (Pure.pure a) (Pure.pure a) :=
  fun _ _ hs => .ok hs

theorem throw (e : CompileError) :
    Agree R (MonadExcept.throw e : CompilingFrom τ σ α) (MonadExcept.throw e) :=
  fun _ _ hs => .error hs

/-- With a result on the second side there is the same one on the first. -/
theorem exists_ok {s : Compilation σ τ} {s' after : Compilation σ τ'} {a : α} (hx : Agree R x x')
    (hs : R s s') (h : x' s' = .ok a after) : ∃ mid, x s = .ok a mid ∧ R mid after := by
  have hends := hx s s' hs
  rw [h] at hends
  generalize hy : x s = y at hends
  cases hends with
  | ok hmid => exact ⟨_, rfl, hmid⟩

theorem bind (hx : Agree R x x') (hf : ∀ a, Agree R (f a) (f' a)) :
    Agree R (x >>= f) (x' >>= f') := by
  intro s s' hs
  have hends := hx s s' hs
  generalize hy : x s = y at hends
  generalize hy' : x' s' = y' at hends
  cases hends with
  | ok hmid =>
    rw [Compiling.bind_of_ok hy, Compiling.bind_of_ok hy']
    exact hf _ _ _ hmid
  | error hmid =>
    rw [Compiling.bind_of_error hy, Compiling.bind_of_error hy']
    exact .error hmid

theorem next [TokenSource τ] [TokenSource τ'] (h : Agree R Compiling.next? Compiling.next?) :
    Agree R Compiling.next Compiling.next := by
  refine h.bind fun t? => ?_
  cases t? with
  | none => exact throw _
  | some t => exact pure t

theorem expect (c : Symbol) (t : Token) :
    Agree R (Compiling.expect c t) (Compiling.expect c t) := by
  unfold Compiling.expect
  split
  · exact pure ()
  · exact throw _

theorem expectBlockEnd (t : Token) :
    Agree R (Compiling.expectBlockEnd t) (Compiling.expectBlockEnd t) := by
  unfold Compiling.expectBlockEnd
  split
  · exact pure ()
  · exact throw _

theorem nameOf (t : Token) : Agree R (Compiling.nameOf t) (Compiling.nameOf t) := by
  unfold Compiling.nameOf
  split
  · exact pure _
  · exact throw _

theorem typeOf (t : Token) : Agree R (Compiling.typeOf t) (Compiling.typeOf t) := by
  unfold Compiling.typeOf
  split
  case h_5 => exact throw _
  all_goals exact pure _

theorem checkReturnType (t : Token) :
    Agree R (Compiling.checkReturnType t) (Compiling.checkReturnType t) := by
  unfold Compiling.checkReturnType
  split
  case h_6 => exact throw _
  all_goals exact pure _

end Agree

variable [TokenSource τ] [TokenSource τ']

/-- The steps that declarations are read by agree. -/
structure DeclaringAgrees (R : Compilation σ τ → Compilation σ τ' → Prop) : Prop where
  next? : Agree R Compiling.next? Compiling.next?
  names : Agree R Compiling.names Compiling.names
  setNames (d : Declarations) : Agree R (Compiling.setNames d) (Compiling.setNames d)

namespace DeclaringAgrees

variable (h : DeclaringAgrees R)

include h

theorem next : Agree R Compiling.next Compiling.next :=
  h.next?.next

theorem expectNext (c : Symbol) : Agree R (Compiling.expectNext c) (Compiling.expectNext c) :=
  h.next.bind fun t => .expect c t

theorem variableOf (t : Token) : Agree R (Compiling.variableOf t) (Compiling.variableOf t) := by
  refine (Agree.nameOf t).bind fun name => h.names.bind fun d => ?_
  split
  · exact .pure _
  · exact .throw _

theorem declareName (t : Token) (typeName : String) (k : VariableKind) :
    Agree R (Compiling.declareName t typeName k) (Compiling.declareName t typeName k) := by
  refine (Agree.nameOf t).bind fun name => h.names.bind fun d => ?_
  split
  · exact h.setNames _
  · exact .throw _

theorem nameList (typeName : String) (k : VariableKind) (fuel : Nat) :
    Agree R (Compiling.nameList typeName k fuel) (Compiling.nameList typeName k fuel) := by
  induction fuel with
  | zero => exact .throw _
  | succ fuel ih =>
    refine h.next.bind fun t => (h.declareName t typeName k).bind fun _ => h.next.bind fun u => ?_
    split
    · exact ih
    · exact h.next
    · exact .throw _

theorem typedNames (k : VariableKind) (fuel : Nat) :
    Agree R (Compiling.typedNames k fuel) (Compiling.typedNames k fuel) :=
  h.next.bind fun t => (Agree.typeOf t).bind fun typeName => h.nameList typeName k fuel

theorem classVariables (fuel : Nat) (t : Token) :
    Agree R (Compiling.classVariables fuel t) (Compiling.classVariables fuel t) := by
  induction fuel generalizing t with
  | zero => exact .throw _
  | succ fuel ih =>
    unfold Compiling.classVariables
    split
    · exact (h.typedNames _ fuel).bind ih
    · exact .pure t

theorem localVariables (fuel : Nat) (t : Token) :
    Agree R (Compiling.localVariables fuel t) (Compiling.localVariables fuel t) := by
  induction fuel generalizing t with
  | zero => exact .throw _
  | succ fuel ih =>
    unfold Compiling.localVariables
    split
    · exact (h.typedNames _ fuel).bind ih
    · exact .pure t

theorem parameters (fuel : Nat) (t : Token) :
    Agree R (Compiling.parameters fuel t) (Compiling.parameters fuel t) := by
  induction fuel generalizing t with
  | zero => exact .throw _
  | succ fuel ih =>
    refine (Agree.typeOf t).bind fun typeName => h.next.bind fun u => ?_
    refine (h.declareName u typeName _).bind fun _ => h.next.bind fun v => ?_
    split
    · exact h.next.bind ih
    · exact .pure v

theorem parameterList (fuel : Nat) :
    Agree R (Compiling.parameterList fuel) (Compiling.parameterList fuel) := by
  refine (h.expectNext _).bind fun _ => h.next.bind fun t => ?_
  dsimp only
  split
  · exact (Agree.pure t).bind fun u => .expect _ u
  · exact (h.parameters fuel t).bind fun u => .expect _ u

end DeclaringAgrees

variable [CodeSink σ]

/-- All the steps that compiling is put together of agree. -/
structure StepsAgree (R : Compilation σ τ → Compilation σ τ' → Prop) : Prop
    extends DeclaringAgrees R where
  unread : Agree R Compiling.unread Compiling.unread
  beginTerm (t : Token) : Agree R (Compiling.beginTerm t) (Compiling.beginTerm t)
  className : Agree R Compiling.className Compiling.className
  setClassName (name : String) : Agree R (Compiling.setClassName name) (Compiling.setClassName name)
  currentRoutine : Agree R Compiling.currentRoutine Compiling.currentRoutine
  setRoutine (r? : Option Routine) : Agree R (Compiling.setRoutine r?) (Compiling.setRoutine r?)
  freshLabel (purpose : String) :
    Agree R (Compiling.freshLabel purpose) (Compiling.freshLabel purpose)
  put (i : Instruction) : Agree R (Compiling.put i) (Compiling.put i)

/-- All that is read of expressions up to a depth of recursion agrees. -/
structure ExpressionsAgree (R : Compilation σ τ → Compilation σ τ' → Prop) (fuel : Nat) : Prop where
  expression (t : Token) : Agree R (Compiling.expression fuel t) (Compiling.expression fuel t)
  operators (t : Token) : Agree R (Compiling.operators fuel t) (Compiling.operators fuel t)
  term (t : Token) : Agree R (Compiling.term fuel t) (Compiling.term fuel t)
  call (t : Token) : Agree R (Compiling.call fuel t) (Compiling.call fuel t)
  arguments : Agree R (Compiling.arguments fuel) (Compiling.arguments fuel)
  moreArguments (count : Nat) (t : Token) :
    Agree R (Compiling.moreArguments fuel count t) (Compiling.moreArguments fuel count t)

/-- All that is read of statements up to a depth of recursion agrees. -/
structure StatementsAgree (R : Compilation σ τ → Compilation σ τ' → Prop) (fuel : Nat) : Prop where
  statements (t : Token) : Agree R (Compiling.statements fuel t) (Compiling.statements fuel t)
  block : Agree R (Compiling.block fuel) (Compiling.block fuel)
  ifStatement : Agree R (Compiling.ifStatement fuel) (Compiling.ifStatement fuel)
  whileStatement : Agree R (Compiling.whileStatement fuel) (Compiling.whileStatement fuel)

namespace StepsAgree

variable {fuel : Nat} (h : StepsAgree R)

include h

section Expressions

theorem putAll (code : List Instruction) :
    Agree R (Compiling.putAll code) (Compiling.putAll code) := by
  induction code with
  | nil => exact .pure ()
  | cons i code ih => exact (h.put i).bind fun _ => ih

theorem pushVariable (v : Variable) :
    Agree R (Compiling.pushVariable v) (Compiling.pushVariable v) :=
  h.put _

theorem popVariable (v : Variable) :
    Agree R (Compiling.popVariable v) (Compiling.popVariable v) :=
  h.put _

theorem pushThis (line : Nat) : Agree R (Compiling.pushThis line) (Compiling.pushThis line) := by
  refine h.currentRoutine.bind fun r? => ?_
  split
  · exact h.put _
  · exact h.put _
  · exact .throw _
  · exact .throw _

theorem pushObject (line : Nat) (name : String) :
    Agree R (Compiling.pushObject line name) (Compiling.pushObject line name) := by
  refine h.currentRoutine.bind fun r? => ?_
  split
  · exact h.put _
  · exact h.put _
  · exact .throw _

theorem callee (t : Token) : Agree R (Compiling.callee t) (Compiling.callee t) := by
  refine (Agree.nameOf t).bind fun name => h.next.bind fun u => ?_
  split
  · refine h.next.bind fun v => (Agree.nameOf v).bind fun member => ?_
    refine (h.expectNext _).bind fun _ => h.names.bind fun d => ?_
    split
    · exact (h.pushVariable _).bind fun _ => .pure _
    · exact .pure _
  · exact (h.pushObject _ name).bind fun _ => h.className.bind fun object => .pure _
  · exact .throw _

variable (ih : ExpressionsAgree R fuel)

include ih

theorem operators_succ (t : Token) :
    Agree R (Compiling.operators (fuel + 1) t) (Compiling.operators (fuel + 1) t) := by
  unfold Compiling.operators
  split
  · exact .pure t
  · refine h.next.bind fun u => (ih.term u).bind fun v => ?_
    exact (h.put _).bind fun _ => ih.operators v

theorem unary_agree (i : Instruction) : Agree R
    (Compiling.next >>= fun t => Compiling.term fuel t >>= fun t =>
      Compiling.put i >>= fun _ => pure t)
    (Compiling.next >>= fun t => Compiling.term fuel t >>= fun t =>
      Compiling.put i >>= fun _ => pure t) :=
  h.next.bind fun u => (ih.term u).bind fun v => (h.put i).bind fun _ => .pure v

theorem term_succ (t : Token) :
    Agree R (Compiling.term (fuel + 1) t) (Compiling.term (fuel + 1) t) := by
  unfold Compiling.term
  refine (h.beginTerm t).bind fun _ => ?_
  split
  · exact (h.put _).bind fun _ => h.next
  · exact (h.putAll _).bind fun _ => h.next
  · exact (h.put _).bind fun _ => (h.put _).bind fun _ => h.next
  · exact (h.put _).bind fun _ => h.next
  · exact (h.put _).bind fun _ => h.next
  · exact (h.pushThis _).bind fun _ => h.next
  · refine h.next.bind fun u => (ih.expression u).bind fun v => ?_
    exact (Agree.expect _ v).bind fun _ => h.next
  · exact h.unary_agree ih _
  · exact h.unary_agree ih _
  · refine h.next.bind fun u => ?_
    split
    · refine (h.variableOf t).bind fun v => (h.pushVariable v).bind fun _ => ?_
      refine h.next.bind fun w => (ih.expression w).bind fun y => ?_
      refine (Agree.expect _ y).bind fun _ => (h.put _).bind fun _ => ?_
      exact (h.put _).bind fun _ => (h.put _).bind fun _ => h.next
    · exact h.unread.bind fun _ => ih.call t
    · exact h.unread.bind fun _ => ih.call t
    · exact (h.variableOf t).bind fun v => (h.pushVariable v).bind fun _ => .pure u
  · exact .throw _

theorem call_succ (t : Token) :
    Agree R (Compiling.call (fuel + 1) t) (Compiling.call (fuel + 1) t) := by
  refine (h.callee t).bind fun c => ih.arguments.bind fun a => ?_
  exact (Agree.expect _ a.2).bind fun _ => (h.put _).bind fun _ => h.next

theorem arguments_succ :
    Agree R (Compiling.arguments (fuel + 1)) (Compiling.arguments (fuel + 1)) := by
  refine h.next.bind fun t => ?_
  split
  · exact .pure _
  · exact (ih.expression t).bind fun u => ih.moreArguments 1 u

theorem moreArguments_succ (count : Nat) (t : Token) :
    Agree R (Compiling.moreArguments (fuel + 1) count t)
      (Compiling.moreArguments (fuel + 1) count t) := by
  unfold Compiling.moreArguments
  split
  · refine h.next.bind fun u => (ih.expression u).bind fun v => ?_
    exact ih.moreArguments (count + 1) v
  · exact .pure _

omit ih

theorem expressions (fuel : Nat) : ExpressionsAgree R fuel := by
  induction fuel with
  | zero => constructor <;> intros <;> exact .throw _
  | succ fuel ih =>
    exact ⟨fun t => (ih.term t).bind ih.operators, h.operators_succ ih, h.term_succ ih,
      h.call_succ ih, h.arguments_succ ih, h.moreArguments_succ ih⟩

theorem expression (fuel : Nat) (t : Token) :
    Agree R (Compiling.expression fuel t) (Compiling.expression fuel t) :=
  (h.expressions fuel).expression t

end Expressions

section Statements

theorem letStatement (fuel : Nat) :
    Agree R (Compiling.letStatement fuel) (Compiling.letStatement fuel) := by
  refine h.next.bind fun t => (h.variableOf t).bind fun target => h.next.bind fun u => ?_
  split
  · refine (h.pushVariable target).bind fun _ => h.next.bind fun v => ?_
    refine (h.expression fuel v).bind fun w => (Agree.expect _ w).bind fun _ => ?_
    refine (h.put _).bind fun _ => (h.expectNext _).bind fun _ => h.next.bind fun y => ?_
    refine (h.expression fuel y).bind fun z => (h.put _).bind fun _ => (h.put _).bind fun _ => ?_
    refine (h.put _).bind fun _ => (h.put _).bind fun _ => ?_
    exact (Agree.expect _ z).bind fun _ => h.next
  · refine h.next.bind fun v => (h.expression fuel v).bind fun w => ?_
    exact (h.popVariable target).bind fun _ => (Agree.expect _ w).bind fun _ => h.next
  · exact .throw _

theorem doStatement (fuel : Nat) :
    Agree R (Compiling.doStatement fuel) (Compiling.doStatement fuel) := by
  refine h.next.bind fun t => (Agree.nameOf t).bind fun _ => ?_
  refine ((h.expressions fuel).call t).bind fun u => (Agree.expect _ u).bind fun _ => ?_
  exact (h.put _).bind fun _ => h.next

theorem returnStatement (fuel : Nat) (word : Token) :
    Agree R (Compiling.returnStatement fuel word) (Compiling.returnStatement fuel word) := by
  refine h.currentRoutine.bind fun r? => ?_
  cases r? with
  | none => exact .throw _
  | some r =>
    refine h.next.bind fun t => ?_
    dsimp only
    split
    · split
      · exact (h.put _).bind fun _ => (h.put _).bind fun _ => h.next
      · exact (Agree.throw _).bind fun _ => (h.put _).bind fun _ => h.next
    · refine (h.expression fuel t).bind fun u => (Agree.expect _ u).bind fun _ => ?_
      exact (h.put _).bind fun _ => h.next

theorem negatedCondition (fuel : Nat) :
    Agree R (Compiling.negatedCondition fuel) (Compiling.negatedCondition fuel) := by
  refine (h.expectNext _).bind fun _ => h.next.bind fun t => ?_
  exact (h.expression fuel t).bind fun u => (Agree.expect _ u).bind fun _ => h.put _

variable (ih : StatementsAgree R fuel)

include ih

theorem statements_succ (t : Token) :
    Agree R (Compiling.statements (fuel + 1) t) (Compiling.statements (fuel + 1) t) := by
  unfold Compiling.statements
  split
  · exact (h.letStatement fuel).bind ih.statements
  · exact ih.ifStatement.bind ih.statements
  · exact ih.whileStatement.bind ih.statements
  · exact (h.doStatement fuel).bind ih.statements
  · exact (h.returnStatement fuel t).bind ih.statements
  · exact .pure t

theorem block_succ : Agree R (Compiling.block (fuel + 1)) (Compiling.block (fuel + 1)) := by
  refine (h.expectNext _).bind fun _ => h.next.bind fun t => ?_
  exact (ih.statements t).bind fun u => (Agree.expectBlockEnd u).bind fun _ => h.next

theorem ifStatement_succ :
    Agree R (Compiling.ifStatement (fuel + 1)) (Compiling.ifStatement (fuel + 1)) := by
  refine (h.negatedCondition fuel).bind fun _ => (h.freshLabel _).bind fun l => ?_
  refine (h.put _).bind fun _ => ih.block.bind fun t => ?_
  split
  · refine (h.freshLabel _).bind fun l' => (h.put _).bind fun _ => (h.put _).bind fun _ => ?_
    exact ih.block.bind fun u => (h.put _).bind fun _ => .pure u
  · exact (h.put _).bind fun _ => .pure t

theorem whileStatement_succ :
    Agree R (Compiling.whileStatement (fuel + 1)) (Compiling.whileStatement (fuel + 1)) := by
  refine (h.freshLabel _).bind fun l => (h.freshLabel _).bind fun l' => ?_
  refine (h.put _).bind fun _ => (h.negatedCondition fuel).bind fun _ => ?_
  refine (h.put _).bind fun _ => ih.block.bind fun t => ?_
  exact (h.put _).bind fun _ => (h.put _).bind fun _ => .pure t

omit ih

theorem statements (fuel : Nat) : StatementsAgree R fuel := by
  induction fuel with
  | zero => constructor <;> intros <;> exact .throw _
  | succ fuel ih =>
    exact ⟨h.statements_succ ih, h.block_succ ih, h.ifStatement_succ ih, h.whileStatement_succ ih⟩

end Statements

section Classes

theorem routineBody (name : String) (kind : RoutineKind) (fuel : Nat) :
    Agree R (Compiling.routineBody name kind fuel) (Compiling.routineBody name kind fuel) := by
  refine (h.expectNext _).bind fun _ => h.next.bind fun t => ?_
  refine (h.localVariables fuel t).bind fun u => h.names.bind fun d => ?_
  refine h.className.bind fun object => (h.put _).bind fun _ => (h.putAll _).bind fun _ => ?_
  exact ((h.statements fuel).statements u).bind fun v => .expectBlockEnd v

theorem routine (kind : RoutineKind) (fuel : Nat) :
    Agree R (Compiling.routine kind fuel) (Compiling.routine kind fuel) := by
  refine h.next.bind fun t => (Agree.checkReturnType t).bind fun _ => h.next.bind fun u => ?_
  refine (Agree.nameOf u).bind fun name => h.names.bind fun d => (h.setNames _).bind fun _ => ?_
  refine (h.setRoutine _).bind fun _ => (h.parameterList fuel).bind fun _ => ?_
  refine (h.routineBody name kind fuel).bind fun _ => ?_
  exact (h.setRoutine _).bind fun _ => h.next

theorem routines (fuel : Nat) (t : Token) :
    Agree R (Compiling.routines fuel t) (Compiling.routines fuel t) := by
  induction fuel generalizing t with
  | zero => exact .throw _
  | succ fuel ih =>
    unfold Compiling.routines
    split
    · exact (h.routine _ fuel).bind ih
    · exact .pure t

theorem classDeclaration (fuel : Nat) (t : Token) :
    Agree R (Compiling.classDeclaration fuel t) (Compiling.classDeclaration fuel t) := by
  unfold Compiling.classDeclaration
  split
  · refine h.next.bind fun u => (Agree.nameOf u).bind fun name => ?_
    refine (h.setClassName name).bind fun _ => h.names.bind fun d => (h.setNames _).bind fun _ => ?_
    refine (h.expectNext _).bind fun _ => h.next.bind fun v => ?_
    refine (h.classVariables fuel v).bind fun w => (h.routines fuel w).bind fun y => ?_
    split
    · exact h.next?
    · exact .throw _
  · exact .throw _

/-- What the steps preserve compiling preserves. -/
theorem wholeSource (fuel : Nat) :
    Agree R (Compiling.wholeSource fuel) (Compiling.wholeSource fuel) := by
  refine h.next.bind fun t => (h.classDeclaration fuel t).bind fun trailing => ?_
  split
  · exact .throw _
  · exact .pure ()

end Classes

end StepsAgree

/-- A map between places that tokens come from, under which the same ones come. -/
structure SourceMap (τ τ' : Type) [TokenSource τ] [TokenSource τ'] where
  map : τ → τ'
  next (s : τ) : EndsAs (map · = ·) (TokenSource.next s) (TokenSource.next (map s))
  unread (s : τ) : EndsAs (map · = ·) (TokenSource.unread s) (TokenSource.unread (map s))
  beginTerm (t : Token) (s : τ) : map (TokenSource.beginTerm t s) = TokenSource.beginTerm t (map s)
  depthBound (s : τ) : TokenSource.depthBound (map s) = TokenSource.depthBound s

/-- The same state of compiling, with tokens from elsewhere. -/
def Compilation.mapTokens (f : τ → τ') (s : Compilation σ τ) : Compilation σ τ' :=
  ⟨f s.tokens, s.names, s.labels, s.className, s.routine, s.sink⟩

section SourceMaps

/-- A part of compiling does under a map of the source what another one does without it. -/
abbrev Mirrors (φ : SourceMap τ τ') : CompilingFrom τ σ α → CompilingFrom τ' σ α → Prop :=
  Agree fun s s' => s.mapTokens φ.map = s'

theorem stepsAgree_mapTokens (φ : SourceMap τ τ') :
    StepsAgree (σ := σ) fun s s' => s.mapTokens φ.map = s' where
  next? := by
    rintro s _ rfl
    have hnext := φ.next s.tokens
    simp only [Compiling.next?, Compilation.mapTokens]
    generalize TokenSource.next s.tokens = y at hnext ⊢
    generalize TokenSource.next (φ.map s.tokens) = y' at hnext ⊢
    cases hnext with
    | ok hs => exact .ok (hs ▸ rfl)
    | error hs => exact .error (hs ▸ rfl)
  unread := by
    rintro s _ rfl
    have hunread := φ.unread s.tokens
    simp only [Compiling.unread, Compilation.mapTokens]
    generalize TokenSource.unread s.tokens = y at hunread ⊢
    generalize TokenSource.unread (φ.map s.tokens) = y' at hunread ⊢
    cases hunread with
    | ok hs => exact .ok (hs ▸ rfl)
    | error hs => exact .error (hs ▸ rfl)
  beginTerm t := by
    rintro s _ rfl
    refine .ok ?_
    simp only [Compilation.mapTokens, φ.beginTerm]
  names := by
    rintro s _ rfl
    exact .ok rfl
  setNames d := by
    rintro s _ rfl
    exact .ok rfl
  className := by
    rintro s _ rfl
    exact .ok rfl
  setClassName name := by
    rintro s _ rfl
    exact .ok rfl
  currentRoutine := by
    rintro s _ rfl
    exact .ok rfl
  setRoutine r? := by
    rintro s _ rfl
    exact .ok rfl
  freshLabel purpose := by
    rintro s _ rfl
    exact .ok rfl
  put i := by
    rintro s _ rfl
    simp only [Compiling.put, Compilation.mapTokens]
    cases CodeSink.put? s.sink i with
    | none => exact .error rfl
    | some sink => exact .ok rfl

theorem compileClass_mapTokens (φ : SourceMap τ τ') (s : Compilation σ τ) :
    (s.mapTokens φ.map).compileClass = (s.compileClass.1, s.compileClass.2.mapTokens φ.map) := by
  have hdepth : TokenSource.depthBound (s.mapTokens φ.map).tokens =
      TokenSource.depthBound s.tokens := φ.depthBound s.tokens
  have hends := (stepsAgree_mapTokens φ).wholeSource (TokenSource.depthBound s.tokens) s _ rfl
  unfold Compilation.compileClass
  rw [hdepth]
  generalize Compiling.wholeSource (TokenSource.depthBound s.tokens) s = y at hends ⊢
  generalize Compiling.wholeSource (TokenSource.depthBound s.tokens) (s.mapTokens φ.map) = y'
    at hends ⊢
  cases hends with
  | ok hs => rw [← hs]
  | error hs => rw [← hs]

/-- Compiling gets to know nothing else of the place that its tokens come from than the answers. -/
theorem afterCalls_mapTokens (φ : SourceMap τ τ') (s : Compilation σ τ) (calls : Nat) :
    (s.afterCalls calls).mapTokens φ.map = (s.mapTokens φ.map).afterCalls calls := by
  induction calls with
  | zero => rfl
  | succ calls ih =>
    unfold Compilation.afterCalls
    rw [← ih, compileClass_mapTokens]

end SourceMaps

end JackVM
