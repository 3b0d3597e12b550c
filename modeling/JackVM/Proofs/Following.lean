import JackVM.Proofs.Blame

namespace JackVM

section Expressions

variable {σ : Type} [CodeSink σ] {all : List (Except TokenError Token)}
  {K : Option Routine → Prop} {goals : List Goal} {g : Goal} {t : Token} {s : Stop}

theorem next_stop_closeParen (x : Lexeme) : (Goal.stop .closeParen).next x =
    if x = .symbol .closeParen then some [] else none := by
  simp only [Goal.next]
  unfold Stop.next
  split <;> simp_all

theorem next_stop_closeBracket (x : Lexeme) : (Goal.stop .closeBracket).next x =
    if x = .symbol .closeBracket then some [] else none := by
  simp only [Goal.next]
  unfold Stop.next
  split <;> simp_all

theorem next_stop_semicolon (x : Lexeme) : (Goal.stop .semicolon).next x =
    if x = .symbol .semicolon then some [] else none := by
  simp only [Goal.next]
  unfold Stop.next
  split <;> simp_all

theorem follows_callee {name : String} (ht : t.lexeme = .identifier name) :
    Follows K all (.afterCallee :: goals) none (Compiling.callee t : Compiling σ (String × Nat))
      (.arguments :: goals) fun _ => none := by
  have hname : Silent (Compiling.nameOf t : Compiling σ String) := by
    simp only [Compiling.nameOf, ht, Lexeme.name?]
    exact .pure
  unfold Compiling.callee
  refine .silent_then hname fun _ => .next_then (by simp) fun u => ?_
  split
  next hu =>
    refine .token (.name :: .one (.symbol .openParen) :: .arguments :: goals)
      (by simp [advance, Goal.next, nextAfterCallee, hu]) ?_
    refine .next_then (by simp) fun v => .nameOf_then fun member _ => ?_
    refine Follows.expectNext.bind fun _ => .silent_then .names fun d => ?_
    split
    · exact .silent_then .put fun _ => .pure rfl
    · exact .pure rfl
  next hu =>
    refine .token (.arguments :: goals)
      (by simp [advance, Goal.next, nextAfterCallee, hu]) ?_
    exact .silent_then .pushObject fun _ => .silent_then .className fun _ => .pure rfl
  next hdot hopen =>
    have hnone : nextAfterCallee u.lexeme = none := by
      unfold nextAfterCallee
      split <;> simp_all
    exact .unexpected (by simp [advance, Goal.next, hnone])

/-- All that is read of expressions up to a depth of recursion follows the goals. -/
structure FollowsExpressions (σ : Type) [CodeSink σ] (K : Option Routine → Prop)
    (all : List (Except TokenError Token)) (fuel : Nat) : Prop where
  expression {s : Stop} {goals : List Goal} {t : Token} :
    Follows K all (.term s :: goals) (some t) (Compiling.expression fuel t : Compiling σ Token)
      (.stop s :: goals) some
  operators {s : Stop} {goals : List Goal} {t : Token} :
    Follows K all (.operators s :: goals) (some t) (Compiling.operators fuel t : Compiling σ Token)
      (.stop s :: goals) some
  term {s : Stop} {goals : List Goal} {t : Token} :
    Follows K all (.term s :: goals) (some t) (Compiling.term fuel t : Compiling σ Token)
      (.operators s :: goals) some
  call {g : Goal} {goals : List Goal} {t : Token} {name : String} : t.lexeme = .identifier name →
    Follows K all (.afterCallee :: g :: goals) none (Compiling.call fuel t : Compiling σ Token)
      (g :: goals) some
  arguments {goals : List Goal} :
    Follows K all (.arguments :: goals) none
      (Compiling.arguments fuel : Compiling σ (Nat × Token))
      (.one (.symbol .closeParen) :: goals) fun p => some p.2
  moreArguments {goals : List Goal} {n : Nat} {t : Token} :
    Follows K all (.stop .arguments :: goals) (some t)
      (Compiling.moreArguments fuel n t : Compiling σ (Nat × Token))
      (.one (.symbol .closeParen) :: goals) fun p => some p.2

namespace FollowsExpressions

variable {fuel : Nat} (ih : FollowsExpressions σ K all fuel)

include ih

theorem expression_succ : Follows K all (.term s :: goals) (some t)
    (Compiling.expression (fuel + 1) t : Compiling σ Token) (.stop s :: goals) some := by
  unfold Compiling.expression
  exact ih.term.bind fun _ => ih.operators

theorem operators_succ : Follows K all (.operators s :: goals) (some t)
    (Compiling.operators (fuel + 1) t : Compiling σ Token) (.stop s :: goals) some := by
  unfold Compiling.operators
  split
  next h =>
    refine .look (.stop s :: goals) (by simp) ?_ (.pure rfl)
    simp [advance, Goal.next, nextOfOperators, h]
  next i h =>
    refine .token (.term s :: goals) (by simp [advance, Goal.next, nextOfOperators, h]) ?_
    exact .next_then (by simp) fun u => ih.term.bind fun v => .silent_then .put fun _ => ih.operators

theorem unary_follows {i : Instruction} :
    Follows K all (.term s :: goals) none (do
      let t ← Compiling.next
      let t ← Compiling.term fuel t
      Compiling.put i
      pure t : Compiling σ Token) (.operators s :: goals) some :=
  .next_then (by simp) fun _ => ih.term.bind fun _ => .silent_then .put fun _ => .pure rfl

theorem element_follows {name : String} (ht : t.lexeme = .identifier name) :
    Follows K all (.term .closeBracket :: g :: goals) none (do
      Compiling.pushVariable (← Compiling.variableOf t)
      let t ← Compiling.next
      let t ← Compiling.expression fuel t
      Compiling.expect .closeBracket t
      Compiling.put (.op .add)
      Compiling.put (.pop .pointer 1)
      Compiling.put (.push .that 0)
      Compiling.next : Compiling σ Token) (g :: goals) some := by
  refine .silent_then (.variableOf ht) fun v => .silent_then .put fun _ => ?_
  refine .next_then (by simp) fun u => ih.expression.bind fun w => ?_
  refine (Follows.expect next_stop_closeBracket).bind fun _ => ?_
  refine .silent_then .put fun _ => .silent_then .put fun _ => .silent_then .put fun _ => ?_
  exact .next (by simp)

/-- After a name, the next token tells what the name is the start of. -/
theorem name_follows {name : String} (ht : t.lexeme = .identifier name) :
    Follows K all (.afterName s :: goals) none (do
      let after ← Compiling.next
      match after.lexeme with
      | .symbol .openBracket => do
        Compiling.pushVariable (← Compiling.variableOf t)
        let t ← Compiling.next
        let t ← Compiling.expression fuel t
        Compiling.expect .closeBracket t
        Compiling.put (.op .add)
        Compiling.put (.pop .pointer 1)
        Compiling.put (.push .that 0)
        Compiling.next
      | .symbol .openParen | .symbol .dot => do
        Compiling.unread
        Compiling.call fuel t
      | _ => do
        Compiling.pushVariable (← Compiling.variableOf t)
        pure after : Compiling σ Token) (.operators s :: goals) some := by
  have hcall {u : Token} {x : Lexeme} {more : List Goal} (hx : u.lexeme = x)
      (hmore : nextAfterCallee x = some more) (hopen : x ≠ .symbol .openBracket) :
      Follows K all (.afterName s :: goals) (some u) (do
        Compiling.unread
        Compiling.call fuel t : Compiling σ Token) (.operators s :: goals) some := by
    refine .look (.afterCallee :: .operators s :: goals) (by simp) ?_
      (Follows.unread.bind fun _ => ih.call ht)
    simp [advance, Goal.next, nextAfterName, hx, hmore, hopen]
  refine .next_then (by simp) fun u => ?_
  split
  next hu =>
    refine .token (.term .closeBracket :: .operators s :: goals) ?_
      (ih.element_follows ht)
    simp [advance, Goal.next, nextAfterName, hu]
  next hu => exact hcall hu rfl (by simp)
  next hu => exact hcall hu rfl (by simp)
  next hbracket hparen hdot =>
    have hnone : nextAfterCallee u.lexeme = none := by
      unfold nextAfterCallee
      split <;> simp_all
    have hopen : u.lexeme ≠ .symbol .openBracket := hbracket
    refine .look (.operators s :: goals) (by simp) ?_ ?_
    · simp [advance, Goal.next, nextAfterName, hopen, hnone]
    · exact .silent_then (.variableOf ht) fun v => .silent_then .put fun _ => .pure rfl

theorem term_succ : Follows K all (.term s :: goals) (some t)
    (Compiling.term (fuel + 1) t : Compiling σ Token) (.operators s :: goals) some := by
  have hone (h : nextOfTerm s t.lexeme = some [.operators s]) :
      advance (.term s :: goals) t.lexeme = some (.operators s :: goals) := by
    simp [advance, Goal.next, h]
  have hnext : Follows K all (.operators s :: goals) none (Compiling.next : Compiling σ Token)
      (.operators s :: goals) some := .next (by simp)
  unfold Compiling.term
  refine .silent_then .beginTerm fun _ => ?_
  split
  next h => exact .token _ (hone (by rw [h]; rfl)) (.silent_then .put fun _ => hnext)
  next h => exact .token _ (hone (by rw [h]; rfl)) (.silent_then .putAll fun _ => hnext)
  next h =>
    exact .token _ (hone (by rw [h]; rfl))
      (.silent_then .put fun _ => .silent_then .put fun _ => hnext)
  next h => exact .token _ (hone (by rw [h]; rfl)) (.silent_then .put fun _ => hnext)
  next h => exact .token _ (hone (by rw [h]; rfl)) (.silent_then .put fun _ => hnext)
  next h => exact .token _ (hone (by rw [h]; rfl)) (.silent_then .pushThis fun _ => hnext)
  next h =>
    refine .token (.term .closeParen :: .operators s :: goals)
      (by simp [advance, Goal.next, nextOfTerm, h]) ?_
    refine .next_then (by simp) fun u => ih.expression.bind fun v => ?_
    exact (Follows.expect next_stop_closeParen).bind fun _ => hnext
  next h =>
    exact .token (.term s :: goals) (by simp [advance, Goal.next, nextOfTerm, h])
      ih.unary_follows
  next h =>
    exact .token (.term s :: goals) (by simp [advance, Goal.next, nextOfTerm, h])
      ih.unary_follows
  next name h =>
    exact .token (.afterName s :: goals) (by simp [advance, Goal.next, nextOfTerm, h])
      (ih.name_follows h)
  next =>
    have hnone : nextOfTerm s t.lexeme = none := by
      unfold nextOfTerm
      split <;> simp_all
    exact .unexpected (by simp [advance, Goal.next, hnone])

theorem call_succ {name : String} (ht : t.lexeme = .identifier name) :
    Follows K all (.afterCallee :: g :: goals) none
      (Compiling.call (fuel + 1) t : Compiling σ Token) (g :: goals) some := by
  unfold Compiling.call
  refine (follows_callee ht).bind fun p => ih.arguments.bind fun q => ?_
  exact (Follows.expect fun _ => rfl).bind fun _ => .silent_then .put fun _ => .next (by simp)

theorem arguments_succ : Follows K all (.arguments :: goals) none
    (Compiling.arguments (fuel + 1) : Compiling σ (Nat × Token))
    (.one (.symbol .closeParen) :: goals) fun p => some p.2 := by
  unfold Compiling.arguments
  refine .next_then (by simp) fun u => ?_
  split
  next hu =>
    have hx := Token.isSymbol_iff.mp hu
    exact .look (.one (.symbol .closeParen) :: goals) (by simp)
      (by simp [advance, Goal.next, hx]) (.pure rfl)
  next hu =>
    have hx : u.lexeme ≠ .symbol .closeParen := mt Token.isSymbol_iff.mpr hu
    exact .look (.term .arguments :: goals) (by simp)
      (by simp [advance, Goal.next, hx]) (ih.expression.bind fun _ => ih.moreArguments)

theorem moreArguments_succ {n : Nat} : Follows K all (.stop .arguments :: goals) (some t)
    (Compiling.moreArguments (fuel + 1) n t : Compiling σ (Nat × Token))
    (.one (.symbol .closeParen) :: goals) fun p => some p.2 := by
  unfold Compiling.moreArguments
  split
  next ht =>
    have hx := Token.isSymbol_iff.mp ht
    refine .token (.term .arguments :: goals)
      (by simp [advance, Goal.next, Stop.next, hx]) ?_
    exact .next_then (by simp) fun u => ih.expression.bind fun v => ih.moreArguments
  next ht =>
    have hx : t.lexeme ≠ .symbol .comma := mt Token.isSymbol_iff.mpr ht
    have hnext : Stop.arguments.next t.lexeme = (Goal.one (.symbol .closeParen)).next t.lexeme := by
      simp only [Goal.next]
      unfold Stop.next
      split <;> simp_all
    exact .look (.one (.symbol .closeParen) :: goals) (by simp)
      (congrArg (Option.map (· ++ goals)) hnext) (.pure rfl)

end FollowsExpressions

theorem followsExpressions (K : Option Routine → Prop) (all : List (Except TokenError Token))
    (fuel : Nat) : FollowsExpressions σ K all fuel := by
  induction fuel with
  | zero =>
    constructor
    case call =>
      intros
      exact .throw rfl
    all_goals exact .throw rfl
  | succ fuel ih =>
    exact ⟨ih.expression_succ, ih.operators_succ, ih.term_succ, ih.call_succ, ih.arguments_succ,
      ih.moreArguments_succ⟩

end Expressions

section Statements

variable {σ : Type} [CodeSink σ] {all : List (Except TokenError Token)} {fuel : Nat}
  {K : Option Routine → Prop} {r : Routine} {goals : List Goal} {g : Goal} {t : Token} {v : Bool}

theorem follows_letStatement : Follows K all (.name :: .afterTarget :: g :: goals) none
    (Compiling.letStatement fuel : Compiling σ Token) (g :: goals) some := by
  have ih := followsExpressions (σ := σ) K all fuel
  unfold Compiling.letStatement
  refine .next_then (by simp) fun t => Follows.variableOf.bind fun target => ?_
  refine .next_then (by simp) fun u => ?_
  split
  next hu =>
    refine .token (.term .closeBracket :: .one (.symbol .equal) :: .term .semicolon ::
      g :: goals) (by simp [advance, Goal.next, nextAfterTarget, hu]) ?_
    refine .silent_then .put fun _ => .next_then (by simp) fun i => ih.expression.bind fun _ => ?_
    refine (Follows.expect next_stop_closeBracket).bind fun _ => .silent_then .put fun _ => ?_
    refine Follows.expectNext.bind fun _ => .next_then (by simp) fun e => ?_
    refine ih.expression.bind fun _ => .silent_then .put fun _ => .silent_then .put fun _ => ?_
    refine .silent_then .put fun _ => .silent_then .put fun _ => ?_
    exact (Follows.expect next_stop_semicolon).bind fun _ => .next (by simp)
  next hu =>
    refine .token (.term .semicolon :: g :: goals)
      (by simp [advance, Goal.next, nextAfterTarget, hu]) ?_
    refine .next_then (by simp) fun e => ih.expression.bind fun _ => .silent_then .put fun _ => ?_
    exact (Follows.expect next_stop_semicolon).bind fun _ => .next (by simp)
  next =>
    have hnone : nextAfterTarget u.lexeme = none := by
      unfold nextAfterTarget
      split <;> simp_all
    exact .unexpected (by simp [advance, Goal.next, hnone])

theorem follows_doStatement :
    Follows K all (.name :: .afterCallee :: .one (.symbol .semicolon) :: g :: goals) none
      (Compiling.doStatement fuel : Compiling σ Token) (g :: goals) some := by
  unfold Compiling.doStatement
  refine .next_then (by simp) fun t => .nameOf_then fun name ht => ?_
  refine ((followsExpressions K all fuel).call ht).bind fun _ => ?_
  exact (Follows.expect fun _ => rfl).bind fun _ => .silent_then .put fun _ => .next (by simp)

theorem follows_returnStatement : Follows (· = some r) all (.value r.returnsVoid :: g :: goals) none
    (Compiling.returnStatement fuel t : Compiling σ Token) (g :: goals) some := by
  have hreturn : Follows (· = some r) all (g :: goals) none (do
      Compiling.put .ret
      Compiling.next : Compiling σ Token) (g :: goals) some :=
    .silent_then .put fun _ => .next (by simp)
  refine .currentRoutine_then (.next_then (by simp) fun u => ?_)
  dsimp only
  split
  next hvoid =>
    rw [hvoid]
    split
    next ht =>
      refine .token (g :: goals) ?_ (.silent_then .put fun _ => hreturn)
      simp [advance, Goal.next, Token.isSymbol_iff.mp ht]
    next ht =>
      have hne : u.lexeme ≠ .symbol .semicolon := mt Token.isSymbol_iff.mpr ht
      exact .unexpected (by simp [advance, Goal.next, hne])
  next hvoid =>
    rw [(Bool.not_eq_true _).mp hvoid]
    refine .look (.term .semicolon :: g :: goals) (by simp) rfl ?_
    refine (followsExpressions _ all fuel).expression.bind fun _ => ?_
    exact (Follows.expect next_stop_semicolon).bind fun _ => hreturn

theorem follows_negatedCondition :
    Follows K all (.one (.symbol .openParen) :: .term .closeParen :: goals) none
      (Compiling.negatedCondition fuel : Compiling σ Unit) goals fun _ => none := by
  unfold Compiling.negatedCondition
  refine Follows.expectNext.bind fun _ => .next_then (by simp) fun t => ?_
  refine (followsExpressions K all fuel).expression.bind fun _ => ?_
  exact (Follows.expect next_stop_closeParen).bind fun _ => .of_silent .put

/-- The same for statements. -/
structure FollowsStatements (σ : Type) [CodeSink σ] (all : List (Except TokenError Token))
    (r : Routine) (fuel : Nat) : Prop where
  statements {goals : List Goal} {t : Token} :
    Follows (· = some r) all (.statements r.returnsVoid :: goals) (some t)
      (Compiling.statements fuel t : Compiling σ Token)
      (.one (.symbol .closeBrace) :: goals) some
  block {g : Goal} {goals : List Goal} :
    Follows (· = some r) all
      (.one (.symbol .openBrace) :: .statements r.returnsVoid :: g :: goals) none
      (Compiling.block fuel : Compiling σ Token) (g :: goals) some
  ifStatement {goals : List Goal} :
    Follows (· = some r) all
      (.one (.symbol .openParen) :: .term .closeParen :: .one (.symbol .openBrace) ::
        .statements r.returnsVoid :: .otherwise r.returnsVoid :: goals) none
      (Compiling.ifStatement fuel : Compiling σ Token) (.statements r.returnsVoid :: goals) some
  whileStatement {g : Goal} {goals : List Goal} :
    Follows (· = some r) all
      (.one (.symbol .openParen) :: .term .closeParen :: .one (.symbol .openBrace) ::
        .statements r.returnsVoid :: g :: goals) none
      (Compiling.whileStatement fuel : Compiling σ Token) (g :: goals) some

namespace FollowsStatements

variable (ih : FollowsStatements σ all r fuel)

include ih

theorem statements_succ : Follows (· = some r) all (.statements r.returnsVoid :: goals) (some t)
    (Compiling.statements (fuel + 1) t : Compiling σ Token)
    (.one (.symbol .closeBrace) :: goals) some := by
  have htoken {more : List Goal} (h : nextOfStatements r.returnsVoid t.lexeme = some more) :
      advance (.statements r.returnsVoid :: goals) t.lexeme = some (more ++ goals) := by
    simp [advance, Goal.next, h]
  unfold Compiling.statements
  split
  next h =>
    exact .token _ (htoken (by rw [h]; rfl)) (follows_letStatement.bind fun _ => ih.statements)
  next h => exact .token _ (htoken (by rw [h]; rfl)) (ih.ifStatement.bind fun _ => ih.statements)
  next h => exact .token _ (htoken (by rw [h]; rfl)) (ih.whileStatement.bind fun _ => ih.statements)
  next h =>
    exact .token _ (htoken (by rw [h]; rfl)) (follows_doStatement.bind fun _ => ih.statements)
  next h =>
    exact .token _ (htoken (by rw [h]; rfl)) (follows_returnStatement.bind fun _ => ih.statements)
  next =>
    have hnext : nextOfStatements r.returnsVoid t.lexeme =
        (Goal.one (.symbol .closeBrace)).next t.lexeme := by
      simp only [Goal.next]
      unfold nextOfStatements
      split <;> simp_all
    exact .look (.one (.symbol .closeBrace) :: goals) (by simp)
      (congrArg (Option.map (· ++ goals)) hnext) (.pure rfl)

theorem block_succ :
    Follows (· = some r) all
      (.one (.symbol .openBrace) :: .statements r.returnsVoid :: g :: goals) none
      (Compiling.block (fuel + 1) : Compiling σ Token) (g :: goals) some := by
  unfold Compiling.block
  refine Follows.expectNext.bind fun _ => .next_then (by simp) fun t => ?_
  exact ih.statements.bind fun _ => Follows.expectBlockEnd.bind fun _ => .next (by simp)

theorem ifStatement_succ :
    Follows (· = some r) all
      (.one (.symbol .openParen) :: .term .closeParen :: .one (.symbol .openBrace) ::
        .statements r.returnsVoid :: .otherwise r.returnsVoid :: goals) none
      (Compiling.ifStatement (fuel + 1) : Compiling σ Token)
      (.statements r.returnsVoid :: goals) some := by
  unfold Compiling.ifStatement
  refine follows_negatedCondition.bind fun _ => .silent_then .freshLabel fun l => ?_
  refine .silent_then .put fun _ => ih.block.bind fun u => ?_
  split
  next hu =>
    refine .token (.one (.symbol .openBrace) :: .statements r.returnsVoid ::
      .statements r.returnsVoid :: goals) ?_ ?_
    · simp [advance, Goal.next, Token.isKeyword_iff.mp hu]
    · refine .silent_then .freshLabel fun m => .silent_then .put fun _ => ?_
      refine .silent_then .put fun _ => ?_
      exact ih.block.bind fun _ => .silent_then .put fun _ => .pure rfl
  next hu =>
    have hne : u.lexeme ≠ .keyword .kwElse := mt Token.isKeyword_iff.mpr hu
    refine .look (.statements r.returnsVoid :: goals) (by simp) ?_
      (.silent_then .put fun _ => .pure rfl)
    simp [advance, Goal.next, hne]

theorem whileStatement_succ :
    Follows (· = some r) all
      (.one (.symbol .openParen) :: .term .closeParen :: .one (.symbol .openBrace) ::
        .statements r.returnsVoid :: g :: goals) none
      (Compiling.whileStatement (fuel + 1) : Compiling σ Token) (g :: goals) some := by
  unfold Compiling.whileStatement
  refine .silent_then .freshLabel fun l => .silent_then .freshLabel fun m => ?_
  refine .silent_then .put fun _ => follows_negatedCondition.bind fun _ => ?_
  refine .silent_then .put fun _ => ih.block.bind fun _ => ?_
  exact .silent_then .put fun _ => .silent_then .put fun _ => .pure rfl

end FollowsStatements

theorem followsStatements_goals (all : List (Except TokenError Token)) (r : Routine) (fuel : Nat) :
    FollowsStatements σ all r fuel := by
  induction fuel with
  | zero => constructor <;> exact .throw rfl
  | succ fuel ih =>
    exact ⟨ih.statements_succ, ih.block_succ, ih.ifStatement_succ, ih.whileStatement_succ⟩

end Statements

section Classes

variable {σ : Type} {all : List (Except TokenError Token)} {fuel : Nat} {goals : List Goal}
  {g : Goal} {t : Token} {K : Option Routine → Prop}

theorem follows_nameList {typeName : String} {k : VariableKind} :
    Follows K all (.name :: .moreNames :: g :: goals) none
      (Compiling.nameList typeName k fuel : Compiling σ Token) (g :: goals) some := by
  induction fuel with
  | zero => exact .throw rfl
  | succ fuel ih =>
    unfold Compiling.nameList
    refine .next_then (by simp) fun t => Follows.declareName.bind fun _ => ?_
    refine .next_then (by simp) fun u => ?_
    split
    next hu =>
      refine .token (.name :: .moreNames :: g :: goals) ?_ ih
      simp [advance, Goal.next, hu]
    next hu =>
      refine .token (g :: goals) ?_ (.next (by simp))
      simp [advance, Goal.next, Stop.next, hu]
    next hcomma hsemicolon =>
      have hne : u.lexeme ≠ .symbol .comma := hcomma
      have hnone : Stop.semicolon.next u.lexeme = none := by
        unfold Stop.next
        split <;> simp_all
      exact .unexpected (by simp [advance, Goal.next, hne, hnone])

theorem follows_typedNames {k : VariableKind} :
    Follows K all (.type :: .name :: .moreNames :: g :: goals) none
      (Compiling.typedNames k fuel : Compiling σ Token) (g :: goals) some := by
  unfold Compiling.typedNames
  exact .next_then (by simp) fun t => Follows.typeOf.bind fun _ => follows_nameList

theorem follows_classVariables : Follows K all (.members :: goals) (some t)
    (Compiling.classVariables fuel t : Compiling σ Token) (.routines :: goals) some := by
  induction fuel generalizing t with
  | zero => exact .throw rfl
  | succ fuel ih =>
    unfold Compiling.classVariables
    split
    next k hk =>
      refine .token (.type :: .name :: .moreNames :: .members :: goals) ?_
        (follows_typedNames.bind fun _ => ih)
      simp [advance, Goal.next, hk]
    next hk =>
      refine .look (.routines :: goals) (by simp) ?_ (.pure rfl)
      simp [advance, Goal.next, hk]

theorem follows_localVariables {v : Bool} : Follows K all (.locals v :: goals) (some t)
    (Compiling.localVariables fuel t : Compiling σ Token) (.statements v :: goals) some := by
  induction fuel generalizing t with
  | zero => exact .throw rfl
  | succ fuel ih =>
    unfold Compiling.localVariables
    split
    next ht =>
      refine .token (.type :: .name :: .moreNames :: .locals v :: goals) ?_
        (follows_typedNames.bind fun _ => ih)
      simp [advance, Goal.next, Token.isKeyword_iff.mp ht]
    next ht =>
      have hne : t.lexeme ≠ .keyword .kwVar := mt Token.isKeyword_iff.mpr ht
      refine .look (.statements v :: goals) (by simp) ?_ (.pure rfl)
      simp [advance, Goal.next, hne]

theorem follows_parameters : Follows K all (.type :: .name :: .moreParameters :: goals) (some t)
    (Compiling.parameters fuel t : Compiling σ Token)
    (.one (.symbol .closeParen) :: goals) some := by
  induction fuel generalizing t with
  | zero => exact .throw rfl
  | succ fuel ih =>
    unfold Compiling.parameters
    refine Follows.typeOf.bind fun _ => .next_then (by simp) fun u => ?_
    refine Follows.declareName.bind fun _ => .next_then (by simp) fun w => ?_
    split
    next hw =>
      refine .token (.type :: .name :: .moreParameters :: goals) ?_
        (.next_then (by simp) fun _ => ih)
      simp [advance, Goal.next, Token.isSymbol_iff.mp hw]
    next hw =>
      have hne : w.lexeme ≠ .symbol .comma := mt Token.isSymbol_iff.mpr hw
      have hnext := next_stop_closeParen w.lexeme
      refine .look (.one (.symbol .closeParen) :: goals) (by simp) ?_ (.pure rfl)
      simp only [Goal.next] at hnext
      simp [advance, Goal.next, hne, hnext]

theorem follows_parameterList :
    Follows K all (.one (.symbol .openParen) :: .parameters :: goals) none
      (Compiling.parameterList fuel : Compiling σ Unit) goals fun _ => none := by
  have hclose {u : Token} : Follows K all (.one (.symbol .closeParen) :: goals) (some u)
      (Compiling.expect .closeParen u : Compiling σ Unit) goals fun _ => none :=
    .expect fun _ => rfl
  unfold Compiling.parameterList
  refine Follows.expectNext.bind fun _ => .next_then (by simp) fun t => ?_
  split
  next ht =>
    refine .look (.one (.symbol .closeParen) :: goals) (by simp) ?_ ?_
    · simp [advance, Goal.next, Token.isSymbol_iff.mp ht]
    · exact Follows.bind (Follows.pure rfl) fun _ => hclose
  next ht =>
    have hne : t.lexeme ≠ .symbol .closeParen := mt Token.isSymbol_iff.mpr ht
    refine .look (.type :: .name :: .moreParameters :: goals) (by simp) ?_
      (follows_parameters.bind fun _ => hclose)
    simp [advance, Goal.next, hne, Function.comp_def]

variable [CodeSink σ]

theorem follows_routineBody {r : Routine} :
    Follows (· = some r) all (.one (.symbol .openBrace) :: .locals r.returnsVoid :: goals) none
      (Compiling.routineBody r.name r.kind fuel : Compiling σ Unit) goals fun _ => none := by
  unfold Compiling.routineBody
  refine Follows.expectNext.bind fun _ => .next_then (by simp) fun t => ?_
  refine follows_localVariables.bind fun u => .silent_then .names fun d => ?_
  refine .silent_then .className fun _ => .silent_then .put fun _ => ?_
  refine .silent_then .putAll fun _ => ?_
  exact (followsStatements_goals all r fuel).statements.bind fun _ => .expectBlockEnd

theorem follows_routine {kind : RoutineKind} :
    Follows (fun _ => True) all (.routine :: g :: goals) none
      (Compiling.routine kind fuel : Compiling σ Token) (g :: goals) some := by
  unfold Compiling.routine
  refine .next_then (by simp) fun returned => Follows.checkReturnType.bind fun _ => ?_
  refine .next_then (by simp [headGoals]) fun t => .nameOf_then fun name _ => ?_
  refine .silent_then .names fun d => .silent_then .setNames fun _ => ?_
  have hinside : Follows (· = some ⟨name, kind, returned.isKeyword .kwVoid⟩) all
      (.one (.symbol .openParen) :: .parameters :: .one (.symbol .openBrace) ::
        .locals (returned.isKeyword .kwVoid) :: g :: goals) none (do
      Compiling.parameterList fuel
      Compiling.routineBody name kind fuel : Compiling σ Unit) (g :: goals) fun _ => none :=
    follows_parameterList.bind fun _ => follows_routineBody
  have hlast : Follows (fun _ => True) all (g :: goals) none (do
      Compiling.setRoutine none
      Compiling.next : Compiling σ Token) (g :: goals) some :=
    Follows.setRoutine.bind fun _ => .next (by simp)
  have hall := hinside.inside_then fun _ => hlast
  rwa [bind_assoc] at hall

theorem follows_routines : Follows (fun _ => True) all (.routines :: goals) (some t)
    (Compiling.routines fuel t : Compiling σ Token)
    (.one (.symbol .closeBrace) :: goals) some := by
  induction fuel generalizing t with
  | zero => exact .throw rfl
  | succ fuel ih =>
    unfold Compiling.routines
    split
    next kind hkind =>
      refine .token (.routine :: .routines :: goals) ?_
        (follows_routine.bind fun _ => ih)
      have hnext : nextOfRoutines t.lexeme = some [.routine, .routines] := by
        unfold routineKind? at hkind
        split at hkind <;> simp_all [nextOfRoutines]
      simp [advance, Goal.next, hnext]
    next hkind =>
      have hnext : nextOfRoutines t.lexeme = (Goal.one (.symbol .closeBrace)).next t.lexeme := by
        simp only [Goal.next]
        unfold nextOfRoutines
        split <;> simp_all [routineKind?]
      exact .look (.one (.symbol .closeBrace) :: goals) (by simp)
        (congrArg (Option.map (· ++ goals)) hnext) (.pure rfl)

theorem follows_classDeclaration : Follows (fun _ => True) all start (some t)
    (Compiling.classDeclaration fuel t : Compiling σ (Option Token)) [] id := by
  unfold Compiling.classDeclaration
  split
  next ht =>
    refine .token [.name, .one (.symbol .openBrace), .members] ?_ ?_
    · simp [start, advance, Goal.next, Token.isKeyword_iff.mp ht]
    refine .next_then (by simp) fun u => .nameOf_then fun name _ => ?_
    refine .silent_then .setClassName fun _ => ?_
    refine .silent_then .names fun d => .silent_then .setNames fun _ => ?_
    refine Follows.expectNext.bind fun _ => .next_then (by simp) fun w => ?_
    refine follows_classVariables.bind fun _ => follows_routines.bind fun last => ?_
    split
    next hlast =>
      refine .token [] ?_ .next?
      simp [advance, Goal.next, Token.isSymbol_iff.mp hlast]
    next hlast =>
      have hne : last.lexeme ≠ .symbol .closeBrace := mt Token.isSymbol_iff.mpr hlast
      exact .unexpected (by simp [advance, Goal.next, hne])
  next ht =>
    have hne : t.lexeme ≠ .keyword .kwClass := mt Token.isKeyword_iff.mpr ht
    exact .unexpected (by simp [start, advance, Goal.next, hne])

/-- A source is a class and nothing else. -/
theorem follows_wholeSource : Follows (fun _ => True) all start none
    (Compiling.wholeSource fuel : Compiling σ Unit) [] fun _ => none := by
  unfold Compiling.wholeSource
  refine .next_then (by simp [start]) fun t => follows_classDeclaration.bind fun trailing => ?_
  cases trailing with
  | some u => exact .unexpected rfl
  | none => exact .pure rfl

end Classes

end JackVM
