import JackVM.Proofs.ExpressionReading
import JackVM.Proofs.Sentences

namespace JackVM

/-- What an expression may end with. -/
inductive Stop where
  | closeParen
  | closeBracket
  | semicolon
  /-- A comma and more arguments, or the end of the arguments. -/
  | arguments
  deriving DecidableEq, Repr

/-- A part of the source that is still to come. A goal that ends with a choice takes in what follows
the choice, so that each goal starts with a token of its own. -/
inductive Goal where
  | one (x : Lexeme)
  | name
  | type
  | stop (stop : Stop)
  /-- The rest of an expression from a term on. -/
  | term (stop : Stop)
  /-- The rest of an expression that a name was read of. -/
  | afterName (stop : Stop)
  | operators (stop : Stop)
  /-- Arguments up to their closing parenthesis. -/
  | arguments
  /-- A call that the first name was read of. -/
  | afterCallee
  /-- An assignment that the name was read of. -/
  | afterTarget
  /-- The value that is given back, if any, up to the semicolon. -/
  | value (isVoid : Bool)
  /-- Statements up to the closing brace. -/
  | statements (isVoid : Bool)
  /-- What follows the first block of a branch, and the statements after it. -/
  | otherwise (isVoid : Bool)
  | moreNames
  | parameters
  | moreParameters
  /-- The declarations of a subroutine and its statements. -/
  | locals (isVoid : Bool)
  /-- A subroutine that the kind was read of. -/
  | routine
  /-- Subroutines up to the brace that closes the class. -/
  | routines
  | members
  deriving DecidableEq, Repr

section Next

def Stop.next : Stop → Lexeme → Option (List Goal)
  | closeParen, .symbol .closeParen => some []
  | closeBracket, .symbol .closeBracket => some []
  | semicolon, .symbol .semicolon => some []
  | arguments, .symbol .closeParen => some []
  | arguments, .symbol .comma => some [.term .arguments]
  | _, _ => none

def nextOfType : Lexeme → Option (List Goal)
  | .keyword .kwInt | .keyword .kwChar | .keyword .kwBoolean | .identifier _ => some []
  | _ => none

def nextOfTerm (stop : Stop) : Lexeme → Option (List Goal)
  | .integer _ | .string _ | .keyword .kwTrue | .keyword .kwFalse | .keyword .kwNull
  | .keyword .kwThis => some [.operators stop]
  | .symbol .openParen => some [.term .closeParen, .operators stop]
  | .symbol .minus | .symbol .tilde => some [.term stop]
  | .identifier _ => some [.afterName stop]
  | _ => none

def nextOfOperators (stop : Stop) (x : Lexeme) : Option (List Goal) :=
  if (binaryInstruction? x).isSome then some [.term stop] else stop.next x

def nextAfterCallee : Lexeme → Option (List Goal)
  | .symbol .openParen => some [.arguments]
  | .symbol .dot => some [.name, .one (.symbol .openParen), .arguments]
  | _ => none

def nextAfterName (stop : Stop) (x : Lexeme) : Option (List Goal) :=
  if x = .symbol .openBracket then some [.term .closeBracket, .operators stop]
  else
    match nextAfterCallee x with
    | some goals => some (goals ++ [.operators stop])
    | none => nextOfOperators stop x

def nextAfterTarget : Lexeme → Option (List Goal)
  | .symbol .openBracket => some [.term .closeBracket, .one (.symbol .equal), .term .semicolon]
  | .symbol .equal => some [.term .semicolon]
  | _ => none

def nextOfStatements (isVoid : Bool) : Lexeme → Option (List Goal)
  | .keyword .kwLet => some [.name, .afterTarget, .statements isVoid]
  | .keyword .kwIf =>
    some [.one (.symbol .openParen), .term .closeParen, .one (.symbol .openBrace),
      .statements isVoid, .otherwise isVoid]
  | .keyword .kwWhile =>
    some [.one (.symbol .openParen), .term .closeParen, .one (.symbol .openBrace),
      .statements isVoid, .statements isVoid]
  | .keyword .kwDo =>
    some [.name, .afterCallee, .one (.symbol .semicolon), .statements isVoid]
  | .keyword .kwReturn => some [.value isVoid, .statements isVoid]
  | .symbol .closeBrace => some []
  | _ => none

def nextOfRoutines : Lexeme → Option (List Goal)
  | .keyword .kwConstructor | .keyword .kwFunction | .keyword .kwMethod =>
    some [.routine, .routines]
  | .symbol .closeBrace => some []
  | _ => none

/-- What follows the type of a subroutine. -/
def headGoals (isVoid : Bool) : List Goal :=
  [.name, .one (.symbol .openParen), .parameters, .one (.symbol .openBrace), .locals isVoid]

/-- The goals that a token leaves of a goal. -/
def Goal.next : Goal → Lexeme → Option (List Goal)
  | one y, x => if x = y then some [] else none
  | name, x => if x.name?.isSome then some [] else none
  | type, x => nextOfType x
  | stop s, x => s.next x
  | term s, x => nextOfTerm s x
  | afterName s, x => nextAfterName s x
  | operators s, x => nextOfOperators s x
  | arguments, x => if x = .symbol .closeParen then some [] else nextOfTerm .arguments x
  | afterCallee, x => nextAfterCallee x
  | afterTarget, x => nextAfterTarget x
  | value true, x => if x = .symbol .semicolon then some [] else none
  | value false, x => nextOfTerm .semicolon x
  | statements v, x => nextOfStatements v x
  | otherwise v, x =>
    if x = .keyword .kwElse then some [.one (.symbol .openBrace), .statements v, .statements v]
    else nextOfStatements v x
  | moreNames, x =>
    if x = .symbol .comma then some [.name, .moreNames] else Stop.semicolon.next x
  | parameters, x =>
    if x = .symbol .closeParen then some []
    else (nextOfType x).map fun goals => goals ++ [.name, .moreParameters]
  | moreParameters, x =>
    if x = .symbol .comma then some [.type, .name, .moreParameters] else Stop.closeParen.next x
  | locals v, x =>
    if x = .keyword .kwVar then some [.type, .name, .moreNames, .locals v]
    else nextOfStatements v x
  | routine, x =>
    if x = .keyword .kwVoid then some (headGoals true)
    else (nextOfType x).map fun goals => goals ++ headGoals false
  | routines, x => nextOfRoutines x
  | members, x =>
    if (classVariableKind? x).isSome then some [.type, .name, .moreNames, .members]
    else nextOfRoutines x

end Next

/-- The goals that a token leaves of some goals in order. -/
def advance : List Goal → Lexeme → Option (List Goal)
  | [], _ => none
  | g :: goals, x => (g.next x).map (· ++ goals)

def consume (goals : List Goal) : List Lexeme → Option (List Goal)
  | [] => some goals
  | x :: xs => (advance goals x).bind fun left => consume left xs

/-- Tokens that may end an expression. -/
def Stop.Yields : Stop → List Lexeme → Prop
  | closeParen, w => w = [.symbol .closeParen]
  | closeBracket, w => w = [.symbol .closeBracket]
  | semicolon, w => w = [.symbol .semicolon]
  | arguments, w => ∃ es, w = moreArgumentLexemes es ++ [.symbol .closeParen]

/-- What a call has after its first name. -/
def IsCallTail (w : List Lexeme) : Prop :=
  (∃ es, w = .symbol .openParen :: (argumentLexemes es ++ [.symbol .closeParen])) ∨
    ∃ f es, w = .symbol .dot :: .identifier f :: .symbol .openParen ::
      (argumentLexemes es ++ [.symbol .closeParen])

/-- What a term that starts with a name has after it. -/
def IsNameTail (w : List Lexeme) : Prop :=
  w = [] ∨ (∃ i : Expression, w = .symbol .openBracket :: (i.lexemes ++ [.symbol .closeBracket])) ∨
    IsCallTail w

/-- The tokens that a goal stands for, as parts of the tree of a class. -/
def Goal.Yields : Goal → List Lexeme → Prop
  | one x, w => w = [x]
  | name, w => ∃ x, w = [.identifier x]
  | type, w => ∃ ty : TypeName, w = [ty.lexeme]
  | stop s, w => s.Yields w
  | term s, w => ∃ (e : Expression) (z : List Lexeme), s.Yields z ∧ w = e.lexemes ++ z
  | afterName s, w => ∃ tail ops z, IsNameTail tail ∧ s.Yields z ∧
      w = tail ++ (operationLexemes ops ++ z)
  | operators s, w => ∃ ops z, s.Yields z ∧ w = operationLexemes ops ++ z
  | arguments, w => ∃ es, w = argumentLexemes es ++ [.symbol .closeParen]
  | afterCallee, w => IsCallTail w
  | afterTarget, w =>
    (∃ e : Expression, w = .symbol .equal :: (e.lexemes ++ [.symbol .semicolon])) ∨
      ∃ i e : Expression, w = .symbol .openBracket :: (i.lexemes ++ .symbol .closeBracket ::
        .symbol .equal :: (e.lexemes ++ [.symbol .semicolon]))
  | value true, w => w = [.symbol .semicolon]
  | value false, w => ∃ e : Expression, w = e.lexemes ++ [.symbol .semicolon]
  | statements v, w => ∃ ss, StatementsReturn v ss ∧ w = statementLexemes ss ++ [.symbol .closeBrace]
  | otherwise v, w => (∃ ss, StatementsReturn v ss ∧
        w = statementLexemes ss ++ [.symbol .closeBrace]) ∨
      ∃ no ss, StatementsReturn v no ∧ StatementsReturn v ss ∧
        w = .keyword .kwElse :: (braced (statementLexemes no) ++
          (statementLexemes ss ++ [.symbol .closeBrace]))
  | moreNames, w => ∃ xs : List String,
      w = xs.flatMap (fun x => [.symbol .comma, .identifier x]) ++ [.symbol .semicolon]
  | parameters, w => ∃ ps, w = parameterLexemes ps ++ [.symbol .closeParen]
  | moreParameters, w => ∃ ps : List Parameter,
      w = ps.flatMap (fun p => .symbol .comma :: p.lexemes) ++ [.symbol .closeParen]
  | locals v, w => ∃ (gs : List NameGroup) (ss : List Statement), StatementsReturn v ss ∧
      w = gs.flatMap (fun g => .keyword .kwVar :: g.lexemes) ++
        (statementLexemes ss ++ [.symbol .closeBrace])
  | routine, w => ∃ r : RoutineTree, r.Grammatical ∧ r.lexemes = r.kind.lexeme :: w
  | routines, w => ∃ rs : List RoutineTree, (∀ r ∈ rs, r.Grammatical) ∧
      w = rs.flatMap RoutineTree.lexemes ++ [.symbol .closeBrace]
  | members, w => ∃ (vs : List ClassVariables) (rs : List RoutineTree),
      (∀ r ∈ rs, r.Grammatical) ∧ w = vs.flatMap ClassVariables.lexemes ++
        (rs.flatMap RoutineTree.lexemes ++ [.symbol .closeBrace])

/-- The tokens that goals stand for one after the other. -/
def AllYield : List Goal → List Lexeme → Prop
  | [], w => w = []
  | g :: goals, w => ∃ u v, w = u ++ v ∧ g.Yields u ∧ AllYield goals v

section AllYield

variable {goals more : List Goal} {g : Goal} {u v w : List Lexeme}

theorem allYield_nil : AllYield [] w ↔ w = [] := Iff.rfl

theorem AllYield.cons (hu : g.Yields u) (hv : AllYield goals v) : AllYield (g :: goals) (u ++ v) :=
  ⟨u, v, rfl, hu, hv⟩

theorem allYield_singleton : AllYield [g] w ↔ g.Yields w := by
  constructor
  · rintro ⟨u, _, rfl, hu, rfl⟩
    rwa [List.append_nil]
  · intro h
    exact ⟨w, [], by simp, h, rfl⟩

theorem allYield_one {x : Lexeme} :
    AllYield (.one x :: goals) w ↔ ∃ v, w = x :: v ∧ AllYield goals v := by
  constructor
  · rintro ⟨u, v, rfl, rfl, hv⟩
    exact ⟨v, rfl, hv⟩
  · rintro ⟨v, rfl, hv⟩
    exact ⟨[x], v, rfl, rfl, hv⟩

theorem allYield_name :
    AllYield (.name :: goals) w ↔ ∃ x v, w = .identifier x :: v ∧ AllYield goals v := by
  constructor
  · rintro ⟨u, v, rfl, ⟨x, rfl⟩, hv⟩
    exact ⟨x, v, rfl, hv⟩
  · rintro ⟨x, v, rfl, hv⟩
    exact ⟨[.identifier x], v, rfl, ⟨x, rfl⟩, hv⟩

theorem allYield_append : AllYield (goals ++ more) w ↔
    ∃ u v, w = u ++ v ∧ AllYield goals u ∧ AllYield more v := by
  induction goals generalizing w with
  | nil => exact ⟨fun h => ⟨[], w, rfl, rfl, h⟩, by rintro ⟨u, v, rfl, rfl, h⟩; exact h⟩
  | cons g goals ih =>
    constructor
    · rintro ⟨a, b, rfl, ha, hb⟩
      obtain ⟨c, d, rfl, hc, hd⟩ := ih.mp hb
      exact ⟨a ++ c, d, by simp, ⟨a, c, rfl, ha, hc⟩, hd⟩
    · rintro ⟨u, d, rfl, ⟨a, c, rfl, ha, hc⟩, hd⟩
      exact ⟨a, c ++ d, by simp, ha, ih.mpr ⟨c, d, rfl, hc, hd⟩⟩

end AllYield

section Tokens

variable {s : Stop} {x : Lexeme} {w : List Lexeme} {goals : List Goal} {isVoid : Bool}

theorem Stop.yields_cons :
    s.Yields (x :: w) ↔ ∃ goals, s.next x = some goals ∧ AllYield goals w := by
  constructor
  · intro h
    cases s with
    | closeParen | closeBracket | semicolon =>
      obtain ⟨rfl, rfl⟩ := List.cons.inj h
      exact ⟨[], rfl, rfl⟩
    | arguments =>
      obtain ⟨_ | ⟨e, es⟩, h⟩ := h
      · obtain ⟨rfl, rfl⟩ := List.cons.inj h
        exact ⟨[], rfl, rfl⟩
      · rw [moreArgumentLexemes, List.cons_append, List.append_assoc] at h
        obtain ⟨rfl, rfl⟩ := List.cons.inj h
        exact ⟨[.term .arguments], rfl, allYield_singleton.mpr ⟨e, _, ⟨es, rfl⟩, rfl⟩⟩
  · rintro ⟨goals, h, hw⟩
    unfold Stop.next at h
    split at h <;> cases h
    next => exact congrArg _ hw
    next => exact congrArg _ hw
    next => exact congrArg _ hw
    next => exact ⟨[], congrArg _ hw⟩
    next =>
      obtain ⟨e, z, ⟨es, rfl⟩, rfl⟩ := allYield_singleton.mp hw
      exact ⟨e :: es, by simp [moreArgumentLexemes]⟩

theorem Stop.binaryInstruction?_eq_none (h : s.Yields (x :: w)) : binaryInstruction? x = none := by
  obtain ⟨goals, hnext, -⟩ := Stop.yields_cons.mp h
  unfold Stop.next at hnext
  split at hnext
  all_goals first | rfl | cases hnext

theorem yields_operators_cons : (Goal.operators s).Yields (x :: w) ↔
    ∃ goals, nextOfOperators s x = some goals ∧ AllYield goals w := by
  unfold nextOfOperators
  constructor
  · rintro ⟨_ | ⟨⟨op, t⟩, ops⟩, z, hz, h⟩
    · subst h
      rw [s.binaryInstruction?_eq_none hz]
      exact Stop.yields_cons.mp hz
    · rw [operationLexemes, List.cons_append, List.append_assoc] at h
      obtain ⟨rfl, rfl⟩ := List.cons.inj h
      refine ⟨[.term s], by simp [binaryInstruction?_symbol], allYield_singleton.mpr ?_⟩
      exact ⟨.chain t ops, z, hz, by simp [Expression.lexemes]⟩
  · rintro ⟨goals, h, hw⟩
    split at h
    next hx =>
      cases h
      obtain ⟨i, hi⟩ := Option.isSome_iff_exists.mp hx
      obtain ⟨op, rfl, -⟩ := operator_of_binaryInstruction? hi
      obtain ⟨⟨t, ops⟩, z, hz, rfl⟩ := allYield_singleton.mp hw
      exact ⟨(op, t) :: ops, z, hz, by simp [operationLexemes, Expression.lexemes]⟩
    next => exact ⟨[], _, Stop.yields_cons.mpr ⟨goals, h, hw⟩, rfl⟩

/-- A name and what may follow it make a term. -/
theorem exists_term_of_isNameTail {tail : List Lexeme} (h : IsNameTail tail) (name : String) :
    ∃ t : Term, t.lexemes = .identifier name :: tail := by
  rcases h with rfl | ⟨i, rfl⟩ | ⟨es, rfl⟩ | ⟨f, es, rfl⟩
  · exact ⟨.variable name, rfl⟩
  · exact ⟨.element name i, rfl⟩
  · exact ⟨.call none name es, rfl⟩
  · exact ⟨.call (some name) f es, rfl⟩

theorem yields_term_of_lexemes {t : Term} {u v : List Lexeme} (ht : t.lexemes = x :: u)
    (hv : (Goal.operators s).Yields v) : (Goal.term s).Yields (x :: (u ++ v)) := by
  obtain ⟨ops, z, hz, rfl⟩ := hv
  exact ⟨.chain t ops, z, hz, by simp [Expression.lexemes, ht]⟩

theorem next_of_yields_term (h : (Goal.term s).Yields (x :: w)) :
    ∃ goals, nextOfTerm s x = some goals ∧ AllYield goals w := by
  obtain ⟨⟨t, ops⟩, z, hz, h⟩ := h
  have hops : AllYield [.operators s] (operationLexemes ops ++ z) :=
    allYield_singleton.mpr ⟨ops, z, hz, rfl⟩
  have hname {tail : List Lexeme} (htail : IsNameTail tail) :
      AllYield [.afterName s] (tail ++ (operationLexemes ops ++ z)) :=
    allYield_singleton.mpr ⟨tail, ops, z, htail, hz, rfl⟩
  rw [Expression.lexemes, List.append_assoc] at h
  cases t with
  | constant c =>
    obtain ⟨rfl, rfl⟩ := List.cons.inj h
    exact ⟨[.operators s], by cases c <;> rfl, hops⟩
  | this =>
    obtain ⟨rfl, rfl⟩ := List.cons.inj h
    exact ⟨[.operators s], rfl, hops⟩
  | «variable» name =>
    obtain ⟨rfl, rfl⟩ := List.cons.inj h
    exact ⟨[.afterName s], rfl, hname (.inl rfl)⟩
  | element name i =>
    obtain ⟨rfl, rfl⟩ := List.cons.inj h
    exact ⟨[.afterName s], rfl, hname (.inr (.inl ⟨i, rfl⟩))⟩
  | call q f es =>
    cases q with
    | none =>
      obtain ⟨rfl, rfl⟩ := List.cons.inj h
      exact ⟨[.afterName s], rfl, hname (.inr (.inr (.inl ⟨es, rfl⟩)))⟩
    | some q =>
      obtain ⟨rfl, rfl⟩ := List.cons.inj h
      exact ⟨[.afterName s], rfl, hname (.inr (.inr (.inr ⟨f, es, rfl⟩)))⟩
  | parens e =>
    obtain ⟨rfl, rfl⟩ := List.cons.inj h
    exact ⟨[.term .closeParen, .operators s], rfl, .cons ⟨e, _, rfl, rfl⟩ hops⟩
  | unary op t =>
    obtain ⟨rfl, rfl⟩ := List.cons.inj h
    refine ⟨[.term s], by cases op <;> rfl, allYield_singleton.mpr ⟨.chain t ops, z, hz, ?_⟩⟩
    simp [Expression.lexemes]

theorem yields_term_of_next (h : nextOfTerm s x = some goals) (hw : AllYield goals w) :
    (Goal.term s).Yields (x :: w) := by
  have hone {t : Term} (ht : t.lexemes = [x]) (hv : AllYield [.operators s] w) :
      (Goal.term s).Yields (x :: w) :=
    yields_term_of_lexemes ht (allYield_singleton.mp hv)
  have hunary (op : UnaryOperator) (hx : x = .symbol op.symbol) (hv : AllYield [.term s] w) :
      (Goal.term s).Yields (x :: w) := by
    obtain ⟨⟨t, ops⟩, z, hz, rfl⟩ := allYield_singleton.mp hv
    exact ⟨.chain (.unary op t) ops, z, hz, by simp [Expression.lexemes, Term.lexemes, hx]⟩
  unfold nextOfTerm at h
  split at h <;> cases h
  next digits => exact hone (t := .constant (.integer digits)) rfl hw
  next text => exact hone (t := .constant (.string text)) rfl hw
  next => exact hone (t := .constant .true) rfl hw
  next => exact hone (t := .constant .false) rfl hw
  next => exact hone (t := .constant .null) rfl hw
  next => exact hone (t := .this) rfl hw
  next =>
    obtain ⟨u, v, rfl, ⟨e, z, rfl, rfl⟩, hv⟩ := hw
    exact yields_term_of_lexemes (t := .parens e) rfl (allYield_singleton.mp hv)
  next => exact hunary .negate rfl hw
  next => exact hunary .complement rfl hw
  next name =>
    obtain ⟨tail, ops, z, htail, hz, rfl⟩ := allYield_singleton.mp hw
    obtain ⟨t, ht⟩ := exists_term_of_isNameTail htail name
    exact yields_term_of_lexemes ht ⟨ops, z, hz, rfl⟩

theorem yields_term_cons : (Goal.term s).Yields (x :: w) ↔
    ∃ goals, nextOfTerm s x = some goals ∧ AllYield goals w :=
  ⟨next_of_yields_term, fun ⟨_, h, hw⟩ => yields_term_of_next h hw⟩

theorem isCallTail_cons : IsCallTail (x :: w) ↔
    ∃ goals, nextAfterCallee x = some goals ∧ AllYield goals w := by
  constructor
  · rintro (⟨es, h⟩ | ⟨f, es, h⟩) <;> obtain ⟨rfl, rfl⟩ := List.cons.inj h
    · exact ⟨[.arguments], rfl, allYield_singleton.mpr ⟨es, rfl⟩⟩
    · refine ⟨[.name, .one (.symbol .openParen), .arguments], rfl, ?_⟩
      simp only [allYield_name, allYield_one, allYield_singleton]
      exact ⟨f, _, rfl, _, rfl, es, rfl⟩
  · rintro ⟨goals, h, hw⟩
    unfold nextAfterCallee at h
    split at h <;> cases h
    next =>
      obtain ⟨es, rfl⟩ := allYield_singleton.mp hw
      exact .inl ⟨es, rfl⟩
    next =>
      simp only [allYield_name, allYield_one, allYield_singleton] at hw
      obtain ⟨f, _, rfl, _, rfl, es, rfl⟩ := hw
      exact .inr ⟨f, es, rfl⟩

theorem not_isCallTail_nil : ¬IsCallTail [] := by
  rintro (⟨es, h⟩ | ⟨f, es, h⟩) <;> cases h

/-- After a name, operators and what ends an expression are told from the rest of a term. -/
theorem nextAfterName_of_operators (h : nextOfOperators s x = some goals) :
    nextAfterName s x = some goals := by
  have hopen : x ≠ .symbol .openBracket := by
    rintro rfl
    cases s <;> cases h
  have hcall : nextAfterCallee x = none := by
    unfold nextAfterCallee
    split
    next => cases s <;> cases h
    next => cases s <;> cases h
    next => rfl
  simp [nextAfterName, hopen, hcall, h]

theorem yields_afterName_cons : (Goal.afterName s).Yields (x :: w) ↔
    ∃ goals, nextAfterName s x = some goals ∧ AllYield goals w := by
  constructor
  · rintro ⟨tail, ops, z, htail, hz, h⟩
    have hops : AllYield [.operators s] (operationLexemes ops ++ z) :=
      allYield_singleton.mpr ⟨ops, z, hz, rfl⟩
    rcases htail with rfl | ⟨i, rfl⟩ | hcall
    · obtain ⟨goals, hnext, hw⟩ := yields_operators_cons.mp ⟨ops, z, hz, h⟩
      exact ⟨goals, nextAfterName_of_operators hnext, hw⟩
    · obtain ⟨rfl, rfl⟩ := List.cons.inj h
      exact ⟨[.term .closeBracket, .operators s], rfl, .cons ⟨i, _, rfl, rfl⟩ hops⟩
    · cases tail with
      | nil => exact absurd hcall not_isCallTail_nil
      | cons y tail =>
        obtain ⟨rfl, rfl⟩ := List.cons.inj h
        obtain ⟨goals, hnext, htail⟩ := isCallTail_cons.mp hcall
        have hopen : x ≠ .symbol .openBracket := by
          rintro rfl
          cases hnext
        refine ⟨goals ++ [Goal.operators s], by simp [nextAfterName, hopen, hnext], ?_⟩
        exact allYield_append.mpr ⟨tail, _, rfl, htail, hops⟩
  · rintro ⟨goals, h, hw⟩
    unfold nextAfterName at h
    split at h
    next hx =>
      cases h
      obtain ⟨u, v, rfl, ⟨i, z, rfl, rfl⟩, hv⟩ := hw
      obtain ⟨ops, z, hz, rfl⟩ := allYield_singleton.mp hv
      exact ⟨_, ops, z, .inr (.inl ⟨i, rfl⟩), hz, by rw [hx]; rfl⟩
    next =>
      split at h
      next goals' hnext =>
        cases h
        obtain ⟨u, v, rfl, hu, hv⟩ := allYield_append.mp hw
        obtain ⟨ops, z, hz, rfl⟩ := allYield_singleton.mp hv
        exact ⟨x :: u, ops, z, .inr (.inr (isCallTail_cons.mpr ⟨_, hnext, hu⟩)), hz, rfl⟩
      next =>
        obtain ⟨ops, z, hz, h⟩ := yields_operators_cons.mpr ⟨goals, h, hw⟩
        exact ⟨[], ops, z, .inl rfl, hz, h⟩

theorem yields_arguments_cons : Goal.arguments.Yields (x :: w) ↔
    ∃ goals, Goal.arguments.next x = some goals ∧ AllYield goals w := by
  constructor
  · rintro ⟨_ | ⟨e, es⟩, h⟩
    · obtain ⟨rfl, rfl⟩ := List.cons.inj h
      exact ⟨[], rfl, rfl⟩
    · have hterm : (Goal.term .arguments).Yields (x :: w) :=
        ⟨e, _, ⟨es, rfl⟩, by rw [h, argumentLexemes, List.append_assoc]⟩
      obtain ⟨goals, hnext, hw⟩ := yields_term_cons.mp hterm
      have hx : x ≠ .symbol .closeParen := by
        rintro rfl
        cases hnext
      exact ⟨goals, by simpa [Goal.next, hx] using hnext, hw⟩
  · rintro ⟨goals, h, hw⟩
    simp only [Goal.next] at h
    split at h
    next hx =>
      cases h
      exact ⟨[], by rw [hx, allYield_nil.mp hw]; rfl⟩
    next =>
      obtain ⟨e, z, ⟨es, rfl⟩, h⟩ := yields_term_cons.mpr ⟨goals, h, hw⟩
      exact ⟨e :: es, by rw [h, argumentLexemes, List.append_assoc]⟩

theorem yields_afterTarget_cons : Goal.afterTarget.Yields (x :: w) ↔
    ∃ goals, nextAfterTarget x = some goals ∧ AllYield goals w := by
  constructor
  · rintro (⟨e, h⟩ | ⟨i, e, h⟩) <;> obtain ⟨rfl, rfl⟩ := List.cons.inj h
    · exact ⟨[.term .semicolon], rfl, allYield_singleton.mpr ⟨e, _, rfl, rfl⟩⟩
    · have hvalue : AllYield [.term .semicolon] (e.lexemes ++ [Lexeme.symbol .semicolon]) :=
        allYield_singleton.mpr ⟨e, _, rfl, rfl⟩
      have hindex : (Goal.term .closeBracket).Yields (i.lexemes ++ [Lexeme.symbol .closeBracket]) :=
        ⟨i, _, rfl, rfl⟩
      refine ⟨[.term .closeBracket, .one (.symbol .equal), .term .semicolon], rfl, ?_⟩
      simpa using AllYield.cons hindex (allYield_one.mpr ⟨_, rfl, hvalue⟩)
  · rintro ⟨goals, h, hw⟩
    unfold nextAfterTarget at h
    split at h <;> cases h
    next =>
      obtain ⟨u, v, rfl, ⟨i, z, rfl, rfl⟩, hv⟩ := hw
      obtain ⟨v', rfl, hv'⟩ := allYield_one.mp hv
      obtain ⟨e, z, rfl, rfl⟩ := allYield_singleton.mp hv'
      exact .inr ⟨i, e, by simp⟩
    next =>
      obtain ⟨e, z, rfl, rfl⟩ := allYield_singleton.mp hw
      exact .inl ⟨e, rfl⟩

end Tokens

end JackVM
