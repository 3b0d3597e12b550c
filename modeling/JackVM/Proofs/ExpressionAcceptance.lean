import JackVM.Proofs.Settling

namespace JackVM

/-- The token after a term must not go on with it. -/
def Lexeme.EndsTerm (x : Lexeme) : Prop :=
  x ≠ .symbol .openBracket ∧ x ≠ .symbol .openParen ∧ x ≠ .symbol .dot

def Lexeme.EndsExpression (x : Lexeme) : Prop :=
  x.EndsTerm ∧ binaryInstruction? x = none

theorem endsTerm_operator (op : BinaryOperator) : (Lexeme.symbol op.symbol).EndsTerm := by
  cases op <;> simp [Lexeme.EndsTerm, BinaryOperator.symbol]

theorem endsExpression_closeParen : (Lexeme.symbol .closeParen).EndsExpression := by
  simp [Lexeme.EndsExpression, Lexeme.EndsTerm, binaryInstruction?]

theorem endsExpression_closeBracket : (Lexeme.symbol .closeBracket).EndsExpression := by
  simp [Lexeme.EndsExpression, Lexeme.EndsTerm, binaryInstruction?]

theorem endsExpression_comma : (Lexeme.symbol .comma).EndsExpression := by
  simp [Lexeme.EndsExpression, Lexeme.EndsTerm, binaryInstruction?]

theorem endsExpression_semicolon : (Lexeme.symbol .semicolon).EndsExpression := by
  simp [Lexeme.EndsExpression, Lexeme.EndsTerm, binaryInstruction?]

mutual

theorem Term.lexemes_length_pos : (e : Term) → 0 < e.lexemes.length
  | .constant _ | .this | .variable _ | .element _ _ | .parens _ | .unary _ _ => by
    simp [Term.lexemes]
  | .call none _ _ | .call (some _) _ _ => by simp [Term.lexemes, calleeLexemes]

theorem Expression.lexemes_length_pos : (e : Expression) → 0 < e.lexemes.length
  | .chain t _ => by
    have h := t.lexemes_length_pos
    simp only [Expression.lexemes, List.length_append]
    omega

end

/-- The first of some tokens, if there is one, is of a kind. -/
def Begins (P : Lexeme → Prop) (xs : List Lexeme) : Prop :=
  ∀ x ∈ xs.head?, P x

@[simp] theorem begins_cons {P : Lexeme → Prop} {x : Lexeme} {xs : List Lexeme} :
    Begins P (x :: xs) ↔ P x := by
  simp [Begins]

theorem Begins.imp {P Q : Lexeme → Prop} {xs : List Lexeme} (h : Begins P xs)
    (hPQ : ∀ x, P x → Q x) : Begins Q xs :=
  fun x hx => hPQ x (h x hx)

/-- The first token of a part of the source, or what follows it if it has none. -/
theorem Spans.begins {P : Lexeme → Prop} {xs : List Lexeme} {t' : Token}
    {here rest : List (Except TokenError Token)} (h : Spans xs here (.ok t' :: rest))
    (hxs : Begins P (xs ++ [t'.lexeme])) : ∃ u mid, here = .ok u :: mid ∧ P u.lexeme := by
  cases xs with
  | nil => exact ⟨t', rest, spans_nil.mp h, begins_cons.mp hxs⟩
  | cons x xs =>
    obtain ⟨u, mid, rfl, hu, -⟩ := spans_cons.mp h
    exact ⟨u, mid, hu, begins_cons.mp hxs⟩

theorem Checks.begins {P : Lexeme → Prop} {ms : List Mark} {t' : Token}
    {here rest : List (Except TokenError Token)} {fault : Option CompileError}
    (h : Checks ms here (.ok t' :: rest) fault)
    (hms : Begins P (ms.map Mark.lexeme ++ [t'.lexeme])) :
    ∃ u mid, here = .ok u :: mid ∧ P u.lexeme :=
  h.spans.begins hms

/-- Where there may be a term or the end of a list or of a statement, the first token tells. -/
def Lexeme.StartsTerm (x : Lexeme) : Prop :=
  x ≠ .symbol .closeParen ∧ x ≠ .symbol .semicolon

mutual

theorem Term.begins (xs : List Lexeme) : (e : Term) → Begins Lexeme.StartsTerm (e.lexemes ++ xs)
  | .constant c => by cases c <;> simp [Term.lexemes, Constant.lexeme, Lexeme.StartsTerm]
  | .this | .variable _ | .element _ _ | .parens _ | .call none _ _ | .call (some _) _ _ => by
    simp [Term.lexemes, calleeLexemes, Lexeme.StartsTerm]
  | .unary op _ => by
    cases op <;> simp [Term.lexemes, UnaryOperator.symbol, Lexeme.StartsTerm]

theorem Expression.begins (xs : List Lexeme) :
    (e : Expression) → Begins Lexeme.StartsTerm (e.lexemes ++ xs)
  | .chain first rest => by
    rw [Expression.lexemes, List.append_assoc]
    exact first.begins _

end

/-- What follows a term is an operator or what follows the whole expression. -/
theorem begins_operations {ops : List (BinaryOperator × Term)} {xs : List Lexeme}
    (hxs : Begins Lexeme.EndsTerm xs) : Begins Lexeme.EndsTerm (operationLexemes ops ++ xs) := by
  cases ops with
  | nil => exact hxs
  | cons o ops => simp [operationLexemes, endsTerm_operator]

theorem begins_moreArguments {es : List Expression} {xs : List Lexeme} :
    Begins Lexeme.EndsExpression (moreArgumentLexemes es ++ .symbol .closeParen :: xs) := by
  cases es <;> simp [moreArgumentLexemes, endsExpression_closeParen, endsExpression_comma]

section Checks

variable {ρ : Scope} {here rest : List (Except TokenError Token)} {t' : Token}
  {fault : Option CompileError}

theorem endsTerm_of_operations {ops : List (BinaryOperator × Term)}
    (h : Checks (operationMarks ρ ops) here (.ok t' :: rest) fault) (ht' : t'.lexeme.EndsTerm) :
    ∃ u mid, here = .ok u :: mid ∧ u.lexeme.EndsTerm :=
  h.begins (by simpa using begins_operations (begins_cons.mpr ht'))

theorem endsExpression_of_arguments {es : List Expression}
    (h : Checks (moreArgumentMarks ρ es) here (.ok t' :: rest) fault)
    (ht' : t'.lexeme = .symbol .closeParen) :
    ∃ u mid, here = .ok u :: mid ∧ u.lexeme.EndsExpression :=
  h.begins (by simpa [ht'] using begins_moreArguments)

end Checks

namespace Compiling

variable {σ : Type} {r : Routine} {s : Compilation σ} {t t' : Token}
  {rest : List (Except TokenError Token)} {fault : Option CompileError}

/-- A call starts with a name and a dot or an opening parenthesis. -/
theorem call_head {ρ : Scope} {q : Option String} {f : String} {es : List Expression}
    (h : Checks (callMarks ρ q f es) (s.ahead t) rest fault) :
    ∃ x u mid, t.lexeme = .identifier x ∧ s.tokens.upcoming = .ok u :: mid ∧
      (u.lexeme = .symbol .dot ∨ u.lexeme = .symbol .openParen) := by
  cases q with
  | none =>
    obtain ⟨hx, _, h, -⟩ := Compilation.checks_ahead h
    obtain ⟨u, mid, hu, hup, -⟩ := checks_free_cons.mp h
    exact ⟨f, u, mid, hx, hup, Or.inr hu⟩
  | some q =>
    obtain ⟨hx, h⟩ := Compilation.checks_free_ahead.mp h
    obtain ⟨u, mid, hu, hup, -⟩ := checks_free_cons.mp h
    exact ⟨q, u, mid, hx, hup, Or.inl hu⟩

variable [CodeSink σ] [OpenSink σ]

/-- A function has no current object to push. -/
theorem pushThis_settles (hs : s.routine = some r) :
    s.Settles (pushThis t.line) ((Rule.object (s.scope r)).fault? t) (s.scope r).thisCode 0 ()
      s.tokens.upcoming := by
  unfold pushThis
  refine .check_then (currentRoutine_run hs) ?_
  rw [Option.map_some]
  cases hk : r.kind with
  | function =>
    have hobject : ¬(s.scope r).HasObject := fun h => h hk
    rw [Rule.fault?, if_neg hobject]
    exact ⟨s, rfl⟩
  | constructor | method =>
    have hobject : (s.scope r).HasObject := by simp [Scope.HasObject, Compilation.scope, hk]
    rw [Rule.fault?, if_pos hobject]
    exact ⟨s.tokens, by simp [put_run, Scope.thisCode, Compilation.scope, hk], rfl⟩

theorem pushObject_settles {name : String} (hs : s.routine = some r)
    (hl : t.lexeme = .identifier name) :
    s.Settles (pushObject t.line name) ((Rule.member (s.scope r)).fault? t) [.push .pointer 0] 0 ()
      s.tokens.upcoming := by
  have htext : t.lexeme.text = name := by rw [hl]; rfl
  unfold pushObject
  refine .check_then (currentRoutine_run hs) ?_
  rw [Option.map_some]
  cases hk : r.kind with
  | function =>
    have hobject : ¬(s.scope r).HasObject := fun h => h hk
    rw [Rule.fault?, if_neg hobject, htext]
    exact ⟨s, rfl⟩
  | constructor | method =>
    have hobject : (s.scope r).HasObject := by simp [Scope.HasObject, Compilation.scope, hk]
    rw [Rule.fault?, if_pos hobject]
    exact ⟨s.tokens, put_run s _, rfl⟩

theorem pushVariable_passes {name : String} {v : Variable} (hv : s.names.find? name = some v) :
    s.Passes (pushVariable v) ((s.scope r).pushCode name) 0 () s.tokens.upcoming := by
  refine ⟨s.tokens, ?_, rfl⟩
  simp [pushVariable, put_run, Scope.pushCode, Compilation.scope, hv]

theorem putAll_passes (code : List Instruction) :
    s.Passes (putAll code) code 0 () s.tokens.upcoming :=
  ⟨s.tokens, putAll_run s code, rfl⟩

theorem callee_settles {q : Option String} {f : String}
    (h : Checks (calleeMarks (s.scope r) q f) (s.ahead t) rest fault) (hs : s.routine = some r) :
    s.Settles (callee t) fault ((s.scope r).receiverCode q) 0
      ((s.scope r).callee q f, ((s.scope r).receiverCode q).length) rest := by
  cases q with
  | none =>
    obtain ⟨hf, _, hopen, rfl⟩ := Compilation.checks_ahead h
    obtain ⟨u, mid, hu, hup, hend⟩ := checks_free_cons.mp hopen
    obtain ⟨rfl, rfl⟩ := checks_nil.mp hend
    refine .check_then (nameOf_of_lexeme hf) (.silent_then (.next_last hup) fun τ hτ => ?_)
    simp only [hu]
    have hs' : (s.after τ [] 0).routine = some r := hs
    rw [Scope.receiverCode, ← List.append_nil [_]]
    refine .code_then (pushObject_settles hs' hf) fun τ1 hτ1 => ?_
    exact .check_then (className_run _) (.pure_last (hτ1.trans hτ))
  | some q =>
    obtain ⟨hname, h⟩ := Compilation.checks_free_ahead.mp h
    obtain ⟨u, mid, hdot, hup, h⟩ := checks_free_cons.mp h
    obtain ⟨w, mid1, hf, rfl, hopen⟩ := checks_free_cons.mp h
    refine .check_then (nameOf_of_lexeme hname) (.silent_then (.next_last hup) fun τ hτ => ?_)
    simp only [hdot]
    refine .silent_then (.next_last hτ) fun τ1 hτ1 => ?_
    refine .check_then (nameOf_of_lexeme hf) ?_
    rw [← hτ1] at hopen
    refine .expectNext_then hopen fun τ2 hτ2 => .check_then (names_run _) ?_
    obtain ⟨hend, rfl⟩ := checks_nil.mp hτ2
    simp only [Compilation.after_names]
    cases hv : s.names.find? q with
    | none =>
      simp only [hv, Scope.receiverCode, Scope.pushCode, Scope.callee, Compilation.scope]
      exact .pure_last hend
    | some v =>
      simp only [hv, Scope.receiverCode, Scope.pushCode, Scope.callee, Compilation.scope]
      exact .put_then (.pure_last hend)

theorem term_constant {c : Constant} (h : t.lexeme = c.lexeme) (fuel : Nat) :
    term (fuel + 1) t s = next (s.after s.tokens c.code 0) := by
  cases c with
  | integer digits =>
    simp only [Constant.lexeme] at h
    simp only [term, beginTerm_then, h]
    rw [bind_of_ok (put_run _ _)]
    rfl
  | string text =>
    simp only [Constant.lexeme] at h
    simp only [term, beginTerm_then, h]
    rw [bind_of_ok (putAll_run _ _)]
    rfl
  | true =>
    simp only [Constant.lexeme] at h
    simp only [term, beginTerm_then, h]
    rw [bind_of_ok (put_run _ _), bind_of_ok (put_run _ _)]
    simp [Constant.code]
  | false =>
    simp only [Constant.lexeme] at h
    simp only [term, beginTerm_then, h]
    rw [bind_of_ok (put_run _ _)]
    rfl
  | null =>
    simp only [Constant.lexeme] at h
    simp only [term, beginTerm_then, h]
    rw [bind_of_ok (put_run _ _)]
    rfl

/-- What the grammar gives is read up to the first token that breaks its rule, where the depth of
recursion allows for its tokens. -/
structure FollowsGrammar (σ : Type) [CodeSink σ] [OpenSink σ] (r : Routine) (fuel : Nat) :
    Prop where
  expression {s : Compilation σ} {t t' : Token} {rest : List (Except TokenError Token)}
    {fault : Option CompileError} {e : Expression} : 4 * e.lexemes.length ≤ fuel + 2 →
    t'.lexeme.EndsExpression → Checks (e.marks (s.scope r)) (s.ahead t) (.ok t' :: rest) fault →
    s.routine = some r →
    s.Settles (expression fuel t) fault (e.code (s.scope r)) 0 t' rest
  operators {s : Compilation σ} {t t' : Token} {rest : List (Except TokenError Token)}
    {fault : Option CompileError} {ops : List (BinaryOperator × Term)} :
    4 * (operationLexemes ops).length + 1 ≤ fuel → t'.lexeme.EndsExpression →
    Checks (operationMarks (s.scope r) ops) (s.ahead t) (.ok t' :: rest) fault →
    s.routine = some r →
    s.Settles (operators fuel t) fault (operationCode (s.scope r) ops) 0 t' rest
  term {s : Compilation σ} {t t' : Token} {rest : List (Except TokenError Token)}
    {fault : Option CompileError} {e : Term} : 4 * e.lexemes.length ≤ fuel + 3 →
    t'.lexeme.EndsTerm → Checks (e.marks (s.scope r)) (s.ahead t) (.ok t' :: rest) fault →
    s.routine = some r →
    s.Settles (term fuel t) fault (e.code (s.scope r)) 0 t' rest
  call {s : Compilation σ} {t t' : Token} {rest : List (Except TokenError Token)}
    {fault : Option CompileError} {q : Option String} {f : String} {es : List Expression} :
    4 * (callLexemes q f es).length ≤ fuel + 4 →
    Checks (callMarks (s.scope r) q f es) (s.ahead t) (.ok t' :: rest) fault → s.routine = some r →
    s.Settles (call fuel t) fault (callCode (s.scope r) q f es) 0 t' rest
  arguments {s : Compilation σ} {t' : Token} {rest : List (Except TokenError Token)}
    {fault : Option CompileError} {es : List Expression} :
    4 * (argumentLexemes es).length + 1 ≤ fuel → t'.lexeme = .symbol .closeParen →
    Checks (argumentMarks (s.scope r) es) s.tokens.upcoming (.ok t' :: rest) fault →
    s.routine = some r →
    s.Settles (arguments fuel) fault (argumentCode (s.scope r) es) 0 (es.length, t') rest
  moreArguments {s : Compilation σ} {n : Nat} {t t' : Token}
    {rest : List (Except TokenError Token)} {fault : Option CompileError} {es : List Expression} :
    4 * (moreArgumentLexemes es).length + 1 ≤ fuel → t'.lexeme = .symbol .closeParen →
    Checks (moreArgumentMarks (s.scope r) es) (s.ahead t) (.ok t' :: rest) fault →
    s.routine = some r →
    s.Settles (moreArguments fuel n t) fault (argumentCode (s.scope r) es) 0 (n + es.length, t')
      rest

namespace FollowsGrammar

variable {fuel : Nat} (ih : FollowsGrammar σ r fuel)

include ih

theorem expression_succ {e : Expression} (hfuel : 4 * e.lexemes.length ≤ fuel + 1 + 2)
    (ht' : t'.lexeme.EndsExpression)
    (h : Checks (e.marks (s.scope r)) (s.ahead t) (.ok t' :: rest) fault)
    (hs : s.routine = some r) :
    s.Settles (Compiling.expression (fuel + 1) t) fault (e.code (s.scope r)) 0 t' rest := by
  obtain ⟨first, ops⟩ := e
  have hpos := first.lexemes_length_pos
  simp only [Expression.lexemes, List.length_append] at hfuel
  obtain ⟨mid, _, _, hfirst, hops, rfl⟩ := checks_append.mp h
  obtain ⟨u, mid, rfl, hu⟩ := endsTerm_of_operations hops ht'.1
  unfold Compiling.expression
  refine (ih.term (by omega) hu hfirst hs).code_then fun τ hτ => ?_
  rw [← hτ] at hops
  exact ih.operators (by omega) ht' hops hs

theorem operators_succ {ops : List (BinaryOperator × Term)}
    (hfuel : 4 * (operationLexemes ops).length + 1 ≤ fuel + 1) (ht' : t'.lexeme.EndsExpression)
    (h : Checks (operationMarks (s.scope r) ops) (s.ahead t) (.ok t' :: rest) fault)
    (hs : s.routine = some r) :
    s.Settles (Compiling.operators (fuel + 1) t) fault (operationCode (s.scope r) ops) 0 t'
      rest := by
  cases ops with
  | nil =>
    obtain ⟨hhere, rfl⟩ := checks_nil.mp h
    obtain ⟨rfl, hrest⟩ : t = t' ∧ s.tokens.upcoming = rest := by
      simpa [Compilation.ahead] using hhere
    simp only [Compiling.operators, ht'.2]
    exact .pure_last hrest
  | cons o ops =>
    obtain ⟨op, e⟩ := o
    simp only [operationLexemes, List.length_cons, List.length_append] at hfuel
    obtain ⟨hop, h⟩ := Compilation.checks_free_ahead.mp h
    simp only [Compiling.operators, hop, binaryInstruction?_symbol, operationCode]
    refine .next_then h fun u τ hu => ?_
    obtain ⟨mid, _, _, he, hrest, rfl⟩ := checks_append.mp hu
    obtain ⟨v, mid, rfl, hv⟩ := endsTerm_of_operations hrest ht'.1
    refine .code_then (ih.term (by omega) hv he hs) fun τ1 hτ1 => .put_then ?_
    rw [← hτ1] at hrest
    exact ih.operators (by omega) ht' hrest hs

theorem arguments_succ {es : List Expression}
    (hfuel : 4 * (argumentLexemes es).length + 1 ≤ fuel + 1) (ht' : t'.lexeme = .symbol .closeParen)
    (h : Checks (argumentMarks (s.scope r) es) s.tokens.upcoming (.ok t' :: rest) fault)
    (hs : s.routine = some r) :
    s.Settles (Compiling.arguments (fuel + 1)) fault (argumentCode (s.scope r) es) 0
      (es.length, t') rest := by
  unfold Compiling.arguments
  cases es with
  | nil =>
    obtain ⟨hhere, rfl⟩ := checks_nil.mp h
    refine .silent_then (.next_last hhere) fun τ hτ => ?_
    rw [if_pos (Token.isSymbol_iff.mpr ht')]
    exact .pure_last hτ
  | cons e es =>
    have hpos := e.lexemes_length_pos
    simp only [argumentLexemes, List.length_append] at hfuel
    refine .next_then h fun u τ hu => ?_
    obtain ⟨mid, _, _, he, hrest, rfl⟩ := checks_append.mp hu
    obtain ⟨v, mid, rfl, hv⟩ := endsExpression_of_arguments hrest ht'
    obtain ⟨_, _, hahead, hstarts⟩ := he.begins (by simpa using e.begins [v.lexeme])
    cases hahead
    have hopen : ¬u.isSymbol .closeParen = true :=
      fun hu => hstarts.1 (Token.isSymbol_iff.mp hu)
    rw [if_neg hopen, argumentCode, List.length_cons, Nat.add_comm es.length]
    refine .code_then (ih.expression (by omega) hv he hs) fun τ1 hτ1 => ?_
    rw [← hτ1] at hrest
    exact ih.moreArguments (by omega) ht' hrest hs

theorem moreArguments_succ {n : Nat} {es : List Expression}
    (hfuel : 4 * (moreArgumentLexemes es).length + 1 ≤ fuel + 1)
    (ht' : t'.lexeme = .symbol .closeParen)
    (h : Checks (moreArgumentMarks (s.scope r) es) (s.ahead t) (.ok t' :: rest) fault)
    (hs : s.routine = some r) :
    s.Settles (Compiling.moreArguments (fuel + 1) n t) fault (argumentCode (s.scope r) es) 0
      (n + es.length, t') rest := by
  unfold Compiling.moreArguments
  cases es with
  | nil =>
    obtain ⟨hhere, rfl⟩ := checks_nil.mp h
    obtain ⟨rfl, hrest⟩ : t = t' ∧ s.tokens.upcoming = rest := by
      simpa [Compilation.ahead] using hhere
    simp only [Token.isSymbol, ht']
    exact .pure_last hrest
  | cons e es =>
    simp only [moreArgumentLexemes, List.length_cons, List.length_append] at hfuel
    obtain ⟨hcomma, h⟩ := Compilation.checks_free_ahead.mp h
    rw [if_pos (Token.isSymbol_iff.mpr hcomma), argumentCode, List.length_cons,
      Nat.add_comm es.length, ← Nat.add_assoc]
    refine .next_then h fun u τ hu => ?_
    obtain ⟨mid, _, _, he, hrest, rfl⟩ := checks_append.mp hu
    obtain ⟨v, mid, rfl, hv⟩ := endsExpression_of_arguments hrest ht'
    refine .code_then (ih.expression (by omega) hv he hs) fun τ1 hτ1 => ?_
    rw [← hτ1] at hrest
    exact ih.moreArguments (by omega) ht' hrest hs

theorem call_succ {q : Option String} {f : String} {es : List Expression}
    (hfuel : 4 * (callLexemes q f es).length ≤ fuel + 1 + 4)
    (h : Checks (callMarks (s.scope r) q f es) (s.ahead t) (.ok t' :: rest) fault)
    (hs : s.routine = some r) :
    s.Settles (Compiling.call (fuel + 1) t) fault (callCode (s.scope r) q f es) 0 t' rest := by
  have hpos : 2 ≤ (calleeLexemes q f).length := by cases q <;> simp [calleeLexemes]
  simp only [callLexemes, List.length_append, List.length_cons, List.length_nil] at hfuel
  obtain ⟨mid, _, _, hcallee, hlist, rfl⟩ := checks_append.mp h
  obtain ⟨mid1, _, _, hargs, hrest, rfl⟩ := checks_append.mp hlist
  obtain ⟨u, mid2, hclose, rfl, hend⟩ := checks_free_cons.mp hrest
  obtain ⟨rfl, rfl⟩ := checks_nil.mp hend
  unfold Compiling.call callCode
  refine .code_then (callee_settles hcallee hs) fun τ hτ => ?_
  rw [← hτ] at hargs
  refine .code_then (ih.arguments (by omega) hclose hargs hs) fun τ1 hτ1 => ?_
  exact .check_then (expect_of_lexeme hclose) (.put_then (.next_last hτ1))

theorem element_succ {x : String} {i : Expression}
    (hfuel : 4 * (Term.element x i).lexemes.length ≤ fuel + 1 + 3)
    (h : Checks ((Term.element x i).marks (s.scope r)) (s.ahead t) (.ok t' :: rest) fault)
    (hs : s.routine = some r) :
    s.Settles (Compiling.term (fuel + 1) t) fault ((Term.element x i).code (s.scope r)) 0 t'
      rest := by
  simp only [Term.lexemes, List.length_append, List.length_cons, List.length_nil] at hfuel
  obtain ⟨hname, _, hmarks, rfl⟩ := Compilation.checks_ahead h
  simp only [Compiling.term, beginTerm_then, hname, Term.code]
  refine .next_then hmarks fun u τ hu => ?_
  obtain ⟨hopen, htail⟩ := Compilation.checks_free_ahead.mp hu
  simp only [hopen]
  refine .variableOf_then hname fun v hv => ?_
  refine .pass_then (pushVariable_passes hv) fun τ1 hτ1 => ?_
  rw [← hτ1] at htail
  refine .next_then htail fun w τ2 hw => ?_
  obtain ⟨mid, _, _, hindex, hrest, rfl⟩ := checks_append.mp hw
  obtain ⟨c, mid1, hclose, rfl, hend⟩ := checks_free_cons.mp hrest
  obtain ⟨rfl, rfl⟩ := checks_nil.mp hend
  have hends : c.lexeme.EndsExpression := hclose ▸ endsExpression_closeBracket
  refine .code_then (ih.expression (by omega) hends hindex hs) fun τ3 hτ3 => ?_
  refine .check_then (expect_of_lexeme hclose) (.put_then (.put_then (.put_then ?_)))
  exact .next_last hτ3

theorem unary_succ {op : UnaryOperator} {e : Term}
    (hfuel : 4 * (Term.unary op e).lexemes.length ≤ fuel + 1 + 3) (ht' : t'.lexeme.EndsTerm)
    (h : Checks ((Term.unary op e).marks (s.scope r)) (s.ahead t) (.ok t' :: rest) fault)
    (hs : s.routine = some r) :
    s.Settles (Compiling.term (fuel + 1) t) fault ((Term.unary op e).code (s.scope r)) 0 t'
      rest := by
  simp only [Term.lexemes, List.length_cons] at hfuel
  obtain ⟨hop, hrest⟩ := Compilation.checks_free_ahead.mp h
  rw [← Option.or_none (o := fault)]
  cases op with
  | negate =>
    rw [UnaryOperator.symbol] at hop
    simp only [Compiling.term, beginTerm_then, hop, Term.code]
    refine .next_then hrest fun u τ hu => ?_
    refine .code_then (ih.term (by omega) ht' hu hs) fun τ1 hτ1 => ?_
    exact .put_then (.pure_last hτ1)
  | complement =>
    rw [UnaryOperator.symbol] at hop
    simp only [Compiling.term, beginTerm_then, hop, Term.code]
    refine .next_then hrest fun u τ hu => ?_
    refine .code_then (ih.term (by omega) ht' hu hs) fun τ1 hτ1 => ?_
    exact .put_then (.pure_last hτ1)

/-- The token after the first name of a call is read, taken back and read again. -/
theorem term_call_succ {q : Option String} {f : String} {es : List Expression}
    (hfuel : 4 * (callLexemes q f es).length ≤ fuel + 1 + 3)
    (h : Checks (callMarks (s.scope r) q f es) (s.ahead t) (.ok t' :: rest) fault)
    (hs : s.routine = some r) :
    s.Settles (Compiling.term (fuel + 1) t) fault (callCode (s.scope r) q f es) 0 t' rest := by
  obtain ⟨x, u, mid, hname, hu, hnext⟩ := call_head h
  obtain ⟨τ, hn, rfl, hback⟩ := next_of_upcoming hu
  obtain ⟨τ1, hun, hu1⟩ := unread_of_canUnread (s := s.after τ [] 0) hback
  have hsame : s.ahead t = (s.after τ1 [] 0).ahead t := by simp [Compilation.ahead, hu, hu1]
  rw [hsame] at h
  have hcall := ih.call (s := s.after τ1 [] 0) hfuel h hs
  have hagain : Compiling.term (fuel + 1) t s = Compiling.call fuel t (s.after τ1 [] 0) := by
    simp only [Compiling.term, beginTerm_then, hname]
    rw [bind_of_ok hn]
    rcases hnext with hdot | hopen
    · simp only [hdot]
      rw [bind_of_ok hun]
      simp
    · simp only [hopen]
      rw [bind_of_ok hun]
      simp
  simpa using Compilation.Settles.of_eq hagain hcall

theorem term_succ {e : Term} (hfuel : 4 * e.lexemes.length ≤ fuel + 1 + 3)
    (ht' : t'.lexeme.EndsTerm)
    (h : Checks (e.marks (s.scope r)) (s.ahead t) (.ok t' :: rest) fault)
    (hs : s.routine = some r) :
    s.Settles (Compiling.term (fuel + 1) t) fault (e.code (s.scope r)) 0 t' rest := by
  cases e with
  | constant c =>
    obtain ⟨hl, h⟩ := Compilation.checks_free_ahead.mp h
    obtain ⟨hrest, rfl⟩ := checks_nil.mp h
    obtain ⟨τ, hn, rfl, -⟩ := next_of_upcoming (s := s.after s.tokens c.code 0) hrest
    refine ⟨τ, ?_, rfl⟩
    rw [term_constant hl, hn]
    simp [Term.code]
  | this =>
    obtain ⟨hl, _, hend, rfl⟩ := Compilation.checks_ahead h
    obtain ⟨hrest, rfl⟩ := checks_nil.mp hend
    simp only [Compiling.term, beginTerm_then, hl]
    rw [Term.code, ← List.append_nil (s.scope r).thisCode]
    exact .code_then (pushThis_settles hs) fun τ hτ => .next_last (hτ.trans hrest)
  | «variable» x =>
    obtain ⟨hname, _, hend, rfl⟩ := Compilation.checks_ahead h
    obtain ⟨hrest, rfl⟩ := checks_nil.mp hend
    simp only [Compiling.term, beginTerm_then, hname]
    refine .silent_then (.next_last hrest) fun τ hτ => ?_
    have hrun : (s.after τ [] 0).Settles (do pushVariable (← variableOf t); pure t')
        (((Rule.known (s.scope r)).fault? t).or none) (Term.code (s.scope r) (.variable x)) 0 t'
        rest := by
      rw [Term.code, ← List.append_nil ((s.scope r).pushCode x)]
      refine .variableOf_then hname fun v hv => ?_
      exact .pass_then (pushVariable_passes hv) fun τ1 hτ1 => .pure_last (hτ1.trans hτ)
    split
    next hl => exact absurd hl ht'.1
    next hl => exact absurd hl ht'.2.1
    next hl => exact absurd hl ht'.2.2
    next => exact hrun
  | element x i => exact ih.element_succ hfuel h hs
  | call q f es => exact ih.term_call_succ hfuel h hs
  | parens e =>
    simp only [Term.lexemes, List.length_cons, List.length_append, List.length_nil] at hfuel
    obtain ⟨hopen, h⟩ := Compilation.checks_free_ahead.mp h
    simp only [Compiling.term, beginTerm_then, hopen]
    rw [Term.code, ← List.append_nil (e.code (s.scope r))]
    refine .next_then h fun u τ hu => ?_
    obtain ⟨mid, _, _, hinner, hrest, rfl⟩ := checks_append.mp hu
    obtain ⟨c, mid1, hclose, rfl, hend⟩ := checks_free_cons.mp hrest
    obtain ⟨rfl, rfl⟩ := checks_nil.mp hend
    have hends : c.lexeme.EndsExpression := hclose ▸ endsExpression_closeParen
    refine .code_then (ih.expression (by omega) hends hinner hs) fun τ1 hτ1 => ?_
    exact .check_then (expect_of_lexeme hclose) (.next_last hτ1)
  | unary op e => exact ih.unary_succ hfuel ht' h hs

end FollowsGrammar

theorem followsGrammar (r : Routine) (fuel : Nat) : FollowsGrammar σ r fuel := by
  induction fuel with
  | zero =>
    constructor
    case expression =>
      intro s t t' rest fault e hfuel
      have hpos := e.lexemes_length_pos
      omega
    case term =>
      intro s t t' rest fault e hfuel
      have hpos := e.lexemes_length_pos
      omega
    case call =>
      intro s t t' rest fault q f es hfuel
      have hpos : 2 ≤ (callLexemes q f es).length := by
        cases q <;> simp [callLexemes, calleeLexemes]
      omega
    all_goals
      intros
      omega
  | succ fuel ih =>
    exact ⟨ih.expression_succ, ih.operators_succ, ih.term_succ, ih.call_succ, ih.arguments_succ,
      ih.moreArguments_succ⟩

end Compiling

end JackVM
