import JackVM.Proofs.Steps
import JackVM.Proofs.TreeCode

namespace JackVM

theorem binaryInstruction?_symbol (op : BinaryOperator) :
    binaryInstruction? (.symbol op.symbol) = some op.instruction := by
  cases op <;> rfl

theorem operator_of_binaryInstruction? {x : Lexeme} {i : Instruction}
    (h : binaryInstruction? x = some i) :
    ∃ op : BinaryOperator, x = .symbol op.symbol ∧ i = op.instruction := by
  unfold binaryInstruction? at h
  split at h <;> cases h
  · exact ⟨.add, rfl, rfl⟩
  · exact ⟨.subtract, rfl, rfl⟩
  · exact ⟨.multiply, rfl, rfl⟩
  · exact ⟨.divide, rfl, rfl⟩
  · exact ⟨.and, rfl, rfl⟩
  · exact ⟨.or, rfl, rfl⟩
  · exact ⟨.less, rfl, rfl⟩
  · exact ⟨.greater, rfl, rfl⟩
  · exact ⟨.equal, rfl, rfl⟩

namespace Compilation

variable {σ : Type}

/-- The scope of a subroutine's statements. -/
def scope (s : Compilation σ) (r : Routine) : Scope :=
  ⟨s.className, r, s.names.find?⟩

variable [CodeSink σ] [OpenSink σ]

@[simp] theorem scope_after (s : Compilation σ) (r : Routine) (τ : TokenStream)
    (code : List Instruction) (n : Nat) : (s.after τ code n).scope r = s.scope r := rfl

/-- From one state to another lie tokens with these lexemes, and their code is put. The last token
read is not one of them. -/
def Yields (s : Compilation σ) (here : List (Except TokenError Token)) (xs : List Lexeme)
    (code : List Instruction) (labels : Nat) (t' : Token) (s' : Compilation σ) : Prop :=
  ∃ τ, s' = s.after τ code labels ∧ Spans xs here (.ok t' :: τ.upcoming)

end Compilation

namespace Compiling

variable {σ : Type} [CodeSink σ] [OpenSink σ] {r : Routine} {s s' : Compilation σ} {t t' : Token}

theorem pushThis_ok {line : Nat} {u : Unit} (h : pushThis line s = .ok u s')
    (hs : s.routine = some r) :
    (s.scope r).HasObject ∧ s' = s.after s.tokens (s.scope r).thisCode 0 := by
  unfold pushThis at h
  replace h := currentRoutine_then h hs
  rw [Option.map_some] at h
  cases hk : r.kind with
  | constructor | method =>
    simp only [hk] at h
    exact ⟨by simp [Scope.HasObject, Compilation.scope, hk], by
      simpa [Scope.thisCode, Compilation.scope, hk] using put_ok h⟩
  | function =>
    simp only [hk] at h
    exact (throw_ok h).elim

theorem pushObject_ok {line : Nat} {name : String} {u : Unit}
    (h : pushObject line name s = .ok u s') (hs : s.routine = some r) :
    (s.scope r).HasObject ∧ s' = s.after s.tokens [.push .pointer 0] 0 := by
  unfold pushObject at h
  replace h := currentRoutine_then h hs
  rw [Option.map_some] at h
  cases hk : r.kind with
  | constructor | method =>
    simp only [hk] at h
    exact ⟨by simp [Scope.HasObject, Compilation.scope, hk], put_ok h⟩
  | function =>
    simp only [hk] at h
    exact (throw_ok h).elim

theorem pushVariable_ok {name : String} {v : Variable} {u : Unit}
    (h : pushVariable v s = .ok u s') (hv : s.names.find? name = some v) :
    (s.scope r).Declares name ∧ s' = s.after s.tokens ((s.scope r).pushCode name) 0 := by
  unfold pushVariable at h
  exact ⟨by simp [Scope.Declares, Compilation.scope, hv], by
    simpa [Scope.pushCode, Compilation.scope, hv] using put_ok h⟩

/-- What is pushed and named before the arguments of a call. -/
theorem callee_ok {full : String} {receivers : Nat} (h : callee t s = .ok (full, receivers) s')
    (hs : s.routine = some r) :
    ∃ q f τ, (q = none → (s.scope r).HasObject) ∧ full = (s.scope r).callee q f ∧
      receivers = ((s.scope r).receiverCode q).length ∧
      s' = s.after τ ((s.scope r).receiverCode q) 0 ∧
      Spans (calleeLexemes q f) (s.ahead t) τ.upcoming := by
  unfold callee at h
  obtain ⟨name, mid, h1, h⟩ := bind_ok h
  obtain ⟨hname, rfl⟩ := nameOf_ok h1
  obtain ⟨u, τ, hu, -, h⟩ := next_then h
  obtain ⟨y, hy, h⟩ := of_run h
  split at hy <;> subst hy
  next hdot =>
    obtain ⟨w, τ1, hw, -, h⟩ := next_then h
    obtain ⟨member, mid, h1, h⟩ := bind_ok h
    obtain ⟨hmember, rfl⟩ := nameOf_ok h1
    obtain ⟨τ2, hopen, h⟩ := expectNext_then h
    rw [bind_of_ok (names_run _)] at h
    have hspan : Spans (calleeLexemes (some name) member) (s.ahead t) τ2.upcoming := by
      simp only [Compilation.after_tokens] at hw hopen
      rw [Compilation.ahead, hu, hw]
      exact .cons hname (.cons hdot (.cons hmember hopen))
    obtain ⟨y, hy, h⟩ := of_run h
    split at hy <;> subst hy
    next v hv =>
      have hf : s.names.find? name = some v := hv
      obtain ⟨u2, mid, h1, h⟩ := bind_ok h
      obtain ⟨-, rfl⟩ := pushVariable_ok (r := r) h1 hv
      obtain ⟨he, rfl⟩ := pure_ok h
      cases he
      refine ⟨some name, member, τ2, by simp, ?_, ?_, by simp [Scope.receiverCode], hspan⟩
      · simp [Scope.callee, Compilation.scope, hf]
      · simp [Scope.receiverCode, Scope.pushCode, Compilation.scope, hf]
    next hv =>
      have hf : s.names.find? name = none := hv
      obtain ⟨he, rfl⟩ := pure_ok h
      cases he
      refine ⟨some name, member, τ2, by simp, ?_, ?_, ?_, hspan⟩
      · simp [Scope.callee, Compilation.scope, hf]
      · simp [Scope.receiverCode, Scope.pushCode, Compilation.scope, hf]
      · simp [Scope.receiverCode, Scope.pushCode, Compilation.scope, hf]
  next hopen =>
    obtain ⟨u1, mid, h1, h⟩ := bind_ok h
    obtain ⟨hobject, rfl⟩ := pushObject_ok h1 hs
    rw [bind_of_ok (className_run _)] at h
    obtain ⟨he, rfl⟩ := pure_ok h
    cases he
    refine ⟨none, name, τ, fun _ => hobject, rfl, rfl, by simp [Scope.receiverCode], ?_⟩
    rw [Compilation.ahead, hu]
    exact .cons hname (.cons hopen (spans_nil.mpr rfl))
  next => exact (throw_ok h).elim

theorem constant_yields (c : Constant) (hl : t.lexeme = c.lexeme)
    (h : next (s.after s.tokens c.code 0) = .ok t' s') :
    ∃ e : Term, e.Scoped (s.scope r) ∧
      s.Yields (s.ahead t) e.lexemes (e.code (s.scope r)) 0 t' s' := by
  obtain ⟨τ, rfl, hu, -⟩ := next_ok h
  exact ⟨.constant c, trivial, τ, by simp [Term.code], .cons hl (spans_nil.mpr hu)⟩

/-- All that is read up to a depth of recursion is as the grammar says. -/
structure ReadsGrammar (σ : Type) [CodeSink σ] [OpenSink σ] (r : Routine) (fuel : Nat) : Prop where
  expression {s s' : Compilation σ} {t t' : Token} :
    expression fuel t s = .ok t' s' → s.routine = some r → ∃ e : Expression, e.Scoped (s.scope r) ∧
      s.Yields (s.ahead t) e.lexemes (e.code (s.scope r)) 0 t' s'
  operators {s s' : Compilation σ} {t t' : Token} :
    operators fuel t s = .ok t' s' → s.routine = some r →
    ∃ rest, OperationsScoped (s.scope r) rest ∧
      s.Yields (s.ahead t) (operationLexemes rest) (operationCode (s.scope r) rest) 0 t' s'
  term {s s' : Compilation σ} {t t' : Token} :
    term fuel t s = .ok t' s' → s.routine = some r → ∃ e : Term, e.Scoped (s.scope r) ∧
      s.Yields (s.ahead t) e.lexemes (e.code (s.scope r)) 0 t' s'
  call {s s' : Compilation σ} {t t' : Token} :
    call fuel t s = .ok t' s' → s.routine = some r → ∃ q f es, (q = none → (s.scope r).HasObject) ∧
      ArgumentsScoped (s.scope r) es ∧
      s.Yields (s.ahead t) (callLexemes q f es) (callCode (s.scope r) q f es) 0 t' s'
  arguments {s s' : Compilation σ} {n : Nat} {t' : Token} :
    arguments fuel s = .ok (n, t') s' → s.routine = some r →
    ∃ es, n = es.length ∧ ArgumentsScoped (s.scope r) es ∧
      s.Yields s.tokens.upcoming (argumentLexemes es) (argumentCode (s.scope r) es) 0 t' s'
  moreArguments {s s' : Compilation σ} {m n : Nat} {t t' : Token} :
    moreArguments fuel m t s = .ok (n, t') s' → s.routine = some r → ∃ es, n = m + es.length ∧
      ArgumentsScoped (s.scope r) es ∧
      s.Yields (s.ahead t) (moreArgumentLexemes es) (argumentCode (s.scope r) es) 0 t' s'

namespace ReadsGrammar

variable {fuel : Nat} (ih : ReadsGrammar σ r fuel)

include ih

theorem expression_succ (h : Compiling.expression (fuel + 1) t s = .ok t' s')
    (hs : s.routine = some r) :
    ∃ e : Expression, e.Scoped (s.scope r) ∧
      s.Yields (s.ahead t) e.lexemes (e.code (s.scope r)) 0 t' s' := by
  unfold Compiling.expression at h
  obtain ⟨u, mid, h1, h⟩ := bind_ok h
  obtain ⟨first, hfirst, τ, rfl, hspan⟩ := ih.term h1 hs
  obtain ⟨rest, hrest, τ', rfl, hspan'⟩ := ih.operators h hs
  exact ⟨.chain first rest, ⟨hfirst, hrest⟩, τ', by simp [Expression.code], hspan.trans hspan'⟩

theorem operators_succ (h : Compiling.operators (fuel + 1) t s = .ok t' s')
    (hs : s.routine = some r) :
    ∃ rest, OperationsScoped (s.scope r) rest ∧
      s.Yields (s.ahead t) (operationLexemes rest) (operationCode (s.scope r) rest) 0 t' s' := by
  unfold Compiling.operators at h
  obtain ⟨y, hy, h⟩ := of_run h
  split at hy <;> subst hy
  next =>
    obtain ⟨rfl, rfl⟩ := pure_ok h
    exact ⟨[], trivial, s.tokens, rfl, spans_nil.mpr rfl⟩
  next i hi =>
    obtain ⟨op, hop, rfl⟩ := operator_of_binaryInstruction? hi
    obtain ⟨u, τ, hu, -, h⟩ := next_then h
    obtain ⟨v, mid, h1, h⟩ := bind_ok h
    obtain ⟨e, he, τ1, rfl, hspan⟩ := ih.term h1 hs
    replace h := put_then h
    obtain ⟨rest, hrest, τ2, rfl, hspan'⟩ := ih.operators h hs
    refine ⟨(op, e) :: rest, ⟨he, hrest⟩, τ2, by simp [operationCode], ?_⟩
    rw [Compilation.ahead, hu]
    exact .cons hop (hspan.trans hspan')

theorem arguments_succ {n : Nat} (h : Compiling.arguments (fuel + 1) s = .ok (n, t') s')
    (hs : s.routine = some r) :
    ∃ es, n = es.length ∧ ArgumentsScoped (s.scope r) es ∧
      s.Yields s.tokens.upcoming (argumentLexemes es) (argumentCode (s.scope r) es) 0 t' s' := by
  unfold Compiling.arguments at h
  obtain ⟨t, τ, hu, -, h⟩ := next_then h
  obtain ⟨y, hy, h⟩ := of_run h
  split at hy <;> subst hy
  next =>
    obtain ⟨he, rfl⟩ := pure_ok h
    cases he
    exact ⟨[], rfl, trivial, τ, rfl, spans_nil.mpr hu⟩
  next =>
    obtain ⟨v, mid, h1, h⟩ := bind_ok h
    obtain ⟨e, he, τ1, rfl, hspan⟩ := ih.expression h1 hs
    obtain ⟨es, hn, hes, τ2, rfl, hspan'⟩ := ih.moreArguments h hs
    refine ⟨e :: es, by simp [hn, Nat.add_comm], ⟨he, hes⟩, τ2, by simp [argumentCode], ?_⟩
    rw [hu]
    exact hspan.trans hspan'

theorem moreArguments_succ {m n : Nat}
    (h : Compiling.moreArguments (fuel + 1) m t s = .ok (n, t') s')
    (hs : s.routine = some r) :
    ∃ es, n = m + es.length ∧ ArgumentsScoped (s.scope r) es ∧
      s.Yields (s.ahead t) (moreArgumentLexemes es) (argumentCode (s.scope r) es) 0 t' s' := by
  unfold Compiling.moreArguments at h
  obtain ⟨y, hy, h⟩ := of_run h
  split at hy <;> subst hy
  next hc =>
    obtain ⟨u, τ, hu, -, h⟩ := next_then h
    obtain ⟨v, mid, h1, h⟩ := bind_ok h
    obtain ⟨e, he, τ1, rfl, hspan⟩ := ih.expression h1 hs
    obtain ⟨es, hn, hes, τ2, rfl, hspan'⟩ := ih.moreArguments h hs
    refine ⟨e :: es, by simp only [hn, List.length_cons]; omega, ⟨he, hes⟩, τ2,
      by simp [argumentCode], ?_⟩
    rw [Compilation.ahead, hu]
    exact .cons (Token.isSymbol_iff.mp hc) (hspan.trans hspan')
  next =>
    obtain ⟨he, rfl⟩ := pure_ok h
    cases he
    exact ⟨[], rfl, trivial, s.tokens, rfl, spans_nil.mpr rfl⟩

theorem call_succ (h : Compiling.call (fuel + 1) t s = .ok t' s')
    (hs : s.routine = some r) :
    ∃ q f es, (q = none → (s.scope r).HasObject) ∧ ArgumentsScoped (s.scope r) es ∧
      s.Yields (s.ahead t) (callLexemes q f es) (callCode (s.scope r) q f es) 0 t' s' := by
  unfold Compiling.call at h
  obtain ⟨⟨full, receivers⟩, mid, h1, h⟩ := bind_ok h
  obtain ⟨q, f, τ, hq, rfl, rfl, rfl, hspan⟩ := callee_ok h1 hs
  obtain ⟨⟨n, u⟩, mid, h1, h⟩ := bind_ok h
  obtain ⟨es, rfl, hes, τ1, rfl, hspan1⟩ := ih.arguments h1 hs
  obtain ⟨hclose, h⟩ := expect_then h
  replace h := put_then h
  obtain ⟨τ2, rfl, hu, -⟩ := next_ok h
  refine ⟨q, f, es, hq, hes, τ2, by simp [callCode], hspan.trans (hspan1.trans ?_)⟩
  simp only [Compilation.after_tokens] at hu
  rw [hu]
  exact .cons hclose (spans_nil.mpr rfl)

theorem unary_yields (op : UnaryOperator) (hl : t.lexeme = .symbol op.symbol)
    (h : (do
      let t ← next
      let t ← Compiling.term fuel t
      put (.op op.operation)
      pure t : Compiling σ Token) s = .ok t' s')
    (hs : s.routine = some r) :
    ∃ e : Term, e.Scoped (s.scope r) ∧
      s.Yields (s.ahead t) e.lexemes (e.code (s.scope r)) 0 t' s' := by
  obtain ⟨u, τ, hu, -, h⟩ := next_then h
  obtain ⟨u1, mid, h1, h⟩ := bind_ok h
  obtain ⟨e, he, τ1, rfl, hspan⟩ := ih.term h1 hs
  replace h := put_then h
  obtain ⟨rfl, rfl⟩ := pure_ok h
  refine ⟨.unary op e, he, τ1, by simp [Term.code], ?_⟩
  rw [Compilation.ahead, hu]
  exact .cons hl hspan

/-- The token after the first name of a call is read twice. -/
theorem unread_call {after : Token} {τ : TokenStream}
    (hu : s.tokens.upcoming = .ok after :: τ.upcoming) (hback : τ.CanUnread after)
    (h : (do
      unread
      Compiling.call fuel t : Compiling σ Token) (s.after τ [] 0) = .ok t' s')
    (hs : s.routine = some r) :
    ∃ e : Term, e.Scoped (s.scope r) ∧
      s.Yields (s.ahead t) e.lexemes (e.code (s.scope r)) 0 t' s' := by
  obtain ⟨τ1, hun, hu1⟩ := unread_of_canUnread (s := s.after τ [] 0) hback
  rw [bind_of_ok hun] at h
  obtain ⟨q, f, es, hq, hes, τ2, rfl, hspan⟩ := ih.call h hs
  refine ⟨.call q f es, ⟨hq, hes⟩, τ2, by simp [Term.code, callCode], ?_⟩
  have ht : s.ahead t = ((s.after τ [] 0).after τ1 [] 0).ahead t := by
    simp [Compilation.ahead, hu, hu1]
  rw [ht]
  exact hspan

theorem term_succ (h : Compiling.term (fuel + 1) t s = .ok t' s')
    (hs : s.routine = some r) :
    ∃ e : Term, e.Scoped (s.scope r) ∧
      s.Yields (s.ahead t) e.lexemes (e.code (s.scope r)) 0 t' s' := by
  unfold Compiling.term at h
  rw [beginTerm_then] at h
  obtain ⟨y, hy, h⟩ := of_run h
  split at hy <;> subst hy
  next digits hl =>
    replace h := put_then h
    exact constant_yields (.integer digits) hl h
  next text hl =>
    obtain ⟨_, mid, h1, h⟩ := bind_ok h
    obtain rfl := putAll_ok h1
    exact constant_yields (.string text) hl h
  next hl =>
    replace h := put_then h
    replace h := put_then h
    simp only [Compilation.after_after] at h
    exact constant_yields .true hl h
  next hl =>
    replace h := put_then h
    exact constant_yields .false hl h
  next hl =>
    replace h := put_then h
    exact constant_yields .null hl h
  next hl =>
    obtain ⟨_, mid, h1, h⟩ := bind_ok h
    obtain ⟨hobj, rfl⟩ := pushThis_ok h1 hs
    obtain ⟨τ, rfl, hu, -⟩ := next_ok h
    exact ⟨.this, hobj, τ, by simp [Term.code], .cons hl (spans_nil.mpr hu)⟩
  next hl =>
    obtain ⟨u, τ, hu, -, h⟩ := next_then h
    obtain ⟨u1, mid, h1, h⟩ := bind_ok h
    obtain ⟨e, he, τ1, rfl, hspan⟩ := ih.expression h1 hs
    obtain ⟨hclose, h⟩ := expect_then h
    obtain ⟨τ2, rfl, hu2, -⟩ := next_ok h
    refine ⟨.parens e, he, τ2, by simp [Term.code], ?_⟩
    rw [Compilation.ahead, hu]
    exact .cons hl (hspan.trans (.cons hclose (spans_nil.mpr hu2)))
  next hl => exact ih.unary_yields .negate hl h hs
  next hl => exact ih.unary_yields .complement hl h hs
  next name hl =>
    obtain ⟨u, τ, hu, hback, h⟩ := next_then h
    obtain ⟨y, hy, h⟩ := of_run h
    split at hy <;> subst hy
    next hopen =>
      obtain ⟨v, mid, h1, h⟩ := bind_ok h
      obtain ⟨x, hx, hv, rfl⟩ := variableOf_ok h1
      obtain ⟨_, mid, h1, h⟩ := bind_ok h
      obtain ⟨hd, rfl⟩ := pushVariable_ok (r := r) h1 hv
      obtain ⟨u1, τ1, hu1, -, h⟩ := next_then h
      obtain ⟨u2, mid, h1, h⟩ := bind_ok h
      obtain ⟨e, he, τ2, rfl, hspan⟩ := ih.expression h1 hs
      obtain ⟨hclose, h⟩ := expect_then h
      replace h := put_then h
      replace h := put_then h
      replace h := put_then h
      obtain ⟨τ3, rfl, hu3, -⟩ := next_ok h
      refine ⟨.element x e, ⟨hd, he⟩, τ3, by simp [Term.code], ?_⟩
      simp only [Compilation.after_tokens] at hu1
      rw [Compilation.ahead, hu, hu1]
      exact .cons hx (.cons hopen (hspan.trans (.cons hclose (spans_nil.mpr hu3))))
    next => exact ih.unread_call hu hback h hs
    next => exact ih.unread_call hu hback h hs
    next =>
      obtain ⟨v, mid, h1, h⟩ := bind_ok h
      obtain ⟨x, hx, hv, rfl⟩ := variableOf_ok h1
      obtain ⟨_, mid, h1, h⟩ := bind_ok h
      obtain ⟨hd, rfl⟩ := pushVariable_ok (r := r) h1 hv
      obtain ⟨rfl, rfl⟩ := pure_ok h
      exact ⟨.variable x, hd, τ, by simp [Term.code], .cons hx (spans_nil.mpr hu)⟩
  next => exact (throw_ok h).elim

end ReadsGrammar

theorem readsGrammar (r : Routine) (fuel : Nat) : ReadsGrammar σ r fuel := by
  induction fuel with
  | zero => constructor <;> intros <;> exact (throw_ok ‹_›).elim
  | succ fuel ih =>
    exact ⟨ih.expression_succ, ih.operators_succ, ih.term_succ, ih.call_succ, ih.arguments_succ,
      ih.moreArguments_succ⟩

end Compiling

end JackVM
