import JackVM.Proofs.ExpressionReading

namespace JackVM

namespace Compiling

variable {σ : Type} {s s' : Compilation σ} {t t' : Token} {r : Routine}

theorem expectBlockEnd_ok {u : Unit} (h : expectBlockEnd t s = .ok u s') :
    t.lexeme = .symbol .closeBrace ∧ s = s' := by
  unfold expectBlockEnd at h
  split at h
  next hc => exact ⟨Token.isSymbol_iff.mp hc, (pure_ok h).2⟩
  next => exact (throw_ok h).elim

variable [CodeSink σ] [OpenSink σ] {fuel : Nat}

theorem popVariable_ok {name : String} {v : Variable} {u : Unit}
    (h : popVariable v s = .ok u s') (hv : s.names.find? name = some v) :
    s' = s.after s.tokens ((s.scope r).popCode name) 0 := by
  unfold popVariable at h
  simpa [Scope.popCode, Compilation.scope, hv] using put_ok h

theorem negatedCondition_ok {u : Unit} (h : negatedCondition fuel s = .ok u s')
    (hs : s.routine = some r) :
    ∃ c : Expression, ∃ τ, c.Scoped (s.scope r) ∧
      s' = s.after τ (c.code (s.scope r) ++ [Instruction.op .not]) 0 ∧
      Spans (.symbol .openParen :: (c.lexemes ++ [Lexeme.symbol .closeParen])) s.tokens.upcoming
        τ.upcoming := by
  unfold negatedCondition at h
  obtain ⟨τ, hopen, h⟩ := expectNext_then h
  obtain ⟨t, τ1, hu, -, h⟩ := next_then h
  obtain ⟨t', mid, h1, h⟩ := bind_ok h
  obtain ⟨c, hc, τ2, rfl, hspan⟩ := (readsGrammar r fuel).expression h1 hs
  obtain ⟨hclose, h⟩ := expect_then h
  obtain rfl := put_ok h
  refine ⟨c, τ2, hc, by simp, ?_⟩
  simp only [Compilation.after_tokens] at hu
  rw [hu] at hopen
  exact hopen.trans (hspan.trans (.cons hclose (spans_nil.mpr rfl)))

theorem letStatement_ok (ht : t.lexeme = .keyword .kwLet)
    (h : letStatement fuel s = .ok t' s') (hs : s.routine = some r) :
    ∃ st : Statement, st.Scoped (s.scope r) ∧ s.Yields (s.ahead t) st.lexemes
      (st.code (s.scope r) s.labels.nextNumber) st.labels t' s' := by
  unfold letStatement at h
  obtain ⟨a, τ, ha, -, h⟩ := next_then h
  obtain ⟨v, mid, h1, h⟩ := bind_ok h
  obtain ⟨x, hx, hv, rfl⟩ := variableOf_ok h1
  have hd : (s.scope r).Declares x := by
    have hf : s.names.find? x = some v := hv
    simp [Scope.Declares, Compilation.scope, hf]
  obtain ⟨b, τ1, hb, -, h⟩ := next_then h
  simp only [Compilation.after_tokens] at hb
  obtain ⟨y, hy, h⟩ := of_run h
  split at hy <;> subst hy
  next hopen =>
    obtain ⟨_, mid, h1, h⟩ := bind_ok h
    obtain ⟨-, rfl⟩ := pushVariable_ok (r := r) h1 hv
    obtain ⟨c, τ2, hc, -, h⟩ := next_then h
    obtain ⟨d, mid, h1, h⟩ := bind_ok h
    obtain ⟨i, hi, τ3, rfl, hspan⟩ := (readsGrammar r fuel).expression h1 hs
    obtain ⟨hclose, h⟩ := expect_then h
    replace h := put_then h
    obtain ⟨τ4, hequal, h⟩ := expectNext_then h
    obtain ⟨f, τ5, hf, -, h⟩ := next_then h
    obtain ⟨g, mid, h1, h⟩ := bind_ok h
    obtain ⟨e, he, τ6, rfl, hspan'⟩ := (readsGrammar r fuel).expression h1 hs
    replace h := put_then h
    replace h := put_then h
    replace h := put_then h
    replace h := put_then h
    obtain ⟨hsemi, h⟩ := expect_then h
    obtain ⟨τ7, rfl, hlast, -⟩ := next_ok h
    refine ⟨.assignElement x i e, ⟨hd, hi, he⟩, τ7, ?_, ?_⟩
    · simp [Statement.code, storeCode, Statement.labels]
    · simp only [Compilation.after_tokens] at hc hequal hf
      rw [Compilation.ahead, ha, hb, hc]
      rw [hf] at hequal
      exact .cons ht (.cons hx (.cons hopen (hspan.trans (.cons hclose
        (hequal.trans (hspan'.trans (.cons hsemi (spans_nil.mpr hlast))))))))
  next hequal =>
    obtain ⟨c, τ2, hc, -, h⟩ := next_then h
    obtain ⟨d, mid, h1, h⟩ := bind_ok h
    obtain ⟨e, he, τ3, rfl, hspan⟩ := (readsGrammar r fuel).expression h1 hs
    obtain ⟨_, mid, h1, h⟩ := bind_ok h
    obtain rfl := popVariable_ok (r := r) h1 hv
    obtain ⟨hsemi, h⟩ := expect_then h
    obtain ⟨τ4, rfl, hlast, -⟩ := next_ok h
    refine ⟨.assign x e, ⟨hd, he⟩, τ4, by simp [Statement.code, Statement.labels], ?_⟩
    simp only [Compilation.after_tokens] at hc
    rw [Compilation.ahead, ha, hb, hc]
    exact .cons ht (.cons hx (.cons hequal (hspan.trans (.cons hsemi (spans_nil.mpr hlast)))))
  next => exact (throw_ok h).elim

theorem doStatement_ok (ht : t.lexeme = .keyword .kwDo) (h : doStatement fuel s = .ok t' s')
    (hs : s.routine = some r) :
    ∃ st : Statement, st.Scoped (s.scope r) ∧ s.Yields (s.ahead t) st.lexemes
      (st.code (s.scope r) s.labels.nextNumber) st.labels t' s' := by
  unfold doStatement at h
  obtain ⟨a, τ, ha, -, h⟩ := next_then h
  obtain ⟨name, mid, h1, h⟩ := bind_ok h
  obtain ⟨-, rfl⟩ := nameOf_ok h1
  obtain ⟨b, mid, h1, h⟩ := bind_ok h
  obtain ⟨q, f, es, hq, hes, τ1, rfl, hspan⟩ := (readsGrammar r fuel).call h1 hs
  obtain ⟨hsemi, h⟩ := expect_then h
  replace h := put_then h
  obtain ⟨τ2, rfl, hlast, -⟩ := next_ok h
  refine ⟨.perform q f es, ⟨hq, hes⟩, τ2, by simp [Statement.code, Statement.labels], ?_⟩
  rw [Compilation.ahead, ha]
  exact .cons ht (hspan.trans (.cons hsemi (spans_nil.mpr hlast)))

theorem returnStatement_ok (ht : t.lexeme = .keyword .kwReturn)
    (h : returnStatement fuel t s = .ok t' s') (hs : s.routine = some r) :
    ∃ st : Statement, st.Scoped (s.scope r) ∧ s.Yields (s.ahead t) st.lexemes
      (st.code (s.scope r) s.labels.nextNumber) st.labels t' s' := by
  unfold returnStatement at h
  replace h := currentRoutine_then h hs
  obtain ⟨a, τ, ha, -, h⟩ := next_then h
  obtain ⟨y, hy, h⟩ := of_run h
  split at hy <;> subst hy
  next hvoid =>
    obtain ⟨y, hy, h⟩ := of_run h
    split at hy <;> subst hy
    next hsemi =>
      replace h := put_then h
      replace h := put_then h
      obtain ⟨τ1, rfl, hlast, -⟩ := next_ok h
      refine ⟨.giveBack none, hvoid, τ1, by simp [Statement.code, Statement.labels], ?_⟩
      rw [Compilation.ahead, ha]
      exact .cons ht (.cons (Token.isSymbol_iff.mp hsemi) (spans_nil.mpr hlast))
    next =>
      obtain ⟨_, mid, h1, h⟩ := bind_ok h
      exact (throw_ok h1).elim
  next hvoid =>
    obtain ⟨b, mid, h1, h⟩ := bind_ok h
    obtain ⟨e, he, τ1, rfl, hspan⟩ := (readsGrammar r fuel).expression h1 hs
    obtain ⟨hsemi, h⟩ := expect_then h
    replace h := put_then h
    obtain ⟨τ2, rfl, hlast, -⟩ := next_ok h
    refine ⟨.giveBack (some e), ⟨by simpa [Compilation.scope] using hvoid, he⟩, τ2,
      by simp [Statement.code, Statement.labels], ?_⟩
    rw [Compilation.ahead, ha]
    exact .cons ht (hspan.trans (.cons hsemi (spans_nil.mpr hlast)))

structure ReadsStatements (σ : Type) [CodeSink σ] [OpenSink σ] (r : Routine) (fuel : Nat) :
    Prop where
  statements {s s' : Compilation σ} {t t' : Token} :
    statements fuel t s = .ok t' s' → s.routine = some r → ∃ ss, StatementsScoped (s.scope r) ss ∧
      s.Yields (s.ahead t) (statementLexemes ss)
        (statementCode (s.scope r) ss s.labels.nextNumber) (labelCount ss) t' s'
  block {s s' : Compilation σ} {t' : Token} :
    block fuel s = .ok t' s' → s.routine = some r → ∃ ss, StatementsScoped (s.scope r) ss ∧
      s.Yields s.tokens.upcoming (braced (statementLexemes ss))
        (statementCode (s.scope r) ss s.labels.nextNumber) (labelCount ss) t' s'
  ifStatement {s s' : Compilation σ} {t t' : Token} : t.lexeme = .keyword .kwIf →
    ifStatement fuel s = .ok t' s' → s.routine = some r → ∃ st : Statement, st.Scoped (s.scope r) ∧
      s.Yields (s.ahead t) st.lexemes (st.code (s.scope r) s.labels.nextNumber) st.labels t' s'
  whileStatement {s s' : Compilation σ} {t t' : Token} : t.lexeme = .keyword .kwWhile →
    whileStatement fuel s = .ok t' s' → s.routine = some r →
    ∃ st : Statement, st.Scoped (s.scope r) ∧
      s.Yields (s.ahead t) st.lexemes (st.code (s.scope r) s.labels.nextNumber) st.labels t' s'

namespace ReadsStatements

variable (ih : ReadsStatements σ r fuel)

include ih

theorem block_succ (h : Compiling.block (fuel + 1) s = .ok t' s')
    (hs : s.routine = some r) :
    ∃ ss, StatementsScoped (s.scope r) ss ∧
      s.Yields s.tokens.upcoming (braced (statementLexemes ss))
        (statementCode (s.scope r) ss s.labels.nextNumber) (labelCount ss) t' s' := by
  unfold Compiling.block at h
  obtain ⟨τ, hopen, h⟩ := expectNext_then h
  obtain ⟨t, τ1, hu, -, h⟩ := next_then h
  obtain ⟨u, mid, h1, h⟩ := bind_ok h
  obtain ⟨ss, hss, τ2, rfl, hspan⟩ := ih.statements h1 hs
  obtain ⟨_, mid, h1, h⟩ := bind_ok h
  obtain ⟨hclose, rfl⟩ := expectBlockEnd_ok h1
  obtain ⟨τ3, rfl, hlast, -⟩ := next_ok h
  refine ⟨ss, hss, τ3, by simp, ?_⟩
  simp only [Compilation.after_tokens] at hu
  rw [hu] at hopen
  exact hopen.trans (hspan.trans (.cons hclose (spans_nil.mpr hlast)))

theorem ifStatement_succ (ht : t.lexeme = .keyword .kwIf)
    (h : Compiling.ifStatement (fuel + 1) s = .ok t' s')
    (hs : s.routine = some r) :
    ∃ st : Statement, st.Scoped (s.scope r) ∧ s.Yields (s.ahead t) st.lexemes
      (st.code (s.scope r) s.labels.nextNumber) st.labels t' s' := by
  unfold Compiling.ifStatement at h
  obtain ⟨_, mid, h1, h⟩ := bind_ok h
  obtain ⟨c, τ, hc, rfl, hcond⟩ := negatedCondition_ok h1 hs
  replace h := put_then (freshLabel_then h hs)
  obtain ⟨u, mid, h1, h⟩ := bind_ok h
  obtain ⟨yes, hyes, τ1, rfl, hspan⟩ := ih.block h1 hs
  obtain ⟨y, hy, h⟩ := of_run h
  split at hy <;> subst hy
  next helse =>
    replace h := put_then (put_then (freshLabel_then h hs))
    obtain ⟨v, mid, h1, h⟩ := bind_ok h
    obtain ⟨no, hno, τ2, rfl, hspan'⟩ := ih.block h1 hs
    replace h := put_then h
    obtain ⟨rfl, rfl⟩ := pure_ok h
    refine ⟨.branch c yes (some no), ⟨hc, hyes, hno⟩, τ2, ?_, ?_⟩
    · simp [Statement.code, Statement.labels, Scope.label, Compilation.scope,
        Nat.add_comm, Nat.add_left_comm]
    · have h2 := hcond.trans (hspan.trans (.cons (Token.isKeyword_iff.mp helse) hspan'))
      exact .cons ht (by simpa [Statement.lexemes] using h2)
  next =>
    replace h := put_then h
    obtain ⟨rfl, rfl⟩ := pure_ok h
    refine ⟨.branch c yes none, ⟨hc, hyes⟩, τ1, ?_, ?_⟩
    · simp [Statement.code, Statement.labels, Scope.label, Compilation.scope]
    · exact .cons ht (by simpa [Statement.lexemes] using hcond.trans hspan)

theorem whileStatement_succ (ht : t.lexeme = .keyword .kwWhile)
    (h : Compiling.whileStatement (fuel + 1) s = .ok t' s')
    (hs : s.routine = some r) :
    ∃ st : Statement, st.Scoped (s.scope r) ∧ s.Yields (s.ahead t) st.lexemes
      (st.code (s.scope r) s.labels.nextNumber) st.labels t' s' := by
  unfold Compiling.whileStatement at h
  replace h := put_then (freshLabel_then (freshLabel_then h hs) hs)
  obtain ⟨_, mid, h1, h⟩ := bind_ok h
  obtain ⟨c, τ, hc, rfl, hcond⟩ := negatedCondition_ok h1 hs
  replace h := put_then h
  obtain ⟨u, mid, h1, h⟩ := bind_ok h
  obtain ⟨body, hbody, τ1, rfl, hspan⟩ := ih.block h1 hs
  replace h := put_then (put_then h)
  obtain ⟨rfl, rfl⟩ := pure_ok h
  refine ⟨.loop c body, ⟨hc, hbody⟩, τ1, ?_, ?_⟩
  · simp [Statement.code, Statement.labels, Scope.label, Compilation.scope]
  · exact .cons ht (by simpa [Statement.lexemes] using hcond.trans hspan)

/-- A statement and those after it. -/
theorem cons_statements {st : Statement} {u : Token} {mid : Compilation σ}
    (hst : st.Scoped (s.scope r))
    (hone : s.Yields (s.ahead t) st.lexemes (st.code (s.scope r) s.labels.nextNumber) st.labels
      u mid)
    (h : Compiling.statements fuel u mid = .ok t' s')
    (hs : s.routine = some r) :
    ∃ ss, StatementsScoped (s.scope r) ss ∧
      s.Yields (s.ahead t) (statementLexemes ss)
        (statementCode (s.scope r) ss s.labels.nextNumber) (labelCount ss) t' s' := by
  obtain ⟨τ, rfl, hspan⟩ := hone
  obtain ⟨ss, hss, τ1, rfl, hspan'⟩ := ih.statements h hs
  exact ⟨st :: ss, ⟨hst, hss⟩, τ1, by simp [statementCode, labelCount], hspan.trans hspan'⟩

theorem statements_succ (h : Compiling.statements (fuel + 1) t s = .ok t' s')
    (hs : s.routine = some r) :
    ∃ ss, StatementsScoped (s.scope r) ss ∧
      s.Yields (s.ahead t) (statementLexemes ss)
        (statementCode (s.scope r) ss s.labels.nextNumber) (labelCount ss) t' s' := by
  unfold Compiling.statements at h
  obtain ⟨y, hy, h⟩ := of_run h
  split at hy <;> subst hy
  next hl =>
    obtain ⟨u, mid, h1, h⟩ := bind_ok h
    obtain ⟨st, hst, hone⟩ := letStatement_ok hl h1 hs
    exact ih.cons_statements hst hone h hs
  next hl =>
    obtain ⟨u, mid, h1, h⟩ := bind_ok h
    obtain ⟨st, hst, hone⟩ := ih.ifStatement hl h1 hs
    exact ih.cons_statements hst hone h hs
  next hl =>
    obtain ⟨u, mid, h1, h⟩ := bind_ok h
    obtain ⟨st, hst, hone⟩ := ih.whileStatement hl h1 hs
    exact ih.cons_statements hst hone h hs
  next hl =>
    obtain ⟨u, mid, h1, h⟩ := bind_ok h
    obtain ⟨st, hst, hone⟩ := doStatement_ok hl h1 hs
    exact ih.cons_statements hst hone h hs
  next hl =>
    obtain ⟨u, mid, h1, h⟩ := bind_ok h
    obtain ⟨st, hst, hone⟩ := returnStatement_ok hl h1 hs
    exact ih.cons_statements hst hone h hs
  next =>
    obtain ⟨rfl, rfl⟩ := pure_ok h
    exact ⟨[], trivial, s.tokens, rfl, spans_nil.mpr rfl⟩

end ReadsStatements

theorem readsStatements (r : Routine) (fuel : Nat) : ReadsStatements σ r fuel := by
  induction fuel with
  | zero => constructor <;> intros <;> exact (throw_ok ‹_›).elim
  | succ fuel ih =>
    exact ⟨ih.statements_succ, ih.block_succ, ih.ifStatement_succ, ih.whileStatement_succ⟩

end Compiling

end JackVM
