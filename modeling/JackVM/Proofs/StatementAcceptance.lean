import JackVM.Proofs.ExpressionAcceptance
import JackVM.Proofs.StatementReading

namespace JackVM

theorem Statement.lexemes_length_pos (st : Statement) : 0 < st.lexemes.length := by
  rcases st with ⟨x, e⟩ | ⟨x, i, e⟩ | ⟨c, yes, _ | no⟩ | ⟨c, body⟩ | ⟨q, f, es⟩ | ⟨_ | e⟩ <;>
    simp [Statement.lexemes]

/-- A list of statements goes on with a statement or ends with a brace. -/
def Lexeme.StartsStatement (x : Lexeme) : Prop :=
  x ≠ .keyword .kwElse ∧ x ≠ .keyword .kwVar

theorem Statement.begins (st : Statement) (xs : List Lexeme) :
    Begins Lexeme.StartsStatement (st.lexemes ++ xs) := by
  rcases st with ⟨x, e⟩ | ⟨x, i, e⟩ | ⟨c, yes, _ | no⟩ | ⟨c, body⟩ | ⟨q, f, es⟩ | ⟨_ | e⟩ <;>
    simp [Statement.lexemes, Lexeme.StartsStatement]

theorem begins_statements {ss : List Statement} {xs : List Lexeme} :
    Begins Lexeme.StartsStatement (statementLexemes ss ++ .symbol .closeBrace :: xs) := by
  cases ss with
  | nil => simp [statementLexemes, Lexeme.StartsStatement]
  | cons st ss =>
    rw [statementLexemes, List.append_assoc]
    exact st.begins _

namespace Compiling

variable {σ : Type} {s : Compilation σ} {t t' : Token} {r : Routine} {fuel : Nat}
  {rest : List (Except TokenError Token)} {fault : Option CompileError}

theorem expectBlockEnd_of_lexeme (h : t.lexeme = .symbol .closeBrace) :
    expectBlockEnd t s = .ok () s := by
  unfold expectBlockEnd
  rw [if_pos (Token.isSymbol_iff.mpr h)]
  rfl

theorem statements_head {ρ : Scope} {ss : List Statement} {here : List (Except TokenError Token)}
    (h : Checks (statementMarks ρ ss) here (.ok t' :: rest) fault)
    (ht' : t'.lexeme = .symbol .closeBrace) :
    ∃ u mid, here = .ok u :: mid ∧ u.lexeme.StartsStatement :=
  h.begins (by simpa [ht'] using begins_statements)

variable [CodeSink σ] [OpenSink σ]

theorem popVariable_passes {name : String} {v : Variable} (hv : s.names.find? name = some v) :
    s.Passes (popVariable v) ((s.scope r).popCode name) 0 () s.tokens.upcoming := by
  refine ⟨s.tokens, ?_, rfl⟩
  simp [popVariable, put_run, Scope.popCode, Compilation.scope, hv]

theorem negatedCondition_settles {c : Expression} (hfuel : 4 * c.lexemes.length ≤ fuel + 2)
    (h : Checks (.free (.symbol .openParen) ::
      (c.marks (s.scope r) ++ [Mark.free (.symbol .closeParen)])) s.tokens.upcoming
        (.ok t' :: rest) fault)
    (hs : s.routine = some r) :
    s.Settles (negatedCondition fuel) fault (c.code (s.scope r) ++ [Instruction.op .not]) 0 ()
      (.ok t' :: rest) := by
  unfold negatedCondition
  refine .expectNext_then h fun τ h => .next_then h fun v τ1 hv => ?_
  obtain ⟨mid1, _, _, hcond, hrest, rfl⟩ := checks_append.mp hv
  obtain ⟨w, mid2, hclose, rfl, hend⟩ := checks_free_cons.mp hrest
  obtain ⟨rfl, rfl⟩ := checks_nil.mp hend
  have hends : w.lexeme.EndsExpression := hclose ▸ endsExpression_closeParen
  refine .code_then ((followsGrammar r fuel).expression hfuel hends hcond hs) fun τ2 hτ2 => ?_
  exact .check_then (expect_of_lexeme hclose) ⟨τ2, put_run _ _, hτ2⟩

theorem assign_settles {x : String} {e : Expression}
    (hfuel : 4 * (Statement.assign x e).lexemes.length ≤ fuel)
    (h : Checks ((Statement.assign x e).marks (s.scope r)) (s.ahead t) (.ok t' :: rest) fault)
    (hs : s.routine = some r) :
    s.Settles (letStatement fuel) fault
      ((Statement.assign x e).code (s.scope r) s.labels.nextNumber) 0 t' rest := by
  simp only [Statement.lexemes, List.length_cons, List.length_append, List.length_nil] at hfuel
  obtain ⟨-, h⟩ := Compilation.checks_free_ahead.mp h
  unfold letStatement
  rw [Statement.code, ← List.append_nil ((s.scope r).popCode x)]
  refine .next_then h fun u τ hu => ?_
  obtain ⟨hname, _, hmarks, rfl⟩ := Compilation.checks_ahead hu
  refine .variableOf_then hname fun v hv => .next_then hmarks fun w τ1 hw => ?_
  obtain ⟨hequal, htail⟩ := Compilation.checks_free_ahead.mp hw
  simp only [hequal]
  refine .next_then htail fun y τ2 hy => ?_
  obtain ⟨mid, _, _, hvalue, hrest, rfl⟩ := checks_append.mp hy
  obtain ⟨z, mid1, hsemi, rfl, hend⟩ := checks_free_cons.mp hrest
  obtain ⟨rfl, rfl⟩ := checks_nil.mp hend
  have hends : z.lexeme.EndsExpression := hsemi ▸ endsExpression_semicolon
  refine .code_then ((followsGrammar r fuel).expression (by omega) hends hvalue hs) fun τ3 hτ3 => ?_
  refine .pass_then (popVariable_passes hv) fun τ4 hτ4 => ?_
  exact .check_then (expect_of_lexeme hsemi) (.next_last (hτ4.trans hτ3))

theorem assignElement_settles {x : String} {i e : Expression}
    (hfuel : 4 * (Statement.assignElement x i e).lexemes.length ≤ fuel)
    (h : Checks ((Statement.assignElement x i e).marks (s.scope r)) (s.ahead t) (.ok t' :: rest)
      fault)
    (hs : s.routine = some r) :
    s.Settles (letStatement fuel) fault
      ((Statement.assignElement x i e).code (s.scope r) s.labels.nextNumber) 0 t' rest := by
  simp only [Statement.lexemes, List.length_cons, List.length_append, List.length_nil] at hfuel
  obtain ⟨-, h⟩ := Compilation.checks_free_ahead.mp h
  unfold letStatement
  rw [Statement.code, storeCode]
  refine .next_then h fun u τ hu => ?_
  obtain ⟨hname, _, hmarks, rfl⟩ := Compilation.checks_ahead hu
  refine .variableOf_then hname fun v hv => .next_then hmarks fun w τ1 hw => ?_
  obtain ⟨hopen, hbrackets⟩ := Compilation.checks_free_ahead.mp hw
  simp only [hopen]
  refine .pass_then (pushVariable_passes hv) fun τ2 hτ2 => ?_
  rw [← hτ2] at hbrackets
  refine .next_then hbrackets fun y τ3 hy => ?_
  obtain ⟨mid, _, _, hindex, hassigned, rfl⟩ := checks_append.mp hy
  obtain ⟨z, mid1, hclose, rfl, htail⟩ := checks_free_cons.mp hassigned
  have hends : z.lexeme.EndsExpression := hclose ▸ endsExpression_closeBracket
  refine .code_then ((followsGrammar r fuel).expression (by omega) hends hindex hs) fun τ4 hτ4 => ?_
  refine .check_then (expect_of_lexeme hclose) (.put_then ?_)
  rw [← hτ4] at htail
  refine .expectNext_then htail fun τ5 h5 => .next_then h5 fun d τ6 hd => ?_
  obtain ⟨mid3, _, _, hvalue, hrest, rfl⟩ := checks_append.mp hd
  obtain ⟨a, mid4, hsemi, rfl, hend⟩ := checks_free_cons.mp hrest
  obtain ⟨rfl, rfl⟩ := checks_nil.mp hend
  have hends' : a.lexeme.EndsExpression := hsemi ▸ endsExpression_semicolon
  refine .code_then ((followsGrammar r fuel).expression (by omega) hends' hvalue hs)
    fun τ7 hτ7 => ?_
  refine .put_then (.put_then (.put_then (.put_then ?_)))
  exact .check_then (expect_of_lexeme hsemi) (.next_last hτ7)

theorem perform_settles {q : Option String} {f : String} {es : List Expression}
    (hfuel : 4 * (Statement.perform q f es).lexemes.length ≤ fuel)
    (h : Checks ((Statement.perform q f es).marks (s.scope r)) (s.ahead t) (.ok t' :: rest) fault)
    (hs : s.routine = some r) :
    s.Settles (doStatement fuel) fault
      ((Statement.perform q f es).code (s.scope r) s.labels.nextNumber) 0 t' rest := by
  simp only [Statement.lexemes, List.length_cons, List.length_append, List.length_nil] at hfuel
  obtain ⟨-, h⟩ := Compilation.checks_free_ahead.mp h
  unfold doStatement
  rw [Statement.code]
  refine .next_then h fun u τ hu => ?_
  obtain ⟨mid, _, _, hcall, hrest, rfl⟩ := checks_append.mp hu
  obtain ⟨v, mid1, hsemi, rfl, hend⟩ := checks_free_cons.mp hrest
  obtain ⟨rfl, rfl⟩ := checks_nil.mp hend
  obtain ⟨x, w, mid2, hname, -, -⟩ := call_head hcall
  refine .check_then (nameOf_of_lexeme hname) ?_
  refine .code_then ((followsGrammar r fuel).call (by omega) hcall hs) fun τ1 hτ1 => ?_
  exact .check_then (expect_of_lexeme hsemi) (.put_then (.next_last hτ1))

theorem giveBack_settles {value : Option Expression}
    (hfuel : 4 * (Statement.giveBack value).lexemes.length ≤ fuel)
    (hst : (Statement.giveBack value).Returns r.returnsVoid)
    (h : Checks ((Statement.giveBack value).marks (s.scope r)) (s.ahead t) (.ok t' :: rest) fault)
    (hs : s.routine = some r) :
    s.Settles (returnStatement fuel t) fault
      ((Statement.giveBack value).code (s.scope r) s.labels.nextNumber) 0 t' rest := by
  have hvoid : r.returnsVoid = value.isNone := hst.symm
  unfold returnStatement
  refine .check_then (currentRoutine_run hs) ?_
  cases value with
  | none =>
    obtain ⟨-, h⟩ := Compilation.checks_free_ahead.mp h
    simp only [hvoid, Option.isNone_none, if_true, Statement.code]
    refine .next_then h fun u τ hu => ?_
    obtain ⟨hsemi, hend⟩ := Compilation.checks_free_ahead.mp hu
    obtain ⟨hrest, rfl⟩ := checks_nil.mp hend
    rw [if_pos (Token.isSymbol_iff.mpr hsemi)]
    exact .put_then (.put_then (.next_last hrest))
  | some e =>
    simp only [Statement.lexemes, List.length_cons, List.length_append, List.length_nil] at hfuel
    obtain ⟨-, h⟩ := Compilation.checks_free_ahead.mp h
    simp only [hvoid, Option.isNone_some, Statement.code]
    refine .next_then h fun u τ hu => ?_
    obtain ⟨mid, _, _, hvalue, hrest, rfl⟩ := checks_append.mp hu
    obtain ⟨v, mid1, hsemi, rfl, hend⟩ := checks_free_cons.mp hrest
    obtain ⟨rfl, rfl⟩ := checks_nil.mp hend
    have hends : v.lexeme.EndsExpression := hsemi ▸ endsExpression_semicolon
    refine .code_then ((followsGrammar r fuel).expression (by omega) hends hvalue hs)
      fun τ1 hτ1 => ?_
    exact .check_then (expect_of_lexeme hsemi) (.put_then (.next_last hτ1))

/-- The statements that the grammar gives are read up to the first token that breaks its rule, where
the depth of recursion allows for their tokens. -/
structure FollowsStatements (σ : Type) [CodeSink σ] [OpenSink σ] (r : Routine) (fuel : Nat) :
    Prop where
  statements {s : Compilation σ} {t t' : Token} {rest : List (Except TokenError Token)}
    {fault : Option CompileError} {ss : List Statement} :
    4 * (statementLexemes ss).length + 1 ≤ fuel → StatementsReturn r.returnsVoid ss →
    t'.lexeme = .symbol .closeBrace →
    Checks (statementMarks (s.scope r) ss) (s.ahead t) (.ok t' :: rest) fault → s.routine = some r →
    s.Settles (statements fuel t) fault (statementCode (s.scope r) ss s.labels.nextNumber)
      (labelCount ss) t' rest
  block {s : Compilation σ} {t' : Token} {rest : List (Except TokenError Token)}
    {fault : Option CompileError} {ss : List Statement} :
    4 * (statementLexemes ss).length + 2 ≤ fuel → StatementsReturn r.returnsVoid ss →
    Checks (bracedMarks (statementMarks (s.scope r) ss)) s.tokens.upcoming (.ok t' :: rest) fault →
    s.routine = some r →
    s.Settles (block fuel) fault (statementCode (s.scope r) ss s.labels.nextNumber)
      (labelCount ss) t' rest
  ifStatement {s : Compilation σ} {t t' : Token} {rest : List (Except TokenError Token)}
    {fault : Option CompileError} {c : Expression} {yes : List Statement}
    {no : Option (List Statement)} : 4 * (Statement.branch c yes no).lexemes.length ≤ fuel →
    (Statement.branch c yes no).Returns r.returnsVoid → t'.lexeme ≠ .keyword .kwElse →
    Checks ((Statement.branch c yes no).marks (s.scope r)) (s.ahead t) (.ok t' :: rest) fault →
    s.routine = some r →
    s.Settles (ifStatement fuel) fault
      ((Statement.branch c yes no).code (s.scope r) s.labels.nextNumber)
      (Statement.branch c yes no).labels t' rest
  whileStatement {s : Compilation σ} {t t' : Token} {rest : List (Except TokenError Token)}
    {fault : Option CompileError} {c : Expression} {body : List Statement} :
    4 * (Statement.loop c body).lexemes.length ≤ fuel →
    (Statement.loop c body).Returns r.returnsVoid →
    Checks ((Statement.loop c body).marks (s.scope r)) (s.ahead t) (.ok t' :: rest) fault →
    s.routine = some r →
    s.Settles (whileStatement fuel) fault
      ((Statement.loop c body).code (s.scope r) s.labels.nextNumber)
      (Statement.loop c body).labels t' rest

namespace FollowsStatements

variable (ih : FollowsStatements σ r fuel)

include ih

theorem block_succ {ss : List Statement} (hfuel : 4 * (statementLexemes ss).length + 2 ≤ fuel + 1)
    (hss : StatementsReturn r.returnsVoid ss)
    (h : Checks (bracedMarks (statementMarks (s.scope r) ss)) s.tokens.upcoming (.ok t' :: rest)
      fault)
    (hs : s.routine = some r) :
    s.Settles (Compiling.block (fuel + 1)) fault
      (statementCode (s.scope r) ss s.labels.nextNumber) (labelCount ss) t' rest := by
  unfold Compiling.block
  refine .expectNext_then h fun τ h => .next_then h fun v τ1 hv => ?_
  obtain ⟨mid1, _, _, hbody, hrest, rfl⟩ := checks_append.mp hv
  obtain ⟨w, mid2, hclose, rfl, hend⟩ := checks_free_cons.mp hrest
  obtain ⟨rfl, rfl⟩ := checks_nil.mp hend
  rw [← List.append_nil (statementCode _ _ _), ← Nat.add_zero (labelCount ss)]
  refine .bind (ih.statements (by omega) hss hclose hbody hs) fun τ2 hτ2 => ?_
  exact .check_then (expectBlockEnd_of_lexeme hclose) (.next_last hτ2)

theorem whileStatement_succ {c : Expression} {body : List Statement}
    (hfuel : 4 * (Statement.loop c body).lexemes.length ≤ fuel + 1)
    (hbody : (Statement.loop c body).Returns r.returnsVoid)
    (h : Checks ((Statement.loop c body).marks (s.scope r)) (s.ahead t) (.ok t' :: rest) fault)
    (hs : s.routine = some r) :
    s.Settles (Compiling.whileStatement (fuel + 1)) fault
      ((Statement.loop c body).code (s.scope r) s.labels.nextNumber)
      (Statement.loop c body).labels t' rest := by
  simp only [Statement.lexemes, braced, List.length_cons, List.length_append, List.length_nil]
    at hfuel
  obtain ⟨-, h⟩ := Compilation.checks_free_ahead.mp h
  rw [← List.singleton_append (l := bracedMarks _), ← List.append_assoc, ← List.cons_append] at h
  obtain ⟨mid, first, last, hcond, hblock, rfl⟩ := checks_append.mp h
  obtain ⟨u, mid, rfl⟩ := hblock.head
  have hrun : s.Settles (Compiling.whileStatement (fuel + 1)) (first.or (last.or none))
      (.label ((s.scope r).label "WHILE_TOP" s.labels.nextNumber) ::
        ((c.code (s.scope r) ++ [Instruction.op .not]) ++
          .ifGoto ((s.scope r).label "WHILE_END" (s.labels.nextNumber + 1)) ::
            (statementCode (s.scope r) body (s.labels.nextNumber + 2) ++
              [.goto ((s.scope r).label "WHILE_TOP" s.labels.nextNumber),
                .label ((s.scope r).label "WHILE_END" (s.labels.nextNumber + 1))])))
      (1 + (1 + (labelCount body + 0))) t' rest := by
    unfold Compiling.whileStatement
    refine .freshLabel_then hs (.freshLabel_then hs (.put_then ?_))
    refine .code_then (negatedCondition_settles (by omega) hcond hs) fun τ hτ => .put_then ?_
    rw [← hτ] at hblock
    refine .bind (ih.block (by omega) hbody hblock hs) fun τ1 hτ1 => ?_
    exact .put_then (.put_then (.pure_last hτ1))
  have hlabels : 1 + (1 + (labelCount body + 0)) = 2 + labelCount body := by omega
  rw [hlabels] at hrun
  simpa [Statement.code, Statement.labels] using hrun

theorem branch_succ {c : Expression} {yes : List Statement}
    (hfuel : 4 * (Statement.branch c yes none).lexemes.length ≤ fuel + 1)
    (hyes : StatementsReturn r.returnsVoid yes) (ht' : t'.lexeme ≠ .keyword .kwElse)
    (h : Checks ((Statement.branch c yes none).marks (s.scope r)) (s.ahead t) (.ok t' :: rest)
      fault)
    (hs : s.routine = some r) :
    s.Settles (Compiling.ifStatement (fuel + 1)) fault
      ((Statement.branch c yes none).code (s.scope r) s.labels.nextNumber)
      (Statement.branch c yes none).labels t' rest := by
  simp only [Statement.lexemes, braced, List.length_cons, List.length_append, List.length_nil]
    at hfuel
  obtain ⟨-, h⟩ := Compilation.checks_free_ahead.mp h
  rw [← List.singleton_append (l := bracedMarks _), ← List.append_assoc, ← List.cons_append] at h
  obtain ⟨mid, first, last, hcond, hblock, rfl⟩ := checks_append.mp h
  obtain ⟨u, mid, rfl⟩ := hblock.head
  have helse : ¬t'.isKeyword .kwElse = true := fun hk => ht' (Token.isKeyword_iff.mp hk)
  have hrun : s.Settles (Compiling.ifStatement (fuel + 1)) (first.or (last.or none))
      ((c.code (s.scope r) ++ [Instruction.op .not]) ++
        .ifGoto ((s.scope r).label "IF_FALSE" s.labels.nextNumber) ::
          (statementCode (s.scope r) yes (s.labels.nextNumber + 1) ++
            [.label ((s.scope r).label "IF_FALSE" s.labels.nextNumber)]))
      (1 + (labelCount yes + 0)) t' rest := by
    unfold Compiling.ifStatement
    refine .code_then (negatedCondition_settles (by omega) hcond hs) fun τ hτ =>
      .freshLabel_then hs (.put_then ?_)
    rw [← hτ] at hblock
    refine .bind (ih.block (by omega) hyes hblock hs) fun τ1 hτ1 => ?_
    rw [if_neg helse]
    exact .put_then (.pure_last hτ1)
  simpa [Statement.code, Statement.labels] using hrun

theorem branchElse_succ {c : Expression} {yes no : List Statement}
    (hfuel : 4 * (Statement.branch c yes (some no)).lexemes.length ≤ fuel + 1)
    (hst : (Statement.branch c yes (some no)).Returns r.returnsVoid)
    (h : Checks ((Statement.branch c yes (some no)).marks (s.scope r)) (s.ahead t) (.ok t' :: rest)
      fault)
    (hs : s.routine = some r) :
    s.Settles (Compiling.ifStatement (fuel + 1)) fault
      ((Statement.branch c yes (some no)).code (s.scope r) s.labels.nextNumber)
      (Statement.branch c yes (some no)).labels t' rest := by
  obtain ⟨hyes, hno⟩ := hst
  simp only [Statement.lexemes, braced, List.length_cons, List.length_append, List.length_nil]
    at hfuel
  obtain ⟨-, h⟩ := Compilation.checks_free_ahead.mp h
  rw [← List.singleton_append (l := _ ++ _ :: bracedMarks _), ← List.append_assoc,
    ← List.cons_append] at h
  obtain ⟨mid, first, _, hcond, hblocks, rfl⟩ := checks_append.mp h
  obtain ⟨u, mid, rfl⟩ := hblocks.head
  obtain ⟨mid1, second, third, hblock, htail, rfl⟩ := checks_append.mp hblocks
  obtain ⟨v, mid2, helse, rfl, hblock'⟩ := checks_free_cons.mp htail
  have hrun : s.Settles (Compiling.ifStatement (fuel + 1))
      (first.or (second.or (third.or none)))
      ((c.code (s.scope r) ++ [Instruction.op .not]) ++
        .ifGoto ((s.scope r).label "IF_FALSE" s.labels.nextNumber) ::
          (statementCode (s.scope r) yes (s.labels.nextNumber + 1) ++
            .goto ((s.scope r).label "IF_END" (s.labels.nextNumber + 1 + labelCount yes)) ::
              .label ((s.scope r).label "IF_FALSE" s.labels.nextNumber) ::
                (statementCode (s.scope r) no (s.labels.nextNumber + 1 + labelCount yes + 1) ++
                  [.label ((s.scope r).label "IF_END"
                    (s.labels.nextNumber + 1 + labelCount yes))])))
      (1 + (labelCount yes + (1 + (labelCount no + 0)))) t' rest := by
    unfold Compiling.ifStatement
    refine .code_then (negatedCondition_settles (by omega) hcond hs) fun τ hτ =>
      .freshLabel_then hs (.put_then ?_)
    rw [← hτ] at hblock
    refine .bind (ih.block (by omega) hyes hblock hs) fun τ1 hτ1 => ?_
    rw [if_pos (Token.isKeyword_iff.mpr helse)]
    rw [← hτ1] at hblock'
    refine .freshLabel_then hs (.put_then (.put_then ?_))
    refine .bind (ih.block (by omega) hno hblock' hs) fun τ2 hτ2 => ?_
    exact .put_then (.pure_last hτ2)
  have hlabels : 1 + (labelCount yes + (1 + (labelCount no + 0))) =
      2 + labelCount yes + labelCount no := by omega
  rw [hlabels] at hrun
  simpa [Statement.code, Statement.labels] using hrun

/-- A statement is read by a step of its own, and the others after it. -/
theorem cons_statements {st : Statement} {ss : List Statement} {x : Compiling σ Token}
    (hrun : Compiling.statements (fuel + 1) t = do let u ← x; Compiling.statements fuel u)
    (hfuel : 4 * (statementLexemes (st :: ss)).length + 1 ≤ fuel + 1)
    (hss : StatementsReturn r.returnsVoid ss) (ht' : t'.lexeme = .symbol .closeBrace)
    {u : Token} {mid : List (Except TokenError Token)} {first last : Option CompileError}
    (hone : s.Settles x first (st.code (s.scope r) s.labels.nextNumber) st.labels u mid)
    (h : Checks (statementMarks (s.scope r) ss) (.ok u :: mid) (.ok t' :: rest) last)
    (hs : s.routine = some r) :
    s.Settles (Compiling.statements (fuel + 1) t) (first.or last)
      (statementCode (s.scope r) (st :: ss) s.labels.nextNumber) (labelCount (st :: ss)) t'
      rest := by
  have hpos := st.lexemes_length_pos
  simp only [statementLexemes, List.length_append] at hfuel
  rw [hrun, statementCode, labelCount]
  refine .bind hone fun τ hτ => ?_
  rw [← hτ] at h
  exact ih.statements (by omega) hss ht' h hs

theorem statements_succ {ss : List Statement}
    (hfuel : 4 * (statementLexemes ss).length + 1 ≤ fuel + 1)
    (hss : StatementsReturn r.returnsVoid ss) (ht' : t'.lexeme = .symbol .closeBrace)
    (h : Checks (statementMarks (s.scope r) ss) (s.ahead t) (.ok t' :: rest) fault)
    (hs : s.routine = some r) :
    s.Settles (Compiling.statements (fuel + 1) t) fault
      (statementCode (s.scope r) ss s.labels.nextNumber) (labelCount ss) t' rest := by
  cases ss with
  | nil =>
    obtain ⟨hhere, rfl⟩ := checks_nil.mp h
    obtain ⟨rfl, hrest⟩ : t = t' ∧ s.tokens.upcoming = rest := by
      simpa [Compilation.ahead] using hhere
    simp only [Compiling.statements, ht']
    exact .pure_last hrest
  | cons st ss =>
    obtain ⟨hst, hss⟩ := hss
    obtain ⟨mid, _, _, hone, hrest, rfl⟩ := checks_append.mp h
    obtain ⟨u, mid, rfl, hu, -⟩ := statements_head hrest ht'
    have hle : 4 * st.lexemes.length ≤ fuel := by
      simp only [statementLexemes, List.length_append] at hfuel
      omega
    cases st with
    | assign x e =>
      obtain ⟨hl, -⟩ := Compilation.checks_free_ahead.mp hone
      refine ih.cons_statements ?_ hfuel hss ht' (assign_settles hle hone hs) hrest hs
      simp only [Compiling.statements, hl]
    | assignElement x i e =>
      obtain ⟨hl, -⟩ := Compilation.checks_free_ahead.mp hone
      refine ih.cons_statements ?_ hfuel hss ht' (assignElement_settles hle hone hs) hrest hs
      simp only [Compiling.statements, hl]
    | branch c yes no =>
      have hl : t.lexeme = .keyword .kwIf := by
        cases no <;> exact (Compilation.checks_free_ahead.mp hone).1
      refine ih.cons_statements ?_ hfuel hss ht' (ih.ifStatement hle hst hu hone hs) hrest hs
      simp only [Compiling.statements, hl]
    | loop c body =>
      obtain ⟨hl, -⟩ := Compilation.checks_free_ahead.mp hone
      refine ih.cons_statements ?_ hfuel hss ht' (ih.whileStatement hle hst hone hs) hrest hs
      simp only [Compiling.statements, hl]
    | perform q f es =>
      obtain ⟨hl, -⟩ := Compilation.checks_free_ahead.mp hone
      refine ih.cons_statements ?_ hfuel hss ht' (perform_settles hle hone hs) hrest hs
      simp only [Compiling.statements, hl]
    | giveBack value =>
      have hl : t.lexeme = .keyword .kwReturn := by
        cases value <;> exact (Compilation.checks_free_ahead.mp hone).1
      refine ih.cons_statements ?_ hfuel hss ht' (giveBack_settles hle hst hone hs) hrest hs
      simp only [Compiling.statements, hl]

end FollowsStatements

theorem followsStatements (r : Routine) (fuel : Nat) : FollowsStatements σ r fuel := by
  induction fuel with
  | zero =>
    constructor
    case ifStatement =>
      intro s t t' rest fault c yes no hfuel
      have hpos := (Statement.branch c yes no).lexemes_length_pos
      omega
    case whileStatement =>
      intro s t t' rest fault c body hfuel
      have hpos := (Statement.loop c body).lexemes_length_pos
      omega
    all_goals
      intros
      omega
  | succ fuel ih =>
    refine ⟨ih.statements_succ, ih.block_succ, ?_, ih.whileStatement_succ⟩
    intro s t t' rest fault c yes no hfuel hst ht' h hs
    cases no with
    | none => exact ih.branch_succ hfuel hst ht' h hs
    | some no => exact ih.branchElse_succ hfuel hst h hs

end Compiling

end JackVM
