import JackVM.Proofs.ClassAcceptance

namespace JackVM

section Words

theorem Constant.lexeme_injective {c d : Constant} (h : c.lexeme = d.lexeme) : c = d := by
  cases c <;> cases d <;> simp_all [Constant.lexeme]

theorem UnaryOperator.symbol_injective {a b : UnaryOperator} (h : a.symbol = b.symbol) : a = b := by
  cases a <;> cases b <;> first | rfl | cases h

theorem BinaryOperator.symbol_injective {a b : BinaryOperator} (h : a.symbol = b.symbol) : a = b := by
  cases a <;> cases b <;> first | rfl | cases h

@[simp] theorem Constant.lexeme_ne_symbol {c : Constant} {s : Symbol} : c.lexeme ≠ .symbol s := by
  cases c <;> simp [Constant.lexeme]

@[simp] theorem Constant.lexeme_ne_identifier {c : Constant} {x : String} :
    c.lexeme ≠ .identifier x := by
  cases c <;> simp [Constant.lexeme]

@[simp] theorem Constant.lexeme_ne_this {c : Constant} : c.lexeme ≠ .keyword .kwThis := by
  cases c <;> simp [Constant.lexeme]

@[simp] theorem UnaryOperator.symbol_ne_openParen {op : UnaryOperator} : op.symbol ≠ .openParen := by
  cases op <;> simp [UnaryOperator.symbol]

end Words

-- How the first tokens of a term tell what it is.
section Terms

variable {b : Term} {x : String} {xs ys : List Lexeme}

theorem Term.eq_constant {c : Constant} (h : b.lexemes ++ ys = c.lexeme :: xs) :
    b = .constant c ∧ ys = xs := by
  rcases b with d | _ | y | ⟨y, j⟩ | ⟨_ | q, f, es⟩ | e | ⟨op, t⟩
  case constant =>
    obtain ⟨hd, rfl⟩ := List.cons.inj h
    exact ⟨congrArg _ (Constant.lexeme_injective hd), rfl⟩
  all_goals
    have hhead := (List.cons.inj h).1.symm
    simp at hhead

theorem Term.eq_this (h : b.lexemes ++ ys = .keyword .kwThis :: xs) : b = .this ∧ ys = xs := by
  rcases b with d | _ | y | ⟨y, j⟩ | ⟨_ | q, f, es⟩ | e | ⟨op, t⟩
  case this => exact ⟨rfl, (List.cons.inj h).2⟩
  all_goals
    have hhead := (List.cons.inj h).1
    simp at hhead

theorem Term.eq_parens (h : b.lexemes ++ ys = .symbol .openParen :: xs) :
    ∃ e, b = .parens e ∧ e.lexemes ++ .symbol .closeParen :: ys = xs := by
  rcases b with d | _ | y | ⟨y, j⟩ | ⟨_ | q, f, es⟩ | e | ⟨op, t⟩
  case parens => exact ⟨e, rfl, by simpa [lexemes] using h⟩
  all_goals
    have hhead := (List.cons.inj h).1
    simp at hhead

theorem Term.eq_unary {op : UnaryOperator} (h : b.lexemes ++ ys = .symbol op.symbol :: xs) :
    ∃ t, b = .unary op t ∧ t.lexemes ++ ys = xs := by
  rcases b with d | _ | y | ⟨y, j⟩ | ⟨_ | q, f, es⟩ | e | ⟨op', t⟩
  case unary =>
    obtain ⟨hop, hrest⟩ := List.cons.inj h
    obtain rfl := UnaryOperator.symbol_injective (Lexeme.symbol.inj hop)
    exact ⟨t, rfl, hrest⟩
  case parens =>
    have hop := Lexeme.symbol.inj (List.cons.inj h).1
    exact absurd hop.symm UnaryOperator.symbol_ne_openParen
  all_goals
    have hhead := (List.cons.inj h).1
    simp at hhead

/-- A name that nothing of a term follows is a variable. -/
theorem Term.eq_variable (hxs : Begins Lexeme.EndsTerm xs)
    (h : b.lexemes ++ ys = .identifier x :: xs) : b = .variable x ∧ ys = xs := by
  rcases b with d | _ | y | ⟨y, j⟩ | ⟨_ | q, f, es⟩ | e | ⟨op, t⟩
  case «variable» =>
    obtain ⟨hy, rfl⟩ := List.cons.inj h
    exact ⟨congrArg _ (Lexeme.identifier.inj hy), rfl⟩
  case element | call.none | call.some =>
    obtain ⟨-, rfl⟩ := List.cons.inj h
    simp [Lexeme.EndsTerm] at hxs
  all_goals
    have hhead := (List.cons.inj h).1
    simp at hhead

theorem Term.eq_element (hys : Begins Lexeme.EndsTerm ys)
    (h : b.lexemes ++ ys = .identifier x :: .symbol .openBracket :: xs) :
    ∃ j, b = .element x j ∧ j.lexemes ++ .symbol .closeBracket :: ys = xs := by
  rcases b with d | _ | y | ⟨y, j⟩ | ⟨_ | q, f, es⟩ | e | ⟨op, t⟩
  case element =>
    obtain ⟨hy, hrest⟩ := List.cons.inj h
    obtain rfl := Lexeme.identifier.inj hy
    exact ⟨j, rfl, by simpa using hrest⟩
  case «variable» =>
    obtain ⟨-, rfl⟩ := List.cons.inj h
    simp [Lexeme.EndsTerm] at hys
  case call.none | call.some => simp [lexemes, calleeLexemes] at h
  all_goals
    have hhead := (List.cons.inj h).1
    simp at hhead

theorem Term.eq_call (hys : Begins Lexeme.EndsTerm ys) {q : Option String}
    (h : b.lexemes ++ ys = calleeLexemes q x ++ xs) :
    ∃ es, b = .call q x es ∧ argumentLexemes es ++ .symbol .closeParen :: ys = xs := by
  rcases b with d | _ | y | ⟨y, j⟩ | ⟨p, f, es⟩ | e | ⟨op, t⟩
  case call =>
    have hcallee : q = p ∧ x = f := by
      cases q <;> cases p <;> simp_all [lexemes, calleeLexemes]
    obtain ⟨rfl, rfl⟩ := hcallee
    rw [lexemes, List.append_assoc, List.append_cancel_left_eq] at h
    exact ⟨es, rfl, by simpa using h⟩
  case «variable» =>
    cases q <;>
    · obtain ⟨-, rfl⟩ := List.cons.inj h
      simp [Lexeme.EndsTerm] at hys
  case element => cases q <;> simp [lexemes, calleeLexemes] at h
  all_goals
    cases q <;>
    · have hhead := (List.cons.inj h).1
      simp at hhead

end Terms

section Expressions

theorem Begins.endsTerm {xs : List Lexeme} (h : Begins Lexeme.EndsExpression xs) :
    Begins Lexeme.EndsTerm xs :=
  h.imp fun _ hx => hx.1

theorem begins_arguments (e : Expression) (es : List Expression) (xs : List Lexeme) :
    Begins Lexeme.StartsTerm (argumentLexemes (e :: es) ++ xs) := by
  rw [argumentLexemes, List.append_assoc]
  exact e.begins _

mutual

/-- The tokens of a term tell where it ends and what it is. -/
theorem Term.unique : (a b : Term) → {xs ys : List Lexeme} → Begins Lexeme.EndsTerm xs →
    Begins Lexeme.EndsTerm ys → b.lexemes ++ ys = a.lexemes ++ xs → b = a ∧ ys = xs
  | .constant _, b, _, _, _, _, h => b.eq_constant h
  | .this, b, _, _, _, _, h => b.eq_this h
  | .variable _, b, _, _, hxs, _, h => b.eq_variable hxs h
  | .element x i, b, xs, ys, hxs, hys, h => by
    rw [Term.lexemes, List.cons_append, List.cons_append, List.append_assoc] at h
    obtain ⟨j, rfl, hindex⟩ := b.eq_element hys h
    obtain ⟨rfl, hrest⟩ := i.unique j (by simp [endsExpression_closeBracket])
      (by simp [endsExpression_closeBracket]) hindex
    exact ⟨rfl, by simpa using hrest⟩
  | .call q f es, b, xs, ys, hxs, hys, h => by
    rw [Term.lexemes, List.append_assoc, List.append_assoc] at h
    obtain ⟨fs, rfl, hrest⟩ := b.eq_call hys h
    obtain ⟨rfl, rfl⟩ := arguments_unique es fs hrest
    exact ⟨rfl, rfl⟩
  | .parens e, b, xs, ys, _, _, h => by
    rw [Term.lexemes, List.cons_append, List.append_assoc] at h
    obtain ⟨d, rfl, hinner⟩ := b.eq_parens h
    obtain ⟨rfl, hrest⟩ := e.unique d (by simp [endsExpression_closeParen])
      (by simp [endsExpression_closeParen]) hinner
    exact ⟨rfl, by simpa using hrest⟩
  | .unary op t, b, xs, ys, hxs, hys, h => by
    obtain ⟨u, rfl, hrest⟩ := b.eq_unary h
    obtain ⟨rfl, rfl⟩ := t.unique u hxs hys hrest
    exact ⟨rfl, rfl⟩

theorem Expression.unique : (a b : Expression) → {xs ys : List Lexeme} →
    Begins Lexeme.EndsExpression xs → Begins Lexeme.EndsExpression ys →
    b.lexemes ++ ys = a.lexemes ++ xs → b = a ∧ ys = xs
  | .chain t ops, .chain u os, xs, ys, hxs, hys, h => by
    rw [Expression.lexemes, Expression.lexemes, List.append_assoc, List.append_assoc] at h
    obtain ⟨rfl, hrest⟩ := t.unique u (begins_operations hxs.endsTerm)
      (begins_operations hys.endsTerm) h
    obtain ⟨rfl, rfl⟩ := operations_unique ops os hxs hys hrest
    exact ⟨rfl, rfl⟩

theorem operations_unique : (as bs : List (BinaryOperator × Term)) → {xs ys : List Lexeme} →
    Begins Lexeme.EndsExpression xs → Begins Lexeme.EndsExpression ys →
    operationLexemes bs ++ ys = operationLexemes as ++ xs → bs = as ∧ ys = xs
  | [], [], _, _, _, _, h => ⟨rfl, h⟩
  | [], (op, _) :: _, xs, _, hxs, _, h => by
    obtain rfl : _ = xs := h
    simp [operationLexemes, Lexeme.EndsExpression, binaryInstruction?_symbol] at hxs
  | (op, _) :: _, [], _, ys, _, hys, h => by
    obtain rfl : ys = _ := h
    simp [operationLexemes, Lexeme.EndsExpression, binaryInstruction?_symbol] at hys
  | (op, t) :: as, (op', u) :: bs, xs, ys, hxs, hys, h => by
    obtain ⟨hop, hrest⟩ := List.cons.inj h
    obtain rfl := BinaryOperator.symbol_injective (Lexeme.symbol.inj hop)
    rw [List.append_eq, List.append_eq, List.append_assoc, List.append_assoc] at hrest
    obtain ⟨rfl, hmore⟩ := t.unique u (begins_operations hxs.endsTerm)
      (begins_operations hys.endsTerm) hrest
    obtain ⟨rfl, rfl⟩ := operations_unique as bs hxs hys hmore
    exact ⟨rfl, rfl⟩

theorem arguments_unique : (as bs : List Expression) → {xs ys : List Lexeme} →
    argumentLexemes bs ++ .symbol .closeParen :: ys =
      argumentLexemes as ++ .symbol .closeParen :: xs → bs = as ∧ ys = xs
  | [], [], _, _, h => ⟨rfl, (List.cons.inj h).2⟩
  | [], b :: bs, xs, ys, h => by
    have hstarts := begins_arguments b bs (.symbol .closeParen :: ys)
    rw [h] at hstarts
    exact absurd rfl (begins_cons.mp hstarts).1
  | a :: as, [], xs, ys, h => by
    have hstarts := begins_arguments a as (.symbol .closeParen :: xs)
    rw [← h] at hstarts
    exact absurd rfl (begins_cons.mp hstarts).1
  | a :: as, b :: bs, _, _, h => by
    rw [argumentLexemes, argumentLexemes, List.append_assoc, List.append_assoc] at h
    obtain ⟨rfl, hrest⟩ := a.unique b begins_moreArguments begins_moreArguments h
    obtain ⟨rfl, rfl⟩ := moreArguments_unique as bs hrest
    exact ⟨rfl, rfl⟩

theorem moreArguments_unique : (as bs : List Expression) → {xs ys : List Lexeme} →
    moreArgumentLexemes bs ++ .symbol .closeParen :: ys =
      moreArgumentLexemes as ++ .symbol .closeParen :: xs → bs = as ∧ ys = xs
  | [], [], _, _, h => ⟨rfl, (List.cons.inj h).2⟩
  | [], b :: bs, _, _, h => by simp [moreArgumentLexemes] at h
  | a :: as, [], _, _, h => by simp [moreArgumentLexemes] at h
  | a :: as, b :: bs, _, _, h => by
    have hrest := (List.cons.inj h).2
    rw [List.append_eq, List.append_eq, List.append_assoc, List.append_assoc] at hrest
    obtain ⟨rfl, hmore⟩ := a.unique b begins_moreArguments begins_moreArguments hrest
    obtain ⟨rfl, rfl⟩ := moreArguments_unique as bs hmore
    exact ⟨rfl, rfl⟩

end

end Expressions

section Statements

theorem Expression.unique_before {s : Symbol} (hs : (Lexeme.symbol s).EndsExpression)
    {a b : Expression} {xs ys : List Lexeme}
    (h : b.lexemes ++ .symbol s :: ys = a.lexemes ++ .symbol s :: xs) : b = a ∧ ys = xs := by
  obtain ⟨rfl, hrest⟩ := a.unique b (begins_cons.mpr hs) (begins_cons.mpr hs) h
  exact ⟨rfl, (List.cons.inj hrest).2⟩

theorem call_unique {p q : Option String} {f g : String} {es fs : List Expression}
    {xs ys : List Lexeme} (h : callLexemes p g fs ++ ys = callLexemes q f es ++ xs) :
    p = q ∧ g = f ∧ fs = es ∧ ys = xs := by
  have hcallee : p = q ∧ g = f := by
    cases p <;> cases q <;> simp_all [callLexemes, calleeLexemes]
  obtain ⟨rfl, rfl⟩ := hcallee
  simp only [callLexemes, List.append_assoc, List.append_cancel_left_eq] at h
  obtain ⟨rfl, rfl⟩ := arguments_unique es fs h
  exact ⟨rfl, rfl, rfl, rfl⟩

mutual

/-- The tokens of a statement tell where it ends and what it is. -/
theorem Statement.unique : (a b : Statement) → {xs ys : List Lexeme} →
    Begins Lexeme.StartsStatement xs → Begins Lexeme.StartsStatement ys →
    b.lexemes ++ ys = a.lexemes ++ xs → b = a ∧ ys = xs
  | .assign x e, b, xs, ys, _, _, h => by
    rcases b with ⟨y, d⟩ | ⟨y, j, d⟩ | ⟨d, yes', _ | no'⟩ | ⟨d, body'⟩ | ⟨p, g, fs⟩ | ⟨_ | d⟩
    case assign =>
      simp only [Statement.lexemes, List.cons_append, List.append_assoc, List.cons.injEq,
        Lexeme.identifier.injEq, true_and] at h
      obtain ⟨rfl, hvalue⟩ := h
      obtain ⟨rfl, rfl⟩ := Expression.unique_before endsExpression_semicolon hvalue
      exact ⟨rfl, rfl⟩
    all_goals simp [Statement.lexemes] at h
  | .assignElement x i e, b, xs, ys, _, _, h => by
    rcases b with ⟨y, d⟩ | ⟨y, j, d⟩ | ⟨d, yes', _ | no'⟩ | ⟨d, body'⟩ | ⟨p, g, fs⟩ | ⟨_ | d⟩
    case assignElement =>
      simp only [Statement.lexemes, List.cons_append, List.append_assoc, List.cons.injEq,
        Lexeme.identifier.injEq, true_and] at h
      obtain ⟨rfl, hindex⟩ := h
      obtain ⟨rfl, htail⟩ := Expression.unique_before endsExpression_closeBracket hindex
      obtain ⟨rfl, rfl⟩ := Expression.unique_before endsExpression_semicolon (List.cons.inj htail).2
      exact ⟨rfl, rfl⟩
    all_goals simp [Statement.lexemes] at h
  | .branch c yes none, b, xs, ys, hxs, _, h => by
    rcases b with ⟨y, d⟩ | ⟨y, j, d⟩ | ⟨d, yes', _ | no'⟩ | ⟨d, body'⟩ | ⟨p, g, fs⟩ | ⟨_ | d⟩
    case branch.none | branch.some =>
      simp only [Statement.lexemes, braced, List.cons_append, List.append_assoc, List.cons.injEq,
        true_and] at h
      obtain ⟨rfl, hblock⟩ := Expression.unique_before endsExpression_closeParen h
      obtain ⟨rfl, rfl⟩ := statements_unique yes yes' (List.cons.inj hblock).2
      simp_all [Lexeme.StartsStatement]
    all_goals simp [Statement.lexemes] at h
  | .branch c yes (some no), b, xs, ys, _, hys, h => by
    rcases b with ⟨y, d⟩ | ⟨y, j, d⟩ | ⟨d, yes', _ | no'⟩ | ⟨d, body'⟩ | ⟨p, g, fs⟩ | ⟨_ | d⟩
    case branch.none =>
      simp only [Statement.lexemes, braced, List.cons_append, List.append_assoc, List.cons.injEq,
        true_and] at h
      obtain ⟨rfl, hblock⟩ := Expression.unique_before endsExpression_closeParen h
      obtain ⟨rfl, rfl⟩ := statements_unique yes yes' (List.cons.inj hblock).2
      simp [Lexeme.StartsStatement] at hys
    case branch.some =>
      simp only [Statement.lexemes, braced, List.cons_append, List.append_assoc, List.cons.injEq,
        true_and] at h
      obtain ⟨rfl, hblock⟩ := Expression.unique_before endsExpression_closeParen h
      obtain ⟨rfl, htail⟩ := statements_unique yes yes' (List.cons.inj hblock).2
      simp only [List.nil_append, List.cons.injEq, true_and] at htail
      obtain ⟨rfl, rfl⟩ := statements_unique no no' htail
      exact ⟨rfl, rfl⟩
    all_goals simp [Statement.lexemes] at h
  | .loop c body, b, xs, ys, _, _, h => by
    rcases b with ⟨y, d⟩ | ⟨y, j, d⟩ | ⟨d, yes', _ | no'⟩ | ⟨d, body'⟩ | ⟨p, g, fs⟩ | ⟨_ | d⟩
    case loop =>
      simp only [Statement.lexemes, braced, List.cons_append, List.append_assoc, List.cons.injEq,
        true_and] at h
      obtain ⟨rfl, hblock⟩ := Expression.unique_before endsExpression_closeParen h
      obtain ⟨rfl, rfl⟩ := statements_unique body body' (List.cons.inj hblock).2
      exact ⟨rfl, rfl⟩
    all_goals simp [Statement.lexemes] at h
  | .perform q f es, b, xs, ys, _, _, h => by
    rcases b with ⟨y, d⟩ | ⟨y, j, d⟩ | ⟨d, yes', _ | no'⟩ | ⟨d, body'⟩ | ⟨p, g, fs⟩ | ⟨_ | d⟩
    case perform =>
      simp only [Statement.lexemes, List.cons_append, List.append_assoc, List.cons.injEq, true_and]
        at h
      obtain ⟨rfl, rfl, rfl, hrest⟩ := call_unique h
      exact ⟨rfl, (List.cons.inj hrest).2⟩
    all_goals simp [Statement.lexemes] at h
  | .giveBack none, b, xs, ys, _, _, h => by
    rcases b with ⟨y, d⟩ | ⟨y, j, d⟩ | ⟨d, yes', _ | no'⟩ | ⟨d, body'⟩ | ⟨p, g, fs⟩ | ⟨_ | d⟩
    case giveBack.none => exact ⟨rfl, by simpa [Statement.lexemes] using h⟩
    case giveBack.some =>
      have hstarts := d.begins (.symbol .semicolon :: ys)
      simp only [Statement.lexemes, List.cons_append, List.append_assoc, List.cons.injEq,
        List.nil_append, true_and] at h
      rw [h] at hstarts
      exact absurd rfl (begins_cons.mp hstarts).2
    all_goals simp [Statement.lexemes] at h
  | .giveBack (some e), b, xs, ys, _, _, h => by
    rcases b with ⟨y, d⟩ | ⟨y, j, d⟩ | ⟨d, yes', _ | no'⟩ | ⟨d, body'⟩ | ⟨p, g, fs⟩ | ⟨_ | d⟩
    case giveBack.none =>
      have hstarts := e.begins (.symbol .semicolon :: xs)
      simp only [Statement.lexemes, List.cons_append, List.append_assoc, List.cons.injEq,
        List.nil_append, true_and] at h
      rw [← h] at hstarts
      exact absurd rfl (begins_cons.mp hstarts).2
    case giveBack.some =>
      simp only [Statement.lexemes, List.cons_append, List.append_assoc, List.cons.injEq, true_and]
        at h
      obtain ⟨rfl, rfl⟩ := Expression.unique_before endsExpression_semicolon h
      exact ⟨rfl, rfl⟩
    all_goals simp [Statement.lexemes] at h

theorem statements_unique : (as bs : List Statement) → {xs ys : List Lexeme} →
    statementLexemes bs ++ .symbol .closeBrace :: ys =
      statementLexemes as ++ .symbol .closeBrace :: xs → bs = as ∧ ys = xs
  | [], [], _, _, h => ⟨rfl, (List.cons.inj h).2⟩
  | [], b :: bs, xs, ys, h => by
    rcases b with ⟨y, d⟩ | ⟨y, j, d⟩ | ⟨d, yes', _ | no'⟩ | ⟨d, body'⟩ | ⟨p, g, fs⟩ | ⟨_ | d⟩ <;>
      simp [statementLexemes, Statement.lexemes] at h
  | a :: as, [], xs, ys, h => by
    rcases a with ⟨x, e⟩ | ⟨x, i, e⟩ | ⟨c, yes, _ | no⟩ | ⟨c, body⟩ | ⟨q, f, es⟩ | ⟨_ | e⟩ <;>
      simp [statementLexemes, Statement.lexemes] at h
  | a :: as, b :: bs, _, _, h => by
    rw [statementLexemes, statementLexemes, List.append_assoc, List.append_assoc] at h
    obtain ⟨rfl, hrest⟩ := a.unique b begins_statements begins_statements h
    obtain ⟨rfl, rfl⟩ := statements_unique as bs hrest
    exact ⟨rfl, rfl⟩

end

end Statements

section Declarations

theorem TypeName.lexeme_injective {a b : TypeName} (h : a.lexeme = b.lexeme) : a = b := by
  cases a <;> cases b <;> simp_all [TypeName.lexeme]

theorem RoutineKind.lexeme_injective {a b : RoutineKind} (h : a.lexeme = b.lexeme) : a = b := by
  cases a <;> cases b <;> simp_all [RoutineKind.lexeme]

theorem returnedLexeme_injective {a b : Option TypeName} (h : returnedLexeme a = returnedLexeme b) :
    a = b := by
  cases a with
  | none => cases b with
    | none => rfl
    | some t => cases t <;> simp [returnedLexeme, TypeName.lexeme] at h
  | some t => cases b with
    | none => cases t <;> simp [returnedLexeme, TypeName.lexeme] at h
    | some u => exact congrArg some (TypeName.lexeme_injective h)

variable {xs ys : List Lexeme}

theorem names_unique {first first' : String} {others others' : List String}
    (h : nameLexemes first' others' ++ ys = nameLexemes first others ++ xs) :
    first' = first ∧ others' = others ∧ ys = xs := by
  induction others generalizing first first' others' with
  | nil => cases others' <;> simp_all [nameLexemes]
  | cons x others ih =>
    cases others' with
    | nil => simp [nameLexemes] at h
    | cons x' others' =>
      simp only [nameLexemes, List.cons_append, List.cons.injEq, Lexeme.identifier.injEq,
        true_and] at h
      obtain ⟨rfl, hrest⟩ := h
      obtain ⟨rfl, rfl, rfl⟩ := ih hrest
      exact ⟨rfl, rfl, rfl⟩

theorem NameGroup.unique {g g' : NameGroup} (h : g'.lexemes ++ ys = g.lexemes ++ xs) :
    g' = g ∧ ys = xs := by
  obtain ⟨type, first, others⟩ := g
  obtain ⟨type', first', others'⟩ := g'
  obtain ⟨htype, hnames⟩ := List.cons.inj h
  obtain rfl := TypeName.lexeme_injective htype
  obtain ⟨rfl, rfl, rfl⟩ := names_unique hnames
  exact ⟨rfl, rfl⟩

theorem Parameter.eq_of_lexemes {p q : Parameter} (htype : q.type.lexeme = p.type.lexeme)
    (hname : q.name = p.name) : q = p := by
  obtain ⟨type, name⟩ := p
  obtain ⟨type', name'⟩ := q
  obtain rfl : type' = type := TypeName.lexeme_injective htype
  obtain rfl : name' = name := hname
  rfl

theorem parameters_unique {ps qs : List Parameter}
    (h : parameterLexemes qs ++ .symbol .closeParen :: ys =
      parameterLexemes ps ++ .symbol .closeParen :: xs) : qs = ps ∧ ys = xs := by
  induction ps generalizing qs with
  | nil =>
    cases qs with
    | nil => exact ⟨rfl, (List.cons.inj h).2⟩
    | cons q qs =>
      have hstarts := begins_parameters q qs (.symbol .closeParen :: ys)
      rw [h] at hstarts
      exact absurd rfl (begins_cons.mp hstarts)
  | cons p ps ih =>
    cases qs with
    | nil =>
      have hstarts := begins_parameters p ps (.symbol .closeParen :: xs)
      rw [← h] at hstarts
      exact absurd rfl (begins_cons.mp hstarts)
    | cons q qs =>
      cases ps with
      | nil =>
        cases qs with
        | nil =>
          simp only [parameterLexemes, Parameter.lexemes, List.cons_append, List.nil_append,
            List.cons.injEq, Lexeme.identifier.injEq, true_and] at h
          obtain ⟨htype, hname, hrest⟩ := h
          obtain rfl := Parameter.eq_of_lexemes htype hname
          exact ⟨rfl, hrest⟩
        | cons q' qs => simp [parameterLexemes, Parameter.lexemes] at h
      | cons p' ps =>
        cases qs with
        | nil => simp [parameterLexemes, Parameter.lexemes] at h
        | cons q' qs =>
          simp only [parameterLexemes, Parameter.lexemes, List.cons_append, List.nil_append,
            List.cons.injEq, Lexeme.identifier.injEq, true_and] at h
          obtain ⟨htype, hname, hrest⟩ := h
          obtain rfl := Parameter.eq_of_lexemes htype hname
          obtain ⟨hmore, hrest⟩ := ih hrest
          exact ⟨congrArg _ hmore, hrest⟩

/-- Parts that each tell where they end, with a token after the last that starts no other. -/
theorem flatMap_unique {α : Type} {f : α → List Lexeme} {P : Lexeme → Prop}
    (hstarts : ∀ a, ∃ x tail, f a = x :: tail ∧ ¬P x)
    (hunique : ∀ {a b xs ys}, f b ++ ys = f a ++ xs → b = a ∧ ys = xs) {as bs : List α}
    (hxs : Begins P xs) (hys : Begins P ys) (h : bs.flatMap f ++ ys = as.flatMap f ++ xs) :
    bs = as ∧ ys = xs := by
  induction as generalizing bs with
  | nil =>
    cases bs with
    | nil => exact ⟨rfl, h⟩
    | cons b bs =>
      obtain ⟨x, tail, hb, hx⟩ := hstarts b
      rw [List.flatMap_cons, hb] at h
      obtain rfl : _ = xs := h
      exact absurd (begins_cons.mp hxs) hx
  | cons a as ih =>
    cases bs with
    | nil =>
      obtain ⟨x, tail, ha, hx⟩ := hstarts a
      rw [List.flatMap_cons, ha] at h
      obtain rfl : ys = _ := h
      exact absurd (begins_cons.mp hys) hx
    | cons b bs =>
      rw [List.flatMap_cons, List.flatMap_cons, List.append_assoc, List.append_assoc] at h
      obtain ⟨rfl, hrest⟩ := hunique h
      obtain ⟨rfl, rfl⟩ := ih hrest
      exact ⟨rfl, rfl⟩

theorem ClassVariables.unique {v w : ClassVariables} (h : w.lexemes ++ ys = v.lexemes ++ xs) :
    w = v ∧ ys = xs := by
  obtain ⟨field, g⟩ := v
  obtain ⟨field', g'⟩ := w
  obtain ⟨hword, hgroup⟩ := List.cons.inj h
  obtain ⟨rfl, rfl⟩ := NameGroup.unique hgroup
  cases field <;> cases field' <;> simp_all

theorem RoutineTree.unique {q r : RoutineTree} (h : q.lexemes ++ ys = r.lexemes ++ xs) :
    q = r ∧ ys = xs := by
  obtain ⟨kind, returned, name, ps, gs, ss⟩ := r
  obtain ⟨kind', returned', name', ps', gs', ss'⟩ := q
  simp only [RoutineTree.lexemes, braced, List.cons_append, List.append_assoc, List.nil_append,
    List.cons.injEq, Lexeme.identifier.injEq, true_and] at h
  obtain ⟨hkind, hreturned, rfl, hrest⟩ := h
  obtain rfl := RoutineKind.lexeme_injective hkind
  obtain rfl := returnedLexeme_injective hreturned
  obtain ⟨rfl, hbody⟩ := parameters_unique hrest
  obtain ⟨rfl, hstatements⟩ := flatMap_unique (P := Lexeme.StartsStatement)
    (fun g => ⟨_, _, rfl, by simp [Lexeme.StartsStatement]⟩)
    (fun h => NameGroup.unique (List.cons.inj h).2) begins_statements begins_statements
    (List.cons.inj hbody).2
  obtain ⟨rfl, rfl⟩ := statements_unique ss ss' hstatements
  exact ⟨rfl, rfl⟩

/-- The grammar is unambiguous: a source is read as one class at most. -/
theorem ClassTree.lexemes_injective {c d : ClassTree} (h : c.lexemes = d.lexemes) : c = d := by
  obtain ⟨⟨name, vs⟩, rs⟩ := c
  obtain ⟨⟨name', vs'⟩, rs'⟩ := d
  simp only [ClassTree.lexemes, braced, List.append_assoc, List.cons.injEq,
    Lexeme.identifier.injEq, true_and] at h
  obtain ⟨rfl, hmembers⟩ := h
  obtain ⟨rfl, hroutines⟩ := flatMap_unique (P := (classVariableKind? · = none))
    (fun v => ⟨_, _, rfl, by simp [classVariableKind?_keyword]⟩) ClassVariables.unique
    begins_routines begins_routines hmembers
  obtain ⟨rfl, -⟩ := flatMap_unique (P := (· = .symbol .closeBrace))
    (fun r => ⟨_, _, rfl, by cases r.kind <;> simp [RoutineKind.lexeme]⟩) RoutineTree.unique
    (by simp) (by simp) hroutines
  rfl

end Declarations

end JackVM
