import JackVM.Proofs.TreeCode

namespace JackVM

/-- No string constant is among these tokens. -/
def StringFree (xs : List Lexeme) : Prop :=
  ∀ text, .string text ∉ xs

section StringFree

variable {xs ys : List Lexeme} {x : Lexeme}

@[simp] theorem stringFree_nil : StringFree [] := by
  simp [StringFree]

@[simp] theorem stringFree_cons :
    StringFree (x :: xs) ↔ (∀ text, x ≠ .string text) ∧ StringFree xs := by
  simp [StringFree, forall_and, eq_comm]

@[simp] theorem stringFree_append : StringFree (xs ++ ys) ↔ StringFree xs ∧ StringFree ys := by
  simp [StringFree, forall_and]

theorem stringFree_flatMap {α : Type} {f : α → List Lexeme} {as : List α}
    (h : ∀ a, StringFree (f a)) : StringFree (as.flatMap f) := by
  intro text htext
  obtain ⟨a, -, ha⟩ := List.mem_flatMap.mp htext
  exact h a text ha

@[simp] theorem TypeName.lexeme_ne_string (type : TypeName) (text : String) :
    type.lexeme ≠ .string text := by
  cases type <;> simp [TypeName.lexeme]

theorem stringFree_calleeLexemes (q : Option String) (f : String) :
    StringFree (calleeLexemes q f) := by
  cases q <;> simp [calleeLexemes]

theorem stringFree_nameLexemes (first : String) (others : List String) :
    StringFree (nameLexemes first others) := by
  induction others generalizing first with
  | nil => simp [nameLexemes]
  | cons x xs ih => simp [nameLexemes, ih]

theorem NameGroup.stringFree (g : NameGroup) : StringFree g.lexemes := by
  simp [NameGroup.lexemes, stringFree_nameLexemes]

theorem ClassVariables.stringFree (v : ClassVariables) : StringFree v.lexemes := by
  simp [ClassVariables.lexemes, v.group.stringFree]

theorem stringFree_parameterLexemes (ps : List Parameter) : StringFree (parameterLexemes ps) := by
  fun_induction parameterLexemes ps with
  | case1 => exact stringFree_nil
  | case2 p => simp [Parameter.lexemes]
  | case3 p q ps ih => simp [Parameter.lexemes, ih]

end StringFree

section Code

variable {text : String} (ρ : Scope)

mutual

theorem push_length_term : (t : Term) → .string text ∈ t.lexemes →
    .push .constant text.length ∈ t.code ρ
  | .constant c, h => by
    cases c with
    | string s =>
      have hs : text = s := by simpa [Term.lexemes, Constant.lexeme] using h
      simp [Term.code, Constant.code, stringCode, hs]
    | _ => simp [Term.lexemes, Constant.lexeme] at h
  | .this, h => by simp [Term.lexemes] at h
  | .variable x, h => by simp [Term.lexemes] at h
  | .element x i, h => by
    have hi := push_length_expression i (by simpa [Term.lexemes] using h)
    simp [Term.code, hi]
  | .call q f es, h => by
    have hes := push_length_arguments es
      (by simpa [Term.lexemes, stringFree_calleeLexemes q f text] using h)
    simp [Term.code, hes]
  | .parens e, h => push_length_expression e (by simpa [Term.lexemes] using h)
  | .unary op t, h => by
    have ht := push_length_term t (by simpa [Term.lexemes] using h)
    simp [Term.code, ht]

theorem push_length_expression : (e : Expression) → .string text ∈ e.lexemes →
    .push .constant text.length ∈ e.code ρ
  | .chain t rest, h => by
    rw [Expression.lexemes, List.mem_append] at h
    rw [Expression.code, List.mem_append]
    exact h.imp (push_length_term t) (push_length_operations rest)

theorem push_length_operations : (rest : List (BinaryOperator × Term)) →
    .string text ∈ operationLexemes rest →
      .push .constant text.length ∈ operationCode ρ rest
  | [], h => by simp [operationLexemes] at h
  | (op, t) :: rest, h => by
    have hparts : .string text ∈ t.lexemes ∨ .string text ∈ operationLexemes rest := by
      simpa [operationLexemes] using h
    rw [operationCode, List.mem_append, List.mem_cons]
    exact hparts.imp (push_length_term t) fun hrest => .inr (push_length_operations rest hrest)

theorem push_length_arguments : (es : List Expression) → .string text ∈ argumentLexemes es →
    .push .constant text.length ∈ argumentCode ρ es
  | [], h => by simp [argumentLexemes] at h
  | e :: es, h => by
    rw [argumentLexemes, List.mem_append] at h
    rw [argumentCode, List.mem_append]
    exact h.imp (push_length_expression e) (push_length_moreArguments es)

theorem push_length_moreArguments : (es : List Expression) →
    .string text ∈ moreArgumentLexemes es → .push .constant text.length ∈ argumentCode ρ es
  | [], h => by simp [moreArgumentLexemes] at h
  | e :: es, h => by
    have hparts : .string text ∈ e.lexemes ∨ .string text ∈ moreArgumentLexemes es := by
      simpa [moreArgumentLexemes] using h
    rw [argumentCode, List.mem_append]
    exact hparts.imp (push_length_expression e) (push_length_moreArguments es)

end

mutual

theorem push_length_statement : (st : Statement) → (n : Nat) → .string text ∈ st.lexemes →
    .push .constant text.length ∈ st.code ρ n
  | .assign x e, n, h => by
    have he := push_length_expression ρ e (by simpa [Statement.lexemes] using h)
    simp [Statement.code, he]
  | .assignElement x i e, n, h => by
    have hparts : .string text ∈ i.lexemes ∨ .string text ∈ e.lexemes := by
      simpa [Statement.lexemes] using h
    have hcode := hparts.imp (push_length_expression ρ i) (push_length_expression ρ e)
    rcases hcode with hcode | hcode <;> simp [Statement.code, hcode]
  | .branch c yes none, n, h => by
    have hparts : .string text ∈ c.lexemes ∨ .string text ∈ statementLexemes yes := by
      simpa [Statement.lexemes, braced] using h
    have hcode := hparts.imp (push_length_expression ρ c) (push_length_statements yes (n + 1))
    rcases hcode with hcode | hcode <;> simp [Statement.code, hcode]
  | .branch c yes (some no), n, h => by
    have hparts : .string text ∈ c.lexemes ∨ .string text ∈ statementLexemes yes ∨
        .string text ∈ statementLexemes no := by
      simpa [Statement.lexemes, braced] using h
    rcases hparts with hpart | hpart | hpart
    · simp [Statement.code, push_length_expression ρ c hpart]
    · simp [Statement.code, push_length_statements yes (n + 1) hpart]
    · simp [Statement.code, push_length_statements no (n + 1 + labelCount yes + 1) hpart]
  | .loop c body, n, h => by
    have hparts : .string text ∈ c.lexemes ∨ .string text ∈ statementLexemes body := by
      simpa [Statement.lexemes, braced] using h
    have hcode := hparts.imp (push_length_expression ρ c) (push_length_statements body (n + 2))
    rcases hcode with hcode | hcode <;> simp [Statement.code, hcode]
  | .perform q f es, n, h => by
    have hes := push_length_arguments ρ es
      (by simpa [Statement.lexemes, callLexemes, stringFree_calleeLexemes q f text] using h)
    simp [Statement.code, callCode, hes]
  | .giveBack none, n, h => by simp [Statement.lexemes] at h
  | .giveBack (some e), n, h => by
    have he := push_length_expression ρ e (by simpa [Statement.lexemes] using h)
    simp [Statement.code, he]

theorem push_length_statements : (ss : List Statement) → (n : Nat) →
    .string text ∈ statementLexemes ss → .push .constant text.length ∈ statementCode ρ ss n
  | [], n, h => by simp [statementLexemes] at h
  | st :: ss, n, h => by
    rw [statementLexemes, List.mem_append] at h
    rw [statementCode, List.mem_append]
    exact h.imp (push_length_statement st n) (push_length_statements ss _)

end

end Code

section Classes

variable {text : String}

theorem RoutineTree.string_mem_body {r : RoutineTree} (h : .string text ∈ r.lexemes) :
    .string text ∈ statementLexemes r.body := by
  have hkind : r.kind.lexeme ≠ .string text := by
    cases r.kind <;> simp [RoutineKind.lexeme]
  have hreturned : returnedLexeme r.returned ≠ .string text := by
    cases r.returned <;> simp [returnedLexeme]
  have hparameters := stringFree_parameterLexemes r.parameters text
  have hlocals : StringFree (r.locals.flatMap fun g => .keyword .kwVar :: g.lexemes) :=
    stringFree_flatMap fun g => by simp [g.stringFree]
  have hlocal := hlocals text
  simpa [RoutineTree.lexemes, braced, hkind.symm, hreturned.symm, hparameters, hlocal] using h

theorem ClassHead.push_length_routinesCode (c : ClassHead) {rs : List RoutineTree} {n : Nat}
    (h : .string text ∈ rs.flatMap RoutineTree.lexemes) :
    .push .constant text.length ∈ c.routinesCode rs n := by
  induction rs generalizing n with
  | nil => simp at h
  | cons r rs ih =>
    rw [List.flatMap_cons, List.mem_append] at h
    rw [routinesCode, List.mem_append]
    refine h.imp (fun hr => ?_) ih
    have hbody := push_length_statements (c.scope r) r.body n (RoutineTree.string_mem_body hr)
    simp [routineCode, bodyCode, hbody]

/-- The code of a class pushes the length of each string constant in it. -/
theorem ClassTree.push_length_code {c : ClassTree} (h : .string text ∈ c.lexemes) :
    .push .constant text.length ∈ c.code := by
  have hgroups : StringFree (c.variableGroups.flatMap ClassVariables.lexemes) :=
    stringFree_flatMap ClassVariables.stringFree
  have hvariables := hgroups text
  have hroutines : .string text ∈ c.routines.flatMap RoutineTree.lexemes := by
    simpa [ClassTree.lexemes, braced, hvariables] using h
  exact c.push_length_routinesCode hroutines

end Classes

end JackVM
