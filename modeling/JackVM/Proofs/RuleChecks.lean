import JackVM.Proofs.Rules
import JackVM.Proofs.Sentences

namespace JackVM

/-- All of some tokens keep to their rules. -/
def AllKept (ms : List Mark) : Prop :=
  ∀ m ∈ ms, m.IsKept

section Kept

variable {ρ : Scope} {m : Mark} {ms ns : List Mark}

@[simp] theorem allKept_nil : AllKept [] := by simp [AllKept]

@[simp] theorem allKept_cons : AllKept (m :: ms) ↔ m.IsKept ∧ AllKept ms := by simp [AllKept]

@[simp] theorem allKept_append : AllKept (ms ++ ns) ↔ AllKept ms ∧ AllKept ns :=
  List.forall_mem_append

theorem isKept_known {x : String} : Mark.IsKept ⟨.identifier x, .known ρ⟩ ↔ ρ.Declares x := Iff.rfl

theorem isKept_new {x : String} {earlier : List Declaration} :
    Mark.IsKept ⟨.identifier x, .new earlier⟩ ↔ x ∉ earlier.map Declaration.name := by
  simp [Mark.IsKept, Rule.IsKeptBy, Lexeme.text]

theorem keeps_calleeMarks {q : Option String} {f : String} :
    AllKept (calleeMarks ρ q f) ↔ (q = none → ρ.HasObject) := by
  cases q <;> simp [calleeMarks, Mark.IsKept, Rule.IsKeptBy]

mutual

/-- The rules for the tokens of a term are those for its scope. -/
theorem Term.keeps_marks : (e : Term) → (AllKept (e.marks ρ) ↔ e.Scoped ρ)
  | .constant _ => by simp [Term.marks, Term.Scoped]
  | .this => by simp [Term.marks, Term.Scoped, Mark.IsKept, Rule.IsKeptBy]
  | .variable _ => by simp [Term.marks, Term.Scoped, isKept_known]
  | .element _ i => by
    have hi := i.keeps_marks
    simp [Term.marks, Term.Scoped, isKept_known, hi]
  | .call _ _ es => by
    have hes := keeps_argumentMarks es
    simp [Term.marks, Term.Scoped, keeps_calleeMarks, hes]
  | .parens e => by
    have he := e.keeps_marks
    simp [Term.marks, Term.Scoped, he]
  | .unary _ t => by
    have ht := t.keeps_marks
    simp [Term.marks, Term.Scoped, ht]

theorem Expression.keeps_marks :
    (e : Expression) → (AllKept (e.marks ρ) ↔ e.Scoped ρ)
  | .chain t rest => by
    have ht := t.keeps_marks
    have hrest := keeps_operationMarks rest
    simp [Expression.marks, Expression.Scoped, ht, hrest]

theorem keeps_operationMarks : (ops : List (BinaryOperator × Term)) →
    (AllKept (operationMarks ρ ops) ↔ OperationsScoped ρ ops)
  | [] => by simp [operationMarks, OperationsScoped]
  | (_, t) :: rest => by
    have ht := t.keeps_marks
    have hrest := keeps_operationMarks rest
    simp [operationMarks, OperationsScoped, ht, hrest]

theorem keeps_argumentMarks : (es : List Expression) →
    (AllKept (argumentMarks ρ es) ↔ ArgumentsScoped ρ es)
  | [] => by simp [argumentMarks, ArgumentsScoped]
  | e :: es => by
    have he := e.keeps_marks
    have hes := keeps_moreArgumentMarks es
    simp [argumentMarks, ArgumentsScoped, he, hes]

theorem keeps_moreArgumentMarks : (es : List Expression) →
    (AllKept (moreArgumentMarks ρ es) ↔ ArgumentsScoped ρ es)
  | [] => by simp [moreArgumentMarks, ArgumentsScoped]
  | e :: es => by
    have he := e.keeps_marks
    have hes := keeps_moreArgumentMarks es
    simp [moreArgumentMarks, ArgumentsScoped, he, hes]

end

theorem keeps_bracedMarks {ms : List Mark} :
    AllKept (bracedMarks ms) ↔ AllKept ms := by
  simp [bracedMarks]

mutual

theorem Statement.keeps_marks : (st : Statement) →
    (AllKept (st.marks ρ) ∧ st.Returns ρ.routine.returnsVoid ↔ st.Scoped ρ)
  | .assign _ e => by
    simp [Statement.marks, Statement.Scoped, Statement.Returns,
      isKept_known, e.keeps_marks]
  | .assignElement _ i e => by
    simp [Statement.marks, Statement.Scoped, Statement.Returns,
      isKept_known, i.keeps_marks, e.keeps_marks]
  | .branch c yes none => by
    have hyes := keeps_statementMarks yes
    simp [Statement.marks, Statement.Scoped, Statement.Returns,
      keeps_bracedMarks, c.keeps_marks, ← hyes, and_assoc]
  | .branch c yes (some no) => by
    have hyes := keeps_statementMarks yes
    have hno := keeps_statementMarks no
    simp only [Statement.marks, Statement.Scoped, Statement.Returns, allKept_cons, allKept_append,
      keeps_bracedMarks, c.keeps_marks, ← hyes, ← hno, Mark.isKept_free, true_and]
    rw [and_assoc, and_and_and_comm (a := AllKept (statementMarks ρ yes))]
  | .loop c body => by
    have hbody := keeps_statementMarks body
    simp [Statement.marks, Statement.Scoped, Statement.Returns,
      keeps_bracedMarks, c.keeps_marks, ← hbody, and_assoc]
  | .perform q f es => by
    simp [Statement.marks, Statement.Scoped, Statement.Returns, callMarks,
      keeps_calleeMarks, keeps_argumentMarks]
  | .giveBack none => by
    simp [Statement.marks, Statement.Scoped, Statement.Returns]
  | .giveBack (some e) => by
    simp [Statement.marks, Statement.Scoped, Statement.Returns,
      e.keeps_marks, and_comm]

theorem keeps_statementMarks : (ss : List Statement) →
    (AllKept (statementMarks ρ ss) ∧ StatementsReturn ρ.routine.returnsVoid ss ↔
      StatementsScoped ρ ss)
  | [] => by simp [statementMarks, StatementsScoped, StatementsReturn]
  | st :: ss => by
    have hst := st.keeps_marks
    have hss := keeps_statementMarks ss
    simp only [statementMarks, StatementsScoped, StatementsReturn, allKept_append, ← hst, ← hss]
    exact and_and_and_comm

end

end Kept

section Declared

variable {earlier : List Declaration}

/-- Names that are each new after those before them are all different. -/
theorem keeps_nameMarks {k : VariableKind} {typeName first : String} {xs : List String} :
    AllKept (nameMarks k typeName earlier first xs) ∧
        (earlier.map Declaration.name).Nodup ↔
      ((((first :: xs).map fun name => (⟨k, typeName, name⟩ : Declaration)).reverse ++
        earlier).map Declaration.name).Nodup := by
  induction xs generalizing earlier first with
  | nil => simp [nameMarks, isKept_new]
  | cons x xs ih =>
    have hrest := @ih (⟨k, typeName, first⟩ :: earlier) x
    rw [List.map_cons, List.nodup_cons] at hrest
    rw [List.map_cons, List.reverse_cons, List.append_assoc, List.singleton_append, ← hrest]
    simp only [nameMarks, allKept_cons, isKept_new, Mark.isKept_free, true_and]
    rw [and_assoc, and_left_comm]

theorem NameGroup.keeps_marks {k : VariableKind} {g : NameGroup} :
    AllKept (g.marks k earlier) ∧ (earlier.map Declaration.name).Nodup ↔
      (((g.declarations k).reverse ++ earlier).map Declaration.name).Nodup := by
  rw [NameGroup.declarations, NameGroup.names, ← keeps_nameMarks]
  simp [NameGroup.marks]

theorem keeps_groupMarks (earlier : List Declaration)
    (gs : List (Lexeme × VariableKind × NameGroup)) :
    AllKept (groupMarks earlier gs) ∧ (earlier.map Declaration.name).Nodup ↔
      (((gs.flatMap fun g => g.2.2.declarations g.2.1).reverse ++ earlier).map
        Declaration.name).Nodup := by
  induction gs generalizing earlier with
  | nil => simp [groupMarks]
  | cons g gs ih =>
    obtain ⟨word, k, g⟩ := g
    rw [List.flatMap_cons, List.reverse_append, List.append_assoc, ← ih, ← NameGroup.keeps_marks]
    simp only [groupMarks, allKept_cons, allKept_append, Mark.isKept_free, true_and]
    rw [and_assoc, and_left_comm]

theorem keeps_parameterMarks (earlier : List Declaration) (ps : List Parameter) :
    AllKept (parameterMarks earlier ps) ∧ (earlier.map Declaration.name).Nodup ↔
      (((ps.map Parameter.declaration).reverse ++ earlier).map Declaration.name).Nodup := by
  induction ps generalizing earlier with
  | nil => simp [parameterMarks]
  | cons p ps ih =>
    have hrest := @ih (p.declaration :: earlier)
    rw [List.map_cons, List.nodup_cons] at hrest
    rw [List.map_cons, List.reverse_cons, List.append_assoc, List.singleton_append, ← hrest]
    cases ps with
    | nil => simp [parameterMarks, isKept_new, Parameter.declaration]
    | cons q ps =>
      simp only [parameterMarks, allKept_cons, isKept_new, Mark.isKept_free, true_and]
      rw [and_assoc, and_left_comm]
      rfl

end Declared

section Classes

theorem nodup_names_reverse {ds : List Declaration} :
    (ds.reverse.map Declaration.name).Nodup ↔ (ds.map Declaration.name).Nodup := by
  rw [List.map_reverse, (List.reverse_perm _).nodup_iff]

theorem declarations_localEntries (gs : List NameGroup) :
    ((gs.map NameGroup.localEntry).flatMap fun g => g.2.2.declarations g.2.1) =
      gs.flatMap fun g => g.declarations .localVar :=
  List.flatMap_map ..

theorem ClassHead.declarations_entries (c : ClassHead) :
    ((c.variableGroups.map ClassVariables.entry).flatMap fun g => g.2.2.declarations g.2.1) =
      c.declarations :=
  List.flatMap_map ..

/-- The rules for the tokens of a subroutine's declarations are that its names are different. -/
theorem RoutineTree.keeps_declarations {r : RoutineTree} :
    AllKept (parameterMarks [] r.parameters) ∧
        AllKept (groupMarks (r.parameters.map Parameter.declaration).reverse
          (r.locals.map NameGroup.localEntry)) ↔
      (r.declarations.map Declaration.name).Nodup := by
  have hparameters := keeps_parameterMarks [] r.parameters
  have hlocals := keeps_groupMarks (r.parameters.map Parameter.declaration).reverse
    (r.locals.map NameGroup.localEntry)
  rw [declarations_localEntries, ← List.reverse_append] at hlocals
  simp only [nodup_names_reverse, List.map_nil, List.nodup_nil, and_true, List.append_nil]
    at hparameters hlocals
  rw [declarations, ← hlocals, hparameters, and_comm]

theorem RoutineTree.keeps_marks {c : ClassHead} {r : RoutineTree} :
    AllKept (r.marks c) ∧ r.Grammatical ↔ c.Admits r := by
  have hbody := keeps_statementMarks (ρ := c.scope r) r.body
  simp only [marks, allKept_cons, allKept_append, Mark.isKept_free, keeps_bracedMarks, true_and]
  constructor
  · rintro ⟨⟨hparameters, hlocals, hmarks⟩, hreturns⟩
    exact ⟨keeps_declarations.mp ⟨hparameters, hlocals⟩, hbody.mp ⟨hmarks, hreturns⟩⟩
  · rintro ⟨hnames, hscoped⟩
    obtain ⟨hparameters, hlocals⟩ := keeps_declarations.mpr hnames
    obtain ⟨hmarks, hreturns⟩ := hbody.mpr hscoped
    exact ⟨⟨hparameters, hlocals, hmarks⟩, hreturns⟩

theorem ClassHead.keeps_declarations {c : ClassHead} :
    AllKept (groupMarks [] (c.variableGroups.map ClassVariables.entry)) ↔
      (c.declarations.map Declaration.name).Nodup := by
  have h := keeps_groupMarks [] (c.variableGroups.map ClassVariables.entry)
  simpa [c.declarations_entries, nodup_names_reverse, -List.map_reverse] using h

/-- A class keeps to the rules when each of its tokens does. -/
theorem ClassTree.keeps_marks {c : ClassTree} : AllKept c.marks ∧ c.Grammatical ↔ c.Valid := by
  have hroutines : AllKept (c.routines.flatMap (RoutineTree.marks c.toClassHead)) ↔
      ∀ r ∈ c.routines, AllKept (r.marks c.toClassHead) := by
    simp only [AllKept, List.mem_flatMap]
    grind
  simp only [marks, allKept_cons, allKept_append, Mark.isKept_free, keeps_bracedMarks, true_and,
    ClassHead.keeps_declarations, hroutines]
  constructor
  · rintro ⟨⟨hdistinct, hmarks⟩, hreturns⟩
    exact ⟨hdistinct, fun r hr => RoutineTree.keeps_marks.mp ⟨hmarks r hr, hreturns r hr⟩⟩
  · rintro ⟨hdistinct, hadmits⟩
    have hrs := fun r hr => RoutineTree.keeps_marks.mpr (hadmits r hr)
    exact ⟨⟨hdistinct, fun r hr => (hrs r hr).1⟩, fun r hr => (hrs r hr).2⟩

end Classes

section Checks

variable {m : Mark} {ms ns : List Mark} {x : Lexeme} {t : Token}
  {here there : List (Except TokenError Token)} {fault : Option CompileError}

/-- The fault of the first token that breaks its rule. -/
def firstFault (tokens : List (Token × Rule)) : Option CompileError :=
  tokens.findSome? fun p => p.2.fault? p.1

theorem firstFault_cons {rule : Rule} {tokens : List (Token × Rule)} :
    firstFault ((t, rule) :: tokens) = (rule.fault? t).or (firstFault tokens) := by
  rw [firstFault, List.findSome?_cons]
  cases rule.fault? t <;> rfl

/-- Between two places of a source lie tokens with these marks, of which the first that breaks its
rule gives the fault. -/
def Checks (ms : List Mark) (here there : List (Except TokenError Token))
    (fault : Option CompileError) : Prop :=
  ∃ ts : List Token, ts.map Token.lexeme = ms.map Mark.lexeme ∧ here = ts.map .ok ++ there ∧
    fault = firstFault (ts.zip (ms.map Mark.rule))

theorem Checks.spans (h : Checks ms here there fault) : Spans (ms.map Mark.lexeme) here there := by
  obtain ⟨ts, hts, hhere, -⟩ := h
  exact ⟨ts, hts, hhere⟩

theorem exists_checks (h : Spans (ms.map Mark.lexeme) here there) :
    ∃ fault, Checks ms here there fault := by
  obtain ⟨ts, hts, hhere⟩ := h
  exact ⟨_, ts, hts, hhere, rfl⟩

@[simp] theorem checks_nil : Checks [] here there fault ↔ here = there ∧ fault = none := by
  simp [Checks, firstFault]

theorem checks_cons : Checks (m :: ms) here there fault ↔ ∃ t mid rest, t.lexeme = m.lexeme ∧
    here = .ok t :: mid ∧ Checks ms mid there rest ∧ fault = (m.rule.fault? t).or rest := by
  constructor
  · rintro ⟨_ | ⟨t, ts⟩, hts, rfl, rfl⟩
    · cases hts
    · obtain ⟨ht, hts⟩ := List.cons.inj hts
      exact ⟨t, _, _, ht, rfl, ⟨ts, hts, rfl, rfl⟩, firstFault_cons⟩
  · rintro ⟨t, _, _, ht, rfl, ⟨ts, hts, rfl, rfl⟩, rfl⟩
    exact ⟨t :: ts, by simp [ht, hts], rfl, firstFault_cons.symm⟩

theorem checks_free_cons : Checks (.free x :: ms) here there fault ↔ ∃ t mid, t.lexeme = x ∧
    here = .ok t :: mid ∧ Checks ms mid there fault := by
  rw [checks_cons]
  constructor
  · rintro ⟨t, mid, rest, ht, hhere, h, rfl⟩
    exact ⟨t, mid, ht, hhere, h⟩
  · rintro ⟨t, mid, ht, hhere, h⟩
    exact ⟨t, mid, fault, ht, hhere, h, rfl⟩

theorem checks_append : Checks (ms ++ ns) here there fault ↔
    ∃ mid first rest, Checks ms here mid first ∧ Checks ns mid there rest ∧
      fault = first.or rest := by
  induction ms generalizing here fault with
  | nil =>
    constructor
    · intro h
      exact ⟨here, none, fault, checks_nil.mpr ⟨rfl, rfl⟩, h, rfl⟩
    · rintro ⟨mid, first, rest, h1, h2, rfl⟩
      obtain ⟨rfl, rfl⟩ := checks_nil.mp h1
      exact h2
  | cons m ms ih =>
    simp only [List.cons_append, checks_cons, ih]
    constructor
    · rintro ⟨t, mid, _, ht, rfl, ⟨mid', first, rest, h1, h2, rfl⟩, rfl⟩
      exact ⟨mid', _, rest, ⟨t, mid, first, ht, rfl, h1, rfl⟩, h2, by rw [Option.or_assoc]⟩
    · rintro ⟨mid', _, rest, ⟨t, mid, first, ht, rfl, h1, rfl⟩, h2, rfl⟩
      exact ⟨t, mid, _, ht, rfl, ⟨mid', first, rest, h1, h2, rfl⟩, by rw [Option.or_assoc]⟩

/-- There is no fault where all tokens keep to their rules. -/
theorem Checks.fault_eq_none_iff (h : Checks ms here there fault) : fault = none ↔ AllKept ms := by
  induction ms generalizing here fault with
  | nil => simpa using (checks_nil.mp h).2
  | cons m ms ih =>
    obtain ⟨t, mid, rest, ht, rfl, hrest, rfl⟩ := checks_cons.mp h
    rw [Option.or_eq_none_iff, ih hrest, Rule.fault?_eq_none_iff, ht, allKept_cons]
    rfl

end Checks

end JackVM
