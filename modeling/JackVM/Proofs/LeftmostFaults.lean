import JackVM.Proofs.ReferenceCompiler

namespace JackVM

section FirstFault

variable {ps : List (Token × Rule)}

theorem firstFault_eq_none_iff : firstFault ps = none ↔ ∀ p ∈ ps, p.2.fault? p.1 = none :=
  List.findSome?_eq_none_iff

theorem firstFault_eq_some_iff {e : CompileError} :
    firstFault ps = some e ↔ ∃ before t rule after, ps = before ++ (t, rule) :: after ∧
      (∀ p ∈ before, p.2.fault? p.1 = none) ∧ rule.fault? t = some e := by
  rw [firstFault, List.findSome?_eq_some_iff]
  constructor
  · rintro ⟨before, ⟨t, rule⟩, after, hps, he, hbefore⟩
    exact ⟨before, t, rule, after, hps, hbefore, he⟩
  · rintro ⟨before, t, rule, after, hps, hbefore, he⟩
    exact ⟨before, (t, rule), after, hps, he, hbefore⟩

end FirstFault

section Sources

variable {σ : Type} [CodeSink σ] [OpenSink σ] {source : String} {tokens : List Token} {c : ClassTree}

/-- Compiling a class by the grammar fails with the first fault of its tokens, if there is one. -/
theorem compileTo_eq_firstFault (hread : (Cursor.ofText source).results = tokens.map .ok)
    (htokens : tokens.map Token.lexeme = c.lexemes) (hc : c.Grammatical) (sink : σ) :
    (compileTo source sink).1 =
      match firstFault (tokens.zip c.rules) with
      | none => .ok ()
      | some e => .error e := by
  have hchecks : Checks c.marks (Cursor.ofText source).results [] (firstFault (tokens.zip c.rules)) :=
    ⟨tokens, by rw [htokens, c.lexemes_marks], by simp [hread], rfl⟩
  cases hfault : firstFault (tokens.zip c.rules) with
  | none =>
    rw [hfault] at hchecks
    rw [compileTo_of_checks hc hchecks]
  | some e =>
    rw [hfault] at hchecks
    exact compileTo_of_fault hc hchecks sink

/-- Where the tokens of a source are those of a class by the grammar, each of them has its rule.
Compiling fails exactly if one of them breaks its rule, and the error is that of the first. -/
theorem faults_leftmost (hread : (Cursor.ofText source).results = tokens.map .ok)
    (htokens : tokens.map Token.lexeme = c.lexemes) (hc : c.Grammatical) (sink : σ) :
    c.rules.length = tokens.length ∧
    ((compileTo source sink).1 = .ok () ↔ ∀ p ∈ tokens.zip c.rules, p.2.fault? p.1 = none) ∧
    ∀ e, (compileTo source sink).1 = .error e ↔ ∃ before t rule after,
      tokens.zip c.rules = before ++ (t, rule) :: after ∧
        (∀ p ∈ before, p.2.fault? p.1 = none) ∧ rule.fault? t = some e := by
  have hlength : c.rules.length = tokens.length := by
    rw [c.length_rules, ← htokens, List.length_map]
  have hresult := compileTo_eq_firstFault hread htokens hc sink
  refine ⟨hlength, ?_, fun e => ?_⟩
  · rw [hresult, ← firstFault_eq_none_iff]
    cases firstFault (tokens.zip c.rules) <;> simp
  · rw [hresult, ← firstFault_eq_some_iff]
    cases firstFault (tokens.zip c.rules) <;> simp

end Sources

/-- A field is declared twice, and a function names an object after that. -/
def repeatedField : ClassTree where
  name := "A"
  variableGroups := [⟨true, .int, "x", ["x"]⟩]
  routines := [⟨.function, some .int, "f", [], [], [.giveBack (some (.chain .this []))]⟩]

theorem faults_repeatedField :
    (compileTo "class A { field int x, x; function int f() { return this; } }"
      (#[] : Array Instruction)).1 = .error (.alreadyDeclared 1 ⟨"x", .field⟩) := by
  have hc : repeatedField.Grammatical := by
    simp [ClassTree.Grammatical, RoutineTree.Grammatical, repeatedField, StatementsReturn,
      Statement.Returns]
  have hread : (Cursor.ofText "class A { field int x, x; function int f() { return this; } }").results =
      (repeatedField.lexemes.map fun x => ⟨x, 1⟩).map .ok := by decide +kernel
  refine ((faults_leftmost hread rfl hc _).2.2 _).mpr ?_
  exact ⟨_, ⟨.identifier "x", 1⟩, .new [⟨.field, "int", "x"⟩], _,
    (List.take_append_drop 7 _).symm, by decide +kernel, by decide +kernel⟩

end JackVM
