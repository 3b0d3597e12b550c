import JackVM.Proofs.ClassAcceptance

namespace JackVM

instance decidableEqExcept {ε α : Type} [DecidableEq ε] [DecidableEq α] : DecidableEq (Except ε α)
  | .ok a, .ok b => decidable_of_iff (a = b) ⟨congrArg _, Except.ok.inj⟩
  | .error a, .error b => decidable_of_iff (a = b) ⟨congrArg _, Except.error.inj⟩
  | .ok _, .error _ => isFalse (by intro h; cases h)
  | .error _, .ok _ => isFalse (by intro h; cases h)

/-- The tokens of a source, all of them without an error, are those of a class. -/
def ClassTree.IsReadFrom (c : ClassTree) (source : String) : Prop :=
  ∃ tokens : List Token, (Cursor.ofText source).results = tokens.map .ok ∧
    tokens.map Token.lexeme = c.lexemes

theorem ClassTree.isReadFrom_iff {c : ClassTree} {source : String} :
    c.IsReadFrom source ↔ Spans c.lexemes (Cursor.ofText source).results [] := by
  constructor
  · rintro ⟨tokens, hresults, hlexemes⟩
    exact ⟨tokens, hlexemes, by simp [hresults]⟩
  · rintro ⟨tokens, hlexemes, hresults⟩
    exact ⟨tokens, by simpa using hresults, hlexemes⟩

/-- The tokens of a source all stand on its first line. -/
theorem ClassTree.IsReadFrom.of_line {c : ClassTree} {source : String}
    (h : (Cursor.ofText source).results = (c.lexemes.map fun x => ⟨x, 1⟩).map .ok) :
    c.IsReadFrom source :=
  ⟨_, h, by simp [Function.comp_def]⟩

section Sources

variable {σ : Type} [CodeSink σ] [OpenSink σ] {source : String}

theorem reference_of_compileTo {sink out : σ} (h : compileTo source sink = (.ok (), out)) :
    ∃ c : ClassTree, c.IsReadFrom source ∧ c.Valid ∧ out = OpenSink.addAll sink c.code := by
  simp only [compileTo, Compilation.compileClass] at h
  split at h
  next a after hrun =>
    obtain ⟨-, rfl⟩ := Prod.mk.inj h
    obtain ⟨c, hc, hsink, hspan⟩ := Compiling.wholeSource_ok hrun
    refine ⟨c, ClassTree.isReadFrom_iff.mpr ?_, hc, hsink⟩
    simpa [Compilation.ofText] using hspan
  next => cases h

/-- Recursion goes deep enough for every source. -/
theorem length_le_depthBound {c : ClassTree}
    (h : Spans c.lexemes (Cursor.ofText source).results []) :
    4 * c.lexemes.length ≤ TokenSource.depthBound (TokenStream.ofText source) := by
  obtain ⟨tokens, hlexemes, hresults⟩ := h
  have hle := (Cursor.ofText source).results_length_le
  have hlength : tokens.length = c.lexemes.length := by rw [← hlexemes, List.length_map]
  simp only [hresults, List.append_nil, List.length_map] at hle
  simp only [TokenSource.depthBound, TokenStream.ofText]
  omega

theorem puts_ofText {c : ClassTree} {fault : Option CompileError} (hc : c.Grammatical)
    (h : Checks c.marks (Cursor.ofText source).results [] fault) (sink : σ) :
    (Compilation.ofText source sink).Puts
      (Compiling.wholeSource (TokenSource.depthBound (Compilation.ofText source sink).tokens)) fault
      c.code () := by
  have hspan := h.spans
  rw [c.lexemes_marks] at hspan
  exact Compiling.wholeSource_puts (length_le_depthBound hspan) hc
    (by simpa [Compilation.ofText] using h)

theorem compileTo_of_checks {c : ClassTree} (hc : c.Grammatical)
    (h : Checks c.marks (Cursor.ofText source).results [] none) (sink : σ) :
    compileTo source sink = (.ok (), OpenSink.addAll sink c.code) := by
  obtain ⟨s', hrun, hsink⟩ := puts_ofText hc h sink
  simp only [compileTo, Compilation.compileClass, hrun, hsink]
  rfl

theorem compileTo_of_fault {c : ClassTree} {e : CompileError} (hc : c.Grammatical)
    (h : Checks c.marks (Cursor.ofText source).results [] (some e)) (sink : σ) :
    (compileTo source sink).1 = .error e := by
  obtain ⟨s', hrun⟩ := puts_ofText hc h sink
  simp only [compileTo, Compilation.compileClass, hrun]

theorem compileTo_of_reference {c : ClassTree} (hread : c.IsReadFrom source) (hc : c.Valid)
    (sink : σ) : compileTo source sink = (.ok (), OpenSink.addAll sink c.code) := by
  obtain ⟨hkept, hgrammatical⟩ := ClassTree.keeps_marks.mpr hc
  have hspan := ClassTree.isReadFrom_iff.mp hread
  rw [← c.lexemes_marks] at hspan
  obtain ⟨fault, hchecks⟩ := exists_checks hspan
  obtain rfl := hchecks.fault_eq_none_iff.mpr hkept
  exact compileTo_of_checks hgrammatical hchecks sink

theorem reference_of_compileInstructions {code : List Instruction}
    (h : compileInstructions source = .ok code) :
    ∃ c : ClassTree, c.IsReadFrom source ∧ c.Valid ∧ code = c.code := by
  unfold compileInstructions at h
  split at h
  next u out hrun =>
    cases h
    obtain ⟨c, hread, hc, rfl⟩ := reference_of_compileTo hrun
    exact ⟨c, hread, hc, by simp [addAll_array]⟩
  next => cases h

theorem compileInstructions_of_reference {c : ClassTree} (hread : c.IsReadFrom source)
    (hc : c.Valid) : compileInstructions source = .ok c.code := by
  unfold compileInstructions
  rw [compileTo_of_reference hread hc]
  simp [addAll_array]

theorem compileText_of_reference {c : ClassTree} (hread : c.IsReadFrom source) (hc : c.Valid) :
    compileText source = .ok (linesOf c.code) := by
  unfold compileText
  rw [compileTo_of_reference hread hc]
  simp [addAll_text, CodeText.empty]

/-- The compiler, which reads, checks and translates in one go, takes the sources that are a class
by the grammar and by the rules for names, and gives the code of the class. -/
theorem compiles_reference (source : String) :
    (∀ code, compileInstructions source = .ok code ↔
      ∃ c : ClassTree, c.IsReadFrom source ∧ c.Valid ∧ code = c.code) ∧
    ∀ text, compileText source = .ok text ↔
      ∃ c : ClassTree, c.IsReadFrom source ∧ c.Valid ∧ text = linesOf c.code := by
  refine ⟨fun code => ⟨reference_of_compileInstructions, ?_⟩, fun text => ⟨fun h => ?_, ?_⟩⟩
  · rintro ⟨c, hread, hc, rfl⟩
    exact compileInstructions_of_reference hread hc
  · unfold compileText at h
    split at h
    next u out hrun =>
      cases h
      obtain ⟨c, hread, hc, rfl⟩ := reference_of_compileTo hrun
      exact ⟨c, hread, hc, by simp [addAll_text, CodeText.empty]⟩
    next => cases h
  · rintro ⟨c, hread, hc, rfl⟩
    exact compileText_of_reference hread hc

theorem ok_of_toOption {ε α : Type} {x : Except ε α} {a : α} (h : x.toOption = some a) :
    x = .ok a := by
  cases x with
  | ok b => exact congrArg _ (Option.some.inj h)
  | error e => cases h

example : (compileInstructions "class A { method int f(int n) { return n; } }").toOption =
    some [.function "A.f" 0, .push .argument 0, .pop .pointer 0, .push .argument 1, .ret] := by
  decide +kernel

end Sources

end JackVM
