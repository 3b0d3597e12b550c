import JackVM.Proofs.CodeReader
import JackVM.Proofs.DeclaredNames
import JackVM.Proofs.HandingOver
import JackVM.Proofs.Portions
import JackVM.Proofs.ReferenceCompiler

namespace JackVM

/-- The names among some tokens are identifiers, as all are that are read. -/
def AllNamed (xs : List Lexeme) : Prop :=
  ∀ name, .identifier name ∈ xs → isName name.toList = true

/-- All names that instructions are made from where a statement stands are identifiers. -/
structure Scope.IsNamed (ρ : Scope) : Prop where
  className : isName ρ.className.toList = true
  routine : isName ρ.routine.name.toList = true
  typeName : ∀ {x : String} {v : Variable}, ρ.find? x = some v → isName v.typeName.toList = true

section AllNamed

variable {xs ys : List Lexeme} {x : Lexeme} {name : String}

@[simp] theorem allNamed_nil : AllNamed [] := by
  simp [AllNamed]

@[simp] theorem allNamed_append : AllNamed (xs ++ ys) ↔ AllNamed xs ∧ AllNamed ys := by
  simp [AllNamed, or_imp, forall_and]

theorem allNamed_cons : AllNamed (x :: xs) ↔ AllNamed [x] ∧ AllNamed xs := by
  rw [← List.singleton_append, allNamed_append]

@[simp] theorem allNamed_identifier :
    AllNamed (.identifier name :: xs) ↔ isName name.toList = true ∧ AllNamed xs := by
  rw [allNamed_cons]
  simp [AllNamed]

@[simp] theorem allNamed_keyword {k : Keyword} : AllNamed (.keyword k :: xs) ↔ AllNamed xs := by
  rw [allNamed_cons]
  simp [AllNamed]

@[simp] theorem allNamed_symbol {s : Symbol} : AllNamed (.symbol s :: xs) ↔ AllNamed xs := by
  rw [allNamed_cons]
  simp [AllNamed]

theorem AllNamed.mono (h : AllNamed ys) (hsub : xs ⊆ ys) : AllNamed xs :=
  fun name hname => h name (hsub hname)

theorem allNamed_calleeLexemes {q : Option String} (h : AllNamed (calleeLexemes q name)) :
    isName name.toList = true ∧ ∀ x, q = some x → isName x.toList = true := by
  cases q with
  | none => simpa [calleeLexemes] using h
  | some x =>
    simp only [calleeLexemes, allNamed_identifier, allNamed_symbol, allNamed_nil, and_true] at h
    refine ⟨h.2, fun y hy => ?_⟩
    cases hy
    exact h.1

end AllNamed

section Code

variable {ρ : Scope} {name : String}

/-- Two identifiers with a dot between them make a name in code. -/
theorem isCodeName_dotted {a b : String} (ha : isName a.toList = true)
    (hb : isName b.toList = true) : isCodeName (s!"{a}.{b}").toList = true := by
  have htext : (s!"{a}.{b}").toList = a.toList ++ '.' :: b.toList := by simp [toString]
  rw [htext]
  apply isCodeName_append ha
  intro c hc
  obtain rfl | hc := List.mem_cons.mp hc
  · rfl
  · exact isCodeChar_of_isNameChar (isNameChar_of_isName hb hc)

theorem Scope.IsNamed.isCodeName_callee (h : ρ.IsNamed) {q : Option String}
    (hname : isName name.toList = true) (hq : ∀ x, q = some x → isName x.toList = true) :
    isCodeName (ρ.callee q name).toList = true := by
  cases q with
  | none => exact isCodeName_dotted h.className hname
  | some x =>
    simp only [Scope.callee]
    cases hfind : ρ.find? x with
    | none => exact isCodeName_dotted (hq x rfl) hname
    | some v => exact isCodeName_dotted (h.typeName hfind) hname

theorem Scope.IsNamed.label (h : ρ.IsNamed) {purpose : String}
    (hpurpose : isName purpose.toList = true) (n : Nat) : (ρ.label purpose n).IsNamed :=
  ⟨h.className, h.routine, hpurpose⟩

/-- All names in code are such as may stand there. -/
def NamedCode (code : List Instruction) : Prop :=
  ∀ i ∈ code, i.IsNamed

section NamedCode

variable {i : Instruction} {code more : List Instruction}

@[simp] theorem namedCode_nil : NamedCode [] := by
  simp [NamedCode]

@[simp] theorem namedCode_cons : NamedCode (i :: code) ↔ i.IsNamed ∧ NamedCode code := by
  simp [NamedCode]

@[simp] theorem namedCode_append :
    NamedCode (code ++ more) ↔ NamedCode code ∧ NamedCode more := by
  simp [NamedCode, or_imp, forall_and]

@[simp] theorem namedCode_pushCode (x : String) : NamedCode (ρ.pushCode x) := by
  unfold Scope.pushCode
  cases ρ.find? x <;> simp [Instruction.IsNamed]

@[simp] theorem namedCode_popCode (x : String) : NamedCode (ρ.popCode x) := by
  unfold Scope.popCode
  cases ρ.find? x <;> simp [Instruction.IsNamed]

@[simp] theorem namedCode_thisCode : NamedCode ρ.thisCode := by
  unfold Scope.thisCode
  cases ρ.routine.kind <;> simp [Instruction.IsNamed]

@[simp] theorem namedCode_receiverCode (q : Option String) : NamedCode (ρ.receiverCode q) := by
  cases q <;> simp [Scope.receiverCode, Instruction.IsNamed]

theorem namedCode_constant (c : Constant) : NamedCode c.code := by
  cases c with
  | string text =>
    intro i hi
    rcases mem_stringCode.mp hi with rfl | rfl | ⟨c, -, rfl | rfl⟩
    · trivial
    · exact (by decide : isCodeName "String.new".toList = true)
    · trivial
    · exact (by decide : isCodeName "String.appendChar".toList = true)
  | integer | true | false | null => simp [Constant.code, Instruction.IsNamed]

theorem isNamed_binary (op : BinaryOperator) : op.instruction.IsNamed := by
  cases op with
  | multiply => exact (by decide : isCodeName "Math.multiply".toList = true)
  | divide => exact (by decide : isCodeName "Math.divide".toList = true)
  | _ => trivial

end NamedCode

mutual

theorem namedCode_term (hρ : ρ.IsNamed) : (t : Term) → AllNamed t.lexemes → NamedCode (t.code ρ)
  | .constant c, _ => namedCode_constant c
  | .this, _ => namedCode_thisCode
  | .variable x, _ => namedCode_pushCode x
  | .element x i, h => by
    have hi := namedCode_expression hρ i (by simp_all [Term.lexemes])
    simp [Term.code, hi, Instruction.IsNamed]
  | .call q f es, h => by
    simp only [Term.lexemes, allNamed_append] at h
    obtain ⟨hf, hq⟩ := allNamed_calleeLexemes h.1
    have hes := namedCode_arguments hρ es h.2.1
    simp [Term.code, hes, Instruction.IsNamed, hρ.isCodeName_callee hf hq]
  | .parens e, h => namedCode_expression hρ e (by simp_all [Term.lexemes])
  | .unary op t, h => by
    have ht := namedCode_term hρ t (by simpa [Term.lexemes] using h)
    simp [Term.code, ht, Instruction.IsNamed]

theorem namedCode_expression (hρ : ρ.IsNamed) : (e : Expression) → AllNamed e.lexemes →
    NamedCode (e.code ρ)
  | .chain t rest, h => by
    rw [Expression.lexemes, allNamed_append] at h
    rw [Expression.code, namedCode_append]
    exact ⟨namedCode_term hρ t h.1, namedCode_operations hρ rest h.2⟩

theorem namedCode_operations (hρ : ρ.IsNamed) : (rest : List (BinaryOperator × Term)) →
    AllNamed (operationLexemes rest) → NamedCode (operationCode ρ rest)
  | [], _ => namedCode_nil
  | (op, t) :: rest, h => by
    rw [operationLexemes, allNamed_symbol, allNamed_append] at h
    rw [operationCode, namedCode_append, namedCode_cons]
    exact ⟨namedCode_term hρ t h.1, isNamed_binary op, namedCode_operations hρ rest h.2⟩

theorem namedCode_arguments (hρ : ρ.IsNamed) : (es : List Expression) →
    AllNamed (argumentLexemes es) → NamedCode (argumentCode ρ es)
  | [], _ => namedCode_nil
  | e :: es, h => by
    rw [argumentLexemes, allNamed_append] at h
    rw [argumentCode, namedCode_append]
    exact ⟨namedCode_expression hρ e h.1, namedCode_moreArguments hρ es h.2⟩

theorem namedCode_moreArguments (hρ : ρ.IsNamed) : (es : List Expression) →
    AllNamed (moreArgumentLexemes es) → NamedCode (argumentCode ρ es)
  | [], _ => namedCode_nil
  | e :: es, h => by
    rw [moreArgumentLexemes, allNamed_symbol, allNamed_append] at h
    rw [argumentCode, namedCode_append]
    exact ⟨namedCode_expression hρ e h.1, namedCode_moreArguments hρ es h.2⟩

end

theorem namedCode_call (hρ : ρ.IsNamed) {q : Option String} {f : String} {es : List Expression}
    (h : AllNamed (callLexemes q f es)) : NamedCode (callCode ρ q f es) := by
  simp only [callLexemes, allNamed_append] at h
  obtain ⟨hf, hq⟩ := allNamed_calleeLexemes h.1
  have hes := namedCode_arguments hρ es h.2.1
  simp [callCode, hes, Instruction.IsNamed, hρ.isCodeName_callee hf hq]

mutual

theorem namedCode_statement (hρ : ρ.IsNamed) : (st : Statement) → (n : Nat) →
    AllNamed st.lexemes → NamedCode (st.code ρ n)
  | .assign x e, n, h => by
    have he := namedCode_expression hρ e (by simp_all [Statement.lexemes])
    simp [Statement.code, he]
  | .assignElement x i e, n, h => by
    simp only [Statement.lexemes, allNamed_keyword, allNamed_identifier, allNamed_symbol,
      allNamed_append] at h
    have hi := namedCode_expression hρ i h.2.1
    have he := namedCode_expression hρ e h.2.2.1
    simp [Statement.code, storeCode, hi, he, Instruction.IsNamed]
  | .branch c yes none, n, h => by
    simp only [Statement.lexemes, braced, allNamed_keyword, allNamed_symbol, allNamed_append] at h
    have hc := namedCode_expression hρ c h.1
    have hyes := namedCode_statements hρ yes (n + 1) h.2.1
    have hfalse : isName "IF_FALSE".toList = true := by decide
    simp [Statement.code, hc, hyes, Instruction.IsNamed, hρ.label hfalse]
  | .branch c yes (some no), n, h => by
    simp only [Statement.lexemes, braced, allNamed_keyword, allNamed_symbol, allNamed_append] at h
    have hc := namedCode_expression hρ c h.1
    have hyes := namedCode_statements hρ yes (n + 1) h.2.1.1
    have hno := namedCode_statements hρ no (n + 1 + labelCount yes + 1) h.2.2.1
    have hfalse : isName "IF_FALSE".toList = true := by decide
    have hend : isName "IF_END".toList = true := by decide
    simp [Statement.code, hc, hyes, hno, Instruction.IsNamed, hρ.label hfalse, hρ.label hend]
  | .loop c body, n, h => by
    simp only [Statement.lexemes, braced, allNamed_keyword, allNamed_symbol, allNamed_append] at h
    have hc := namedCode_expression hρ c h.1
    have hbody := namedCode_statements hρ body (n + 2) h.2.1
    have htop : isName "WHILE_TOP".toList = true := by decide
    have hend : isName "WHILE_END".toList = true := by decide
    simp [Statement.code, hc, hbody, Instruction.IsNamed, hρ.label htop, hρ.label hend]
  | .perform q f es, n, h => by
    simp only [Statement.lexemes, allNamed_keyword, allNamed_append] at h
    simp [Statement.code, namedCode_call hρ h.1, Instruction.IsNamed]
  | .giveBack none, n, h => by simp [Statement.code, Instruction.IsNamed]
  | .giveBack (some e), n, h => by
    have he := namedCode_expression hρ e (by simp_all [Statement.lexemes])
    simp [Statement.code, he, Instruction.IsNamed]

theorem namedCode_statements (hρ : ρ.IsNamed) : (ss : List Statement) → (n : Nat) →
    AllNamed (statementLexemes ss) → NamedCode (statementCode ρ ss n)
  | [], _, _ => namedCode_nil
  | st :: ss, n, h => by
    rw [statementLexemes, allNamed_append] at h
    rw [statementCode, namedCode_append]
    exact ⟨namedCode_statement hρ st n h.1, namedCode_statements hρ ss _ h.2⟩

end

end Code

section Classes

variable {c : ClassTree} {r : RoutineTree}

/-- The types in declarations are words of the language or names. -/
def TypesNamed (xs : List Declaration) : Prop :=
  ∀ x ∈ xs, isName x.typeName.toList = true

theorem TypeName.isName_text {type : TypeName} (h : AllNamed [type.lexeme]) :
    isName type.lexeme.text.toList = true := by
  cases type with
  | ofClass name => exact h name (by simp [TypeName.lexeme])
  | int | char | boolean => decide

theorem NameGroup.typesNamed {g : NameGroup} {k : VariableKind} (h : AllNamed g.lexemes) :
    TypesNamed (g.declarations k) := by
  intro x hx
  obtain ⟨name, -, rfl⟩ := List.mem_map.mp hx
  exact TypeName.isName_text (allNamed_cons.mp h).1

theorem typesNamed_parameters {ps : List Parameter} (h : AllNamed (parameterLexemes ps)) :
    TypesNamed (ps.map Parameter.declaration) := by
  fun_induction parameterLexemes ps with
  | case1 => simp [TypesNamed]
  | case2 p =>
    simpa [TypesNamed, Parameter.declaration] using TypeName.isName_text (allNamed_cons.mp h).1
  | case3 p q ps ih =>
    obtain ⟨hp, hrest⟩ := allNamed_append.mp h
    have htype := TypeName.isName_text (allNamed_cons.mp hp).1
    have hothers := ih (allNamed_symbol.mp hrest)
    intro x hx
    obtain rfl | hx := List.mem_cons.mp hx
    · exact htype
    · exact hothers x hx

theorem RoutineTree.typesNamed (h : AllNamed r.lexemes) : TypesNamed r.declarations := by
  have hparameters : AllNamed (parameterLexemes r.parameters) := h.mono fun x hx => by
    simp [RoutineTree.lexemes, hx]
  intro x hx
  obtain hx | hx := List.mem_append.mp hx
  · exact typesNamed_parameters hparameters x hx
  · obtain ⟨g, hg, hx⟩ := List.mem_flatMap.mp hx
    refine NameGroup.typesNamed (h.mono fun y hy => ?_) x hx
    have hlocal : y ∈ r.locals.flatMap fun g => .keyword .kwVar :: g.lexemes :=
      List.mem_flatMap.mpr ⟨g, hg, List.mem_cons_of_mem _ hy⟩
    simp only [RoutineTree.lexemes, braced, List.mem_cons, List.mem_append, hlocal, true_or,
      or_true]

theorem ClassTree.typesNamed (h : AllNamed c.lexemes) : TypesNamed c.declarations := by
  intro x hx
  obtain ⟨v, hv, hx⟩ := List.mem_flatMap.mp hx
  refine NameGroup.typesNamed (h.mono fun y hy => ?_) x hx
  have hgroup : y ∈ c.variableGroups.flatMap ClassVariables.lexemes :=
    List.mem_flatMap.mpr ⟨v, hv, List.mem_cons_of_mem _ hy⟩
  simp only [ClassTree.lexemes, braced, List.mem_cons, List.mem_append, hgroup, true_or, or_true]

theorem TypesNamed.of_mem_numbered {xs : List Declaration} {taken : VariableKind → Nat}
    {v : Variable} (h : TypesNamed xs) (hv : v ∈ numbered taken xs) :
    isName v.typeName.toList = true := by
  have hmem : v.declaration ∈ xs := by
    rw [← numbered_declarations taken xs]
    exact List.mem_map_of_mem hv
  exact h _ hmem

theorem RoutineTree.lexemes_subset (hr : r ∈ c.routines) : r.lexemes ⊆ c.lexemes := by
  intro x hx
  have hroutine : x ∈ c.routines.flatMap RoutineTree.lexemes := List.mem_flatMap.mpr ⟨r, hr, hx⟩
  simp only [ClassTree.lexemes, braced, List.mem_cons, List.mem_append, hroutine, true_or, or_true]

theorem ClassTree.isName_name (h : AllNamed c.lexemes) : isName c.name.toList = true :=
  h c.name (by simp [ClassTree.lexemes])

theorem RoutineTree.isName_name (h : AllNamed r.lexemes) : isName r.name.toList = true :=
  h r.name (by simp [RoutineTree.lexemes])

theorem ClassTree.isNamed_scope (h : AllNamed c.lexemes) (hr : r ∈ c.routines) :
    (c.scope r).IsNamed where
  className := c.isName_name h
  routine := RoutineTree.isName_name (h.mono (RoutineTree.lexemes_subset hr))
  typeName := by
    intro x v hfind
    obtain hv | hv := List.mem_append.mp (List.mem_of_find?_eq_some hfind)
    · exact (RoutineTree.typesNamed (h.mono (RoutineTree.lexemes_subset hr))).of_mem_numbered hv
    · exact (c.typesNamed h).of_mem_numbered hv

theorem namedCode_prologue (kind : RoutineKind) (fields : Nat) :
    NamedCode (prologue kind fields) := by
  cases kind with
  | constructor =>
    have halloc : (Instruction.call "Memory.alloc" 1).IsNamed :=
      (by decide : isCodeName "Memory.alloc".toList = true)
    rw [prologue, namedCode_cons, namedCode_cons]
    exact ⟨trivial, halloc, by simp [Instruction.IsNamed]⟩
  | method | function => simp [prologue, Instruction.IsNamed]

theorem ClassTree.namedCode_routine (h : AllNamed c.lexemes) (hr : r ∈ c.routines) (n : Nat) :
    NamedCode (c.routineCode r n) := by
  have hlexemes := h.mono (RoutineTree.lexemes_subset hr)
  have hfunction := isCodeName_dotted (c.isName_name h) (RoutineTree.isName_name hlexemes)
  have hbody : AllNamed (statementLexemes r.body) := hlexemes.mono fun x hx => by
    simp [RoutineTree.lexemes, braced, hx]
  rw [ClassHead.routineCode, ClassHead.bodyCode, namedCode_cons, namedCode_append]
  exact ⟨hfunction, namedCode_prologue _ _,
    namedCode_statements (c.isNamed_scope h hr) r.body n hbody⟩

/-- The names in the code of a class are made from identifiers. -/
theorem ClassTree.namedCode_code (h : AllNamed c.lexemes) : NamedCode c.code := by
  have hroutines (rs : List RoutineTree) (n : Nat) (hrs : ∀ r ∈ rs, r ∈ c.routines) :
      NamedCode (c.routinesCode rs n) := by
    induction rs generalizing n with
    | nil => exact namedCode_nil
    | cons r rs ih =>
      rw [ClassHead.routinesCode, namedCode_append]
      exact ⟨c.namedCode_routine h (hrs r (by simp)) n,
        ih _ fun other hother => hrs other (List.mem_cons_of_mem r hother)⟩
  exact hroutines c.routines 0 fun r hr => hr

end Classes

section Sources

variable {source : String} {code : List Instruction}

theorem StandsFor.writable {line : Nat} {t : Token} {text after : List Char}
    (h : StandsFor line (.ok t) text after) : t.lexeme.Writable := by
  cases h with
  | token writable => exact writable

theorem Accounted.writable {before ending : List Char} {ps : List Portion} {t : Token}
    (h : Accounted before ps ending) (ht : .ok t ∈ ps.map Portion.result) : t.lexeme.Writable := by
  induction ps generalizing before with
  | nil => cases ht
  | cons p ps ih =>
    obtain ⟨-, hstands, hrest⟩ := h
    obtain heq | ht := List.mem_cons.mp ht
    · rw [← heq] at hstands
      exact hstands.writable
    · exact ih hrest ht

/-- The names that are read are identifiers. -/
theorem ClassTree.IsReadFrom.allNamed {c : ClassTree} (h : c.IsReadFrom source) :
    AllNamed c.lexemes := by
  obtain ⟨tokens, hresults, hlexemes⟩ := h
  obtain ⟨ps, e, -, hps, haccounted⟩ := Cursor.exists_portions (Cursor.ofText source) [] rfl
  intro name hname
  rw [← hlexemes] at hname
  obtain ⟨t, ht, hlexeme⟩ := List.mem_map.mp hname
  have hmem : .ok t ∈ ps.map Portion.result := by
    rw [← hps, hresults]
    exact List.mem_map_of_mem ht
  have hwritable := haccounted.writable hmem
  rw [hlexeme] at hwritable
  exact hwritable.1

theorem handOver_of_openSink {σ : Type} [CodeSink σ] [OpenSink σ] (k : σ)
    (code : List Instruction) : handOver k code = .ok (OpenSink.addAll k code) := by
  induction code generalizing k with
  | nil => rfl
  | cons i code ih => simpa [handOver, OpenSink.put?_eq, OpenSink.addAll] using ih _

theorem compileInstructions_eq (source : String) :
    compileInstructions source = (compileAll source).1.map fun _ => (compileAll source).2 := by
  rw [compileInstructions, compileTo_eq_cutBy, handOver_of_openSink, cutBy]
  cases (compileAll source).1 <;> simp [Except.map, addAll_array]

theorem compileText_eq (source : String) :
    compileText source = (compileAll source).1.map fun _ => linesOf (compileAll source).2 := by
  rw [compileText, compileTo_eq_cutBy, handOver_of_openSink, cutBy]
  cases (compileAll source).1 <;> simp [Except.map, addAll_text, CodeText.empty]

/-- A source either gives the same error as text and as instructions, or it gives both. The text is
then the lines of the instructions, and by reading it the instructions are found again. All labels
and names of functions in them are names of code. -/
theorem compileText_readable (source : String) :
    (∃ e, compileInstructions source = .error e ∧ compileText source = .error e) ∨
      ∃ code text, compileInstructions source = .ok code ∧ compileText source = .ok text ∧
        text = String.join (code.map fun i => i.text ++ "\n") ∧
        partsAt '\n' text = code.map Instruction.text ++ [""] ∧
        readCode? text = some code ∧
        ∀ i ∈ code, ∀ name ∈ i.codeNames, isCodeName name.toList = true := by
  have hinstructions := compileInstructions_eq source
  have htext := compileText_eq source
  cases hresult : (compileAll source).1 with
  | error e =>
    rw [hresult] at hinstructions htext
    exact .inl ⟨e, hinstructions, htext⟩
  | ok u =>
    rw [hresult] at hinstructions htext
    obtain ⟨c, hread, -, hcode⟩ := reference_of_compileInstructions hinstructions
    have hnamed : NamedCode (compileAll source).2 := by
      have hsame : (compileAll source).2 = c.code := hcode
      rw [hsame]
      exact c.namedCode_code hread.allNamed
    obtain ⟨hlines, hcodeRead⟩ := readCode?_linesOf hnamed
    refine .inr ⟨_, _, hinstructions, htext, rfl, hlines, hcodeRead, fun i hi name hname => ?_⟩
    exact (hnamed i hi).isCodeName_of_mem hname

end Sources

end JackVM
