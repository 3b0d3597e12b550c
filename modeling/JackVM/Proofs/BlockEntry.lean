import JackVM.Proofs.Execution
import JackVM.Proofs.ExpressionValue
import JackVM.Proofs.Stepping

namespace JackVM

/-- In every state, this code puts one value on the stack. -/
structure PutsValue (code : List Instruction) : Prop where
  straight : Straight code
  computes (lib : Library) (φ : Frame) (μ : Memory) : ∃ v ν, Computes lib φ μ code [v] ν

section Values

variable {lib : Library} {ρ : Scope} {code : List Instruction} {σ σ' : Store} {v : Word}

theorem putsValue_term {t : Term} (h : t.Scoped ρ) : PutsValue (t.code ρ) :=
  ⟨straight_term ρ t, fun _ _ _ => ⟨_, _, computes_term t h rfl⟩⟩

theorem putsValue_call {q : Option String} {f : String} {es : List Expression}
    (h : (Statement.perform q f es).Scoped ρ) : PutsValue (callCode ρ q f es) :=
  putsValue_term (t := .call q f es) h

theorem putsValue_expression {e : Expression} (h : e.Scoped ρ) : PutsValue (e.code ρ) :=
  ⟨straight_expression ρ e, fun _ _ _ => ⟨_, _, computes_expression e h rfl⟩⟩

theorem PutsValue.evaluates (h : PutsValue code) (lib : Library) (σ : Store) :
    ∃ v σ', Evaluates lib code σ v σ' := by
  obtain ⟨v, ν, hcomputes⟩ := h.computes lib σ.frame σ.memory
  refine ⟨v, ⟨σ.frame, ν⟩, fun that temp => ?_⟩
  obtain ⟨that', temp', -, hrun⟩ := hcomputes [] that temp
  exact ⟨that', temp', hrun⟩

/-- What stands on the stack before makes no difference. -/
theorem PutsValue.run (h : PutsValue code) (he : Evaluates lib code σ v σ') (stack : List Word)
    (that : Word) (temp : Nat → Word) : ∃ that' temp',
    JackVM.run lib code ⟨σ, stack, that, temp⟩ = some ⟨σ', v :: stack, that', temp'⟩ := by
  obtain ⟨w, ν, hcomputes⟩ := h.computes lib σ.frame σ.memory
  obtain ⟨that1, temp1, -, hrun⟩ := hcomputes [] that temp
  obtain ⟨that2, temp2, hrun'⟩ := he that temp
  have hsame := hrun.symm.trans hrun'
  cases hsame
  obtain ⟨that', temp', -, hstack⟩ := hcomputes stack that temp
  exact ⟨that', temp', hstack⟩

end Values

section Effects

variable {lib : Library} {ρ : Scope} {st : Statement} {σ σ' : Store}

theorem run_storeCode (lib : Library) (σ : Store) (a v : Word) (stack : List Word) (that : Word)
    (temp : Nat → Word) :
    ∃ that' temp', run lib storeCode ⟨σ, v :: a :: stack, that, temp⟩ =
      some ⟨σ.setHeap a v, stack, that', temp'⟩ := by
  refine ⟨a, Function.update temp 0 v, ?_⟩
  simp [storeCode, run_cons, Instruction.execute, Machine.write, Machine.read, Store.setHeap]

theorem run_pushCode (lib : Library) (σ : Store) {x : String} {y : Variable}
    (h : ρ.find? x = some y) (stack : List Word)
    (that : Word) (temp : Nat → Word) : run lib (ρ.pushCode x) ⟨σ, stack, that, temp⟩ =
      some ⟨σ, σ.valueOf y :: stack, that, temp⟩ := by
  rw [Scope.pushCode, h, run_singleton, Instruction.execute, read_variable]
  rfl

theorem run_popCode {x : String} {y : Variable} (h : ρ.find? x = some y) (v : Word)
    (stack : List Word) (that : Word) (temp : Nat → Word) :
    run lib (ρ.popCode x) ⟨σ, v :: stack, that, temp⟩ = some ⟨σ.set y v, stack, that, temp⟩ := by
  rw [Scope.popCode, h, run_singleton]
  exact write_variable y v

theorem Effect.straight (h : Effect lib ρ st σ σ') (n : Nat) : Straight (st.code ρ n) := by
  cases h with
  | assign => exact straight_append.mpr ⟨straight_expression ρ _, straight_popCode ρ _⟩
  | assignElement =>
    simp [Statement.code, storeCode, straight_pushCode, straight_expression,
      Instruction.isStraight]
  | perform => simp [Statement.code, straight_call, Instruction.isStraight]

/-- The code of such a statement has its effect, whatever lies on the stack. -/
theorem Effect.run (h : Effect lib ρ st σ σ') (hs : st.Scoped ρ) (n : Nat) (stack : List Word)
    (that : Word) (temp : Nat → Word) : ∃ that' temp',
    JackVM.run lib (st.code ρ n) ⟨σ, stack, that, temp⟩ = some ⟨σ', stack, that', temp'⟩ := by
  cases h with
  | assign hy he =>
    obtain ⟨that1, temp1, h1⟩ := (putsValue_expression hs.2).run he stack that temp
    refine ⟨that1, temp1, ?_⟩
    rw [Statement.code, run_append, h1, Option.bind_some]
    exact run_popCode hy _ stack that1 temp1
  | @assignElement x y i e _ σ1 σ2 k v hy hi he =>
    have h0 := run_pushCode lib σ hy stack that temp
    obtain ⟨that1, temp1, h1⟩ := (putsValue_expression hs.2.1).run hi (σ.valueOf y :: stack) that temp
    obtain ⟨that2, temp2, h2⟩ :=
      (putsValue_expression hs.2.2).run he ((σ.valueOf y + k) :: stack) that1 temp1
    obtain ⟨that3, temp3, h3⟩ := run_storeCode lib σ2 (σ.valueOf y + k) v stack that2 temp2
    refine ⟨that3, temp3, ?_⟩
    have hadd : Instruction.execute lib (.op .add)
        ⟨σ1, k :: σ.valueOf y :: stack, that1, temp1⟩ =
        some ⟨σ1, (σ.valueOf y + k) :: stack, that1, temp1⟩ := rfl
    rw [Statement.code, run_append, h0, Option.bind_some, run_append, h1, Option.bind_some,
      run_cons, hadd, Option.bind_some, run_append, h2, Option.bind_some, h3]
  | @perform q f es _ _ v he =>
    obtain ⟨that1, temp1, h1⟩ := (putsValue_call hs).run he stack that temp
    refine ⟨that1, Function.update temp1 0 v, ?_⟩
    rw [Statement.code, run_append, h1]
    rfl

theorem assign_effect (lib : Library) {x : String} {e : Expression}
    (hs : (Statement.assign x e).Scoped ρ) (σ : Store) :
    ∃ σ', Effect lib ρ (.assign x e) σ σ' := by
  obtain ⟨y, hy⟩ := Option.isSome_iff_exists.mp hs.1
  obtain ⟨v, σ1, he⟩ := (putsValue_expression hs.2).evaluates lib σ
  exact ⟨_, .assign hy he⟩

theorem assignElement_effect (lib : Library) {x : String} {i e : Expression}
    (hs : (Statement.assignElement x i e).Scoped ρ) (σ : Store) :
    ∃ σ', Effect lib ρ (.assignElement x i e) σ σ' := by
  obtain ⟨y, hy⟩ := Option.isSome_iff_exists.mp hs.1
  obtain ⟨k, σ1, hi⟩ := (putsValue_expression hs.2.1).evaluates lib σ
  obtain ⟨v, σ2, he⟩ := (putsValue_expression hs.2.2).evaluates lib σ1
  exact ⟨_, .assignElement hy hi he⟩

theorem perform_effect (lib : Library) {q : Option String} {f : String} {es : List Expression}
    (hs : (Statement.perform q f es).Scoped ρ) (σ : Store) :
    ∃ σ', Effect lib ρ (.perform q f es) σ σ' := by
  obtain ⟨v, σ1, he⟩ := (putsValue_call hs).evaluates lib σ
  exact ⟨_, .perform he⟩

end Effects

section Jumps

variable {lib : Library} {body code : List Instruction} {lo hi line place : Nat} {l : Label}
  {c : Config} {σ σ' : Store} {stack : List Word} {v : Word}

theorem leads_label (hline : body[line]? = some (.label l)) (hc : c.Shows line σ stack)
    (hlo : lo ≤ line) (hhi : line < hi) (hplace : place = line + 1) :
    Leads lib body lo hi c (·.Shows place σ stack) := by
  obtain ⟨rfl, hstore, hstack⟩ := hc
  subst hplace
  have hstep : step lib body c = some ⟨c.line + 1, c.machine⟩ := by
    rw [step, hline]
  exact .next hlo hhi hstep (.here ⟨rfl, hstore, hstack⟩)

theorem leads_goto (hbody : (labelNumbers body).Nodup) (hline : body[line]? = some (.goto l))
    (hplace : body[place]? = some (.label l)) (hc : c.Shows line σ stack) (hlo : lo ≤ line)
    (hhi : line < hi) : Leads lib body lo hi c (·.Shows place σ stack) := by
  obtain ⟨rfl, hstore, hstack⟩ := hc
  have hstep : step lib body c = some ⟨place, c.machine⟩ := by
    rw [step, hline]
    simp [lineOf?_eq hbody hplace]
  exact .next hlo hhi hstep (.here ⟨rfl, hstore, hstack⟩)

theorem leads_value (hvalue : PutsValue code) (hcode : CodeAt body line code)
    (he : Evaluates lib code σ v σ') (hc : c.Shows line σ stack) (hlo : lo ≤ line)
    (hhi : line + code.length ≤ hi) :
    Leads lib body lo hi c (·.Shows (line + code.length) σ' (v :: stack)) := by
  obtain ⟨that, temp, rfl⟩ := hc.eq
  obtain ⟨that', temp', hrun⟩ := hvalue.run he stack that temp
  apply (leads_straight hvalue.straight hcode hrun hlo hhi).mono le_rfl le_rfl
  rintro d rfl
  exact ⟨rfl, rfl, rfl⟩

theorem leads_effect {ρ : Scope} {st : Statement} {n : Nat} (he : Effect lib ρ st σ σ')
    (hs : st.Scoped ρ) (hcode : CodeAt body line (st.code ρ n)) (hc : c.Shows line σ stack)
    (hlo : lo ≤ line) (hhi : line + (st.code ρ n).length ≤ hi) :
    Leads lib body lo hi c (·.Shows (line + (st.code ρ n).length) σ' stack) := by
  obtain ⟨that, temp, rfl⟩ := hc.eq
  obtain ⟨that', temp', hrun⟩ := he.run hs n stack that temp
  apply (leads_straight (he.straight n) hcode hrun hlo hhi).mono le_rfl le_rfl
  rintro d rfl
  exact ⟨rfl, rfl, rfl⟩

theorem not_eq_zero_iff (v : Word) : ~~~v = 0 ↔ v = -1 := by
  constructor
  · intro h
    have hnot := congrArg (fun w => ~~~w) h
    simpa [BitVec.neg_one_eq_allOnes] using hnot
  · rintro rfl
    rfl

/-- A condition is negated before the jump, which is made when the condition was not true. -/
theorem leads_condition {next : Nat} (hbody : (labelNumbers body).Nodup) (hvalue : PutsValue code)
    (hcode : CodeAt body line code) (hnot : body[line + code.length]? = some (.op .not))
    (hjump : body[line + code.length + 1]? = some (.ifGoto l))
    (hplace : body[place]? = some (.label l)) (he : Evaluates lib code σ v σ')
    (hc : c.Shows line σ stack) (hlo : lo ≤ line) (hhi : line + code.length + 2 ≤ hi)
    (hnext : next = if v = -1 then line + code.length + 2 else place) :
    Leads lib body lo hi c (·.Shows next σ' stack) := by
  apply (leads_value hvalue hcode he hc hlo (by omega)).bind
  intro d hd
  obtain ⟨that, temp, rfl⟩ := hd.eq
  have hstepNot : step lib body ⟨line + code.length, ⟨σ', v :: stack, that, temp⟩⟩ =
      some ⟨line + code.length + 1, ⟨σ', ~~~v :: stack, that, temp⟩⟩ := by
    rw [step_straight rfl hnot]
    rfl
  apply Leads.next (by simpa using by omega) (by simpa using by omega) hstepNot
  by_cases hv : v = -1
  · have hzero : ~~~v = 0 := (not_eq_zero_iff v).mpr hv
    have hstep : step lib body ⟨line + code.length + 1, ⟨σ', ~~~v :: stack, that, temp⟩⟩ =
        some ⟨line + code.length + 2, ⟨σ', stack, that, temp⟩⟩ := by
      rw [step]
      simp [hjump, hzero]
    rw [if_pos hv] at hnext
    subst hnext
    exact .next (by simpa using by omega) (by simpa using by omega) hstep (.here ⟨rfl, rfl, rfl⟩)
  · have hzero : ~~~v ≠ 0 := fun h => hv ((not_eq_zero_iff v).mp h)
    have hstep : step lib body ⟨line + code.length + 1, ⟨σ', ~~~v :: stack, that, temp⟩⟩ =
        some ⟨place, ⟨σ', stack, that, temp⟩⟩ := by
      rw [step]
      simp only [hjump, if_neg hzero, lineOf?_eq hbody hplace, Option.map_some]
    rw [if_neg hv] at hnext
    subst hnext
    exact .next (by simpa using by omega) (by simpa using by omega) hstep (.here ⟨rfl, rfl, rfl⟩)

end Jumps

/-- A block inside a statement is entered from the statement's first line, and another line is come
to from the end of the block. -/
structure Enters (lib : Library) (body : List Instruction) (ρ : Scope) (lo hi : Nat) (σ σ' : Store)
    (ss : List Statement) (next line number : Nat) : Prop where
  code : CodeAt body line (statementCode ρ ss number)
  first : lo < line
  last : line + (statementCode ρ ss number).length ≤ hi
  enter {c : Config} {stack : List Word} : c.Shows lo σ stack →
    Leads lib body lo hi c (·.Shows line σ' stack)
  leave {c : Config} {τ : Store} {stack : List Word} :
    c.Shows (line + (statementCode ρ ss number).length) τ stack →
    Leads lib body lo hi c (·.Shows next τ stack)

section Blocks

variable {lib : Library} {body : List Instruction} {ρ : Scope} {lo hi n : Nat} {σ σ' : Store}
  {c : Expression} {v : Word}

theorem branch_enters {yes : List Statement} {no : Option (List Statement)}
    (hbody : (labelNumbers body).Nodup) (hs : c.Scoped ρ)
    (hcode : CodeAt body lo ((Statement.branch c yes no).code ρ n))
    (hhi : hi = lo + ((Statement.branch c yes no).code ρ n).length)
    (he : Evaluates lib (c.code ρ) σ v σ') :
    ∃ line number, Enters lib body ρ lo hi σ σ' (chosen v yes no) hi line number := by
  have hvalue := putsValue_expression hs
  cases no with
  | none =>
    simp only [Statement.code, codeAt_append, codeAt_cons, codeAt_nil, and_true] at hcode
    obtain ⟨hc, hnot, hjump, hyes, hfalse⟩ := hcode
    simp only [Statement.code, List.length_append, List.length_cons, List.length_nil] at hhi
    by_cases hv : v = -1
    · rw [chosen, if_pos hv]
      refine ⟨_, _, hyes, by omega, by omega, ?_, ?_⟩
      · intro d stack hd
        exact leads_condition hbody hvalue hc hnot hjump hfalse he hd le_rfl (by omega)
          (by rw [if_pos hv])
      · intro d τ stack hd
        exact leads_label hfalse hd (by omega) (by omega) (by omega)
    · rw [chosen, if_neg hv]
      refine ⟨hi, n, codeAt_nil, by omega, by simp [statementCode], ?_, ?_⟩
      · intro d stack hd
        apply (leads_condition hbody hvalue hc hnot hjump hfalse he hd le_rfl (by omega) rfl).bind
        intro d hd
        rw [if_neg hv] at hd
        exact leads_label hfalse hd (by omega) (by omega) (by omega)
      · intro d τ stack hd
        exact .here hd
  | some no =>
    simp only [Statement.code, codeAt_append, codeAt_cons, codeAt_nil, and_true] at hcode
    obtain ⟨hc, hnot, hjump, hyes, hgoto, hfalse, hno, hend⟩ := hcode
    simp only [Statement.code, List.length_append, List.length_cons, List.length_nil] at hhi
    by_cases hv : v = -1
    · rw [chosen, if_pos hv]
      refine ⟨_, _, hyes, by omega, by omega, ?_, ?_⟩
      · intro d stack hd
        exact leads_condition hbody hvalue hc hnot hjump hfalse he hd le_rfl (by omega)
          (by rw [if_pos hv])
      · intro d τ stack hd
        apply (leads_goto hbody hgoto hend hd (by omega) (by omega)).bind
        intro d hd
        exact leads_label hend hd (by omega) (by omega) (by omega)
    · rw [chosen, if_neg hv]
      refine ⟨_, _, hno, by omega, ?_, ?_, ?_⟩
      · rw [Option.getD_some]
        omega
      · intro d stack hd
        apply (leads_condition hbody hvalue hc hnot hjump hfalse he hd le_rfl (by omega) rfl).bind
        intro d hd
        rw [if_neg hv] at hd
        exact leads_label hfalse hd (by omega) (by omega) rfl
      · intro d τ stack hd
        exact leads_label hend hd (by omega) (by omega) (by omega)

theorem loop_enters {ss : List Statement} (hbody : (labelNumbers body).Nodup) (hs : c.Scoped ρ)
    (hcode : CodeAt body lo ((Statement.loop c ss).code ρ n))
    (hhi : hi = lo + ((Statement.loop c ss).code ρ n).length)
    (he : Evaluates lib (c.code ρ) σ (-1) σ') :
    ∃ line number, Enters lib body ρ lo hi σ σ' ss lo line number := by
  have hvalue := putsValue_expression hs
  simp only [Statement.code, codeAt_append, codeAt_cons, codeAt_nil, and_true] at hcode
  obtain ⟨htop, hc, hnot, hjump, hss, hgoto, hend⟩ := hcode
  simp only [Statement.code, List.length_append, List.length_cons, List.length_nil] at hhi
  refine ⟨_, _, hss, by omega, by omega, ?_, ?_⟩
  · intro d stack hd
    apply (leads_label htop hd le_rfl (by omega) rfl).bind
    intro d hd
    exact leads_condition hbody hvalue hc hnot hjump hend he hd (by omega) (by omega)
      (by rw [if_pos rfl])
  · intro d τ stack hd
    exact leads_goto hbody hgoto htop hd (by omega) (by omega)

theorem loop_leaves {ss : List Statement} (hbody : (labelNumbers body).Nodup) (hs : c.Scoped ρ)
    (hcode : CodeAt body lo ((Statement.loop c ss).code ρ n))
    (hhi : hi = lo + ((Statement.loop c ss).code ρ n).length)
    (he : Evaluates lib (c.code ρ) σ v σ') (hv : v ≠ -1) {d : Config} {stack : List Word}
    (hd : d.Shows lo σ stack) : Leads lib body lo hi d (·.Shows hi σ' stack) := by
  have hvalue := putsValue_expression hs
  simp only [Statement.code, codeAt_append, codeAt_cons, codeAt_nil, and_true] at hcode
  obtain ⟨htop, hc, hnot, hjump, hss, hgoto, hend⟩ := hcode
  simp only [Statement.code, List.length_append, List.length_cons, List.length_nil] at hhi
  apply (leads_label htop hd le_rfl (by omega) rfl).bind
  intro d hd
  apply (leads_condition hbody hvalue hc hnot hjump hend he hd (by omega) (by omega) rfl).bind
  intro d hd
  rw [if_neg hv] at hd
  exact leads_label hend hd (by omega) (by omega) (by omega)

end Blocks

end JackVM
