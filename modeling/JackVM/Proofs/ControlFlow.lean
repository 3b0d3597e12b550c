import JackVM.Proofs.BlockEntry
import JackVM.Proofs.Subroutines

namespace JackVM

/-- Where the code of statements, between two lines, comes to when they end. -/
def Outcome.At (body : List Instruction) (lo hi : Nat) (stack : List Word) :
    Outcome → Config → Prop
  | done σ, c => c.Shows hi σ stack
  | returned v σ, c => ∃ line, lo ≤ line ∧ line < hi ∧ body[line]? = some .ret ∧
      c.Shows line σ (v :: stack)

section Simulation

variable {lib : Library} {body : List Instruction} {ρ : Scope} {lo hi lo' hi' n : Nat}
  {σ σ' : Store} {stack : List Word} {ss : List Statement} {st : Statement} {o : Outcome}
  {c d : Config} {v : Word}

theorem Outcome.At.widen (h : o.At body lo hi stack c) (hlo : lo' ≤ lo) (hhi : hi' = hi) :
    o.At body lo' hi' stack c := by
  subst hhi
  cases o with
  | done σ => exact h
  | returned v σ =>
    obtain ⟨line, hge, hlt, hret, hc⟩ := h
    exact ⟨line, by omega, hlt, hret, hc⟩

theorem Outcome.At.returned_widen (h : (returned v σ).At body lo hi stack c) (hlo : lo' ≤ lo)
    (hhi : hi ≤ hi') : (returned v σ).At body lo' hi' stack c := by
  obtain ⟨line, hge, hlt, hret, hc⟩ := h
  exact ⟨line, by omega, by omega, hret, hc⟩

/-- The code of a return stands at the start of a list of statements. -/
theorem leads_return {code : List Instruction} (hvalue : PutsValue code)
    (hcode : CodeAt body lo code) (hret : body[lo + code.length]? = some .ret)
    (he : Evaluates lib code σ v σ') (hc : c.Shows lo σ stack) (hhi : lo + code.length < hi) :
    Leads lib body lo hi c ((Outcome.returned v σ').At body lo hi stack) := by
  apply (leads_value hvalue hcode he hc le_rfl hhi.le).mono le_rfl le_rfl
  intro d hd
  exact ⟨_, by omega, hhi, hret, hd⟩

theorem putsValue_zero : PutsValue [.push .constant 0] :=
  ⟨by simp [Instruction.isStraight], fun _ _ _ => ⟨_, _, computes_integer 0⟩⟩

theorem evaluates_zero (σ : Store) : Evaluates lib [.push .constant 0] σ 0 σ :=
  fun that temp => ⟨that, temp, rfl⟩

/-- A part of the code is run up to a line, and the rest from there on. -/
theorem Leads.then_outcome {mid : Nat} (h : Leads lib body lo mid c (·.Shows mid σ' stack))
    (hlo : lo ≤ mid) (hhi : mid ≤ hi) (hrest : ∀ {d}, d.Shows mid σ' stack →
      Leads lib body mid hi d (o.At body mid hi stack)) :
    Leads lib body lo hi c (o.At body lo hi stack) := by
  apply (h.mono le_rfl hhi fun _ => id).bind
  intro d hd
  apply (hrest hd).mono hlo le_rfl
  intro e he
  exact he.widen hlo rfl

theorem Leads.then_lasts {mid : Nat} (h : Leads lib body lo mid c (·.Shows mid σ' stack))
    (hlo : lo ≤ mid) (hhi : mid ≤ hi)
    (hrest : ∀ {d}, d.Shows mid σ' stack → Lasts lib body mid hi n d) :
    Lasts lib body lo hi n c := by
  apply (h.mono le_rfl hhi fun _ => id).lasts
  intro d hd
  exact (hrest hd).mono hlo le_rfl

theorem codeAt_statements : CodeAt body lo (statementCode ρ (st :: ss) n) ↔
    CodeAt body lo (st.code ρ n) ∧
      CodeAt body (lo + (st.code ρ n).length) (statementCode ρ ss (n + st.labels)) := by
  rw [statementCode, codeAt_append]

theorem length_statements : (statementCode ρ (st :: ss) n).length =
    (st.code ρ n).length + (statementCode ρ ss (n + st.labels)).length := by
  rw [statementCode, List.length_append]

theorem scoped_condition {x : Expression} {yes : List Statement} {no : Option (List Statement)}
    (h : (Statement.branch x yes no).Scoped ρ) : x.Scoped ρ := by
  cases no with
  | none => exact h.1
  | some no => exact h.1

theorem scoped_chosen {x : Expression} {yes : List Statement} {no : Option (List Statement)}
    (h : (Statement.branch x yes no).Scoped ρ) (v : Word) :
    StatementsScoped ρ (chosen v yes no) := by
  unfold chosen
  cases no with
  | none =>
    split
    next => exact h.2
    next => exact trivial
  | some no =>
    split
    next => exact h.2.1
    next => exact h.2.2

namespace Enters

variable {next line number : Nat} {τ : Store}

/-- When the block ends, its statement is gone on with. -/
theorem leaves (hin : Enters lib body ρ lo hi σ σ' ss next line number)
    (hblock : Leads lib body line (line + (statementCode ρ ss number).length) c
      (·.Shows (line + (statementCode ρ ss number).length) τ stack)) :
    Leads lib body lo hi c (·.Shows next τ stack) := by
  apply (hblock.mono hin.first.le hin.last fun _ => id).bind
  intro d hd
  exact hin.leave hd

theorem done (hin : Enters lib body ρ lo hi σ σ' ss next line number)
    (hblock : ∀ {d}, d.Shows line σ' stack →
      Leads lib body line (line + (statementCode ρ ss number).length) d
        (·.Shows (line + (statementCode ρ ss number).length) τ stack))
    (hc : c.Shows lo σ stack) : Leads lib body lo hi c (·.Shows next τ stack) := by
  apply (hin.enter hc).bind
  intro d hd
  exact hin.leaves (hblock hd)

theorem returned (hin : Enters lib body ρ lo hi σ σ' ss next line number)
    (hblock : ∀ {d}, d.Shows line σ' stack →
      Leads lib body line (line + (statementCode ρ ss number).length) d
        ((Outcome.returned v τ).At body line (line + (statementCode ρ ss number).length) stack))
    (hc : c.Shows lo σ stack) (hhi : hi ≤ hi') :
    Leads lib body lo hi' c ((Outcome.returned v τ).At body lo hi' stack) := by
  apply ((hin.enter hc).mono le_rfl hhi fun _ => id).bind
  intro d hd
  have hlast := hin.last.trans hhi
  apply (hblock hd).mono hin.first.le hlast
  intro e he
  exact he.returned_widen hin.first.le hlast

theorem lasts (hin : Enters lib body ρ lo hi σ σ' ss next line number)
    (hblock : ∀ {d}, d.Shows line σ' stack →
      Lasts lib body line (line + (statementCode ρ ss number).length) n d)
    (hc : c.Shows lo σ stack) (hhi : hi ≤ hi') : Lasts lib body lo hi' n c := by
  apply ((hin.enter hc).mono le_rfl hhi fun _ => id).lasts
  intro d hd
  exact (hblock hd).mono hin.first.le (hin.last.trans hhi)

end Enters

/-- What statements do, their code does. -/
theorem Executes.leads (hbody : (labelNumbers body).Nodup) (h : Executes lib ρ ss σ o) :
    ∀ {lo hi n c stack}, StatementsScoped ρ ss → CodeAt body lo (statementCode ρ ss n) →
      hi = lo + (statementCode ρ ss n).length → c.Shows lo σ stack →
      Leads lib body lo hi c (o.At body lo hi stack) := by
  -- A loop that is gone through once more has the same code, so the lines are left open here.
  induction h with
  | nil σ =>
    intro lo hi n c stack _ _ hhi hc
    subst hhi
    exact .here hc
  | effect he _ ih =>
    intro lo hi n c stack hs hcode hhi hc
    obtain ⟨hst, hss⟩ := codeAt_statements.mp hcode
    rw [length_statements] at hhi
    have hfirst := leads_effect he hs.1 hst hc le_rfl le_rfl
    exact hfirst.then_outcome (by omega) (by omega) fun hd => ih hs.2 hss (by omega) hd
  | branch he _ _ ihChosen ih =>
    intro lo hi n c stack hs hcode hhi hc
    obtain ⟨hst, hss⟩ := codeAt_statements.mp hcode
    rw [length_statements] at hhi
    obtain ⟨line, number, hin⟩ := branch_enters hbody (scoped_condition hs.1) hst rfl he
    have hblock := hin.done (fun hd => ihChosen (scoped_chosen hs.1 _) hin.code rfl hd) hc
    exact hblock.then_outcome (by omega) (by omega) fun hd => ih hs.2 hss (by omega) hd
  | branchReturn he _ ihChosen =>
    intro lo hi n c stack hs hcode hhi hc
    obtain ⟨hst, hss⟩ := codeAt_statements.mp hcode
    rw [length_statements] at hhi
    obtain ⟨line, number, hin⟩ := branch_enters hbody (scoped_condition hs.1) hst rfl he
    exact hin.returned (fun hd => ihChosen (scoped_chosen hs.1 _) hin.code rfl hd) hc (by omega)
  | loopEnd he hv _ ih =>
    intro lo hi n c stack hs hcode hhi hc
    obtain ⟨hst, hss⟩ := codeAt_statements.mp hcode
    rw [length_statements] at hhi
    have hleave := loop_leaves hbody hs.1.1 hst rfl he hv hc
    exact hleave.then_outcome (by omega) (by omega) fun hd => ih hs.2 hss (by omega) hd
  | loopAgain he _ _ ihBody ih =>
    intro lo hi n c stack hs hcode hhi hc
    obtain ⟨hst, hss⟩ := codeAt_statements.mp hcode
    have hlength := hhi
    rw [length_statements] at hlength
    obtain ⟨line, number, hin⟩ := loop_enters hbody hs.1.1 hst rfl he
    have hblock := hin.done (fun hd => ihBody hs.1.2 hin.code rfl hd) hc
    apply (hblock.mono le_rfl (by omega) fun _ => id).bind
    intro d hd
    exact ih hs hcode hhi hd
  | loopReturn he _ ihBody =>
    intro lo hi n c stack hs hcode hhi hc
    obtain ⟨hst, hss⟩ := codeAt_statements.mp hcode
    rw [length_statements] at hhi
    obtain ⟨line, number, hin⟩ := loop_enters hbody hs.1.1 hst rfl he
    exact hin.returned (fun hd => ihBody hs.1.2 hin.code rfl hd) hc (by omega)
  | giveBackNothing =>
    intro lo hi n c stack hs hcode hhi hc
    obtain ⟨hst, hss⟩ := codeAt_statements.mp hcode
    rw [length_statements] at hhi
    obtain ⟨hpush, hret, -⟩ := hst
    simp only [Statement.code, List.length_cons, List.length_nil] at hhi
    exact leads_return putsValue_zero ⟨hpush, codeAt_nil⟩ hret (evaluates_zero _) hc
      (by simpa using by omega)
  | giveBack he =>
    intro lo hi n c stack hs hcode hhi hc
    obtain ⟨hst, hss⟩ := codeAt_statements.mp hcode
    rw [length_statements, Statement.code, List.length_append, List.length_singleton] at hhi
    rw [Statement.code, codeAt_append] at hst
    obtain ⟨hvalue, hret, -⟩ := hst
    exact leads_return (putsValue_expression hs.1.2) hvalue hret he hc (by omega)

theorem sizeOf_chosen_lt {x : Expression} {yes : List Statement} {no : Option (List Statement)}
    (v : Word) (ss : List Statement) :
    sizeOf (chosen v yes no) < sizeOf (Statement.branch x yes no :: ss) := by
  unfold chosen
  split
  next =>
    simp
    omega
  next =>
    cases no with
    | none =>
      simp
      omega
    | some no =>
      simp
      omega

/-- Statements come to an end, or their code is not left for so many steps. -/
def EndsOrLasts (lib : Library) (body : List Instruction) (ρ : Scope) (k : Nat)
    (ss : List Statement) : Prop :=
  ∀ {lo hi n σ c stack}, StatementsScoped ρ ss → CodeAt body lo (statementCode ρ ss n) →
    hi = lo + (statementCode ρ ss n).length → Config.Shows c lo σ stack →
    (∃ o, Executes lib ρ ss σ o) ∨ Lasts lib body lo hi k c

namespace EndsOrLasts

variable {k : Nat}

theorem effect (heffect : st.Scoped ρ → ∀ σ, ∃ σ', Effect lib ρ st σ σ')
    (hrest : EndsOrLasts lib body ρ k ss) : EndsOrLasts lib body ρ k (st :: ss) := by
  intro lo hi n σ c stack hs hcode hhi hc
  obtain ⟨hst, hss⟩ := codeAt_statements.mp hcode
  rw [length_statements] at hhi
  obtain ⟨σ', he⟩ := heffect hs.1 σ
  have hfirst := leads_effect he hs.1 hst hc le_rfl le_rfl
  by_cases hends : ∃ o, Executes lib ρ ss σ' o
  · obtain ⟨o, ho⟩ := hends
    exact .inl ⟨o, .effect he ho⟩
  · right
    apply hfirst.then_lasts (by omega) (by omega)
    intro d hd
    exact (hrest hs.2 hss (by omega) hd).resolve_left hends

theorem branch {x : Expression} {yes : List Statement} {no : Option (List Statement)}
    (hbody : (labelNumbers body).Nodup)
    (hblock : ∀ v, EndsOrLasts lib body ρ k (chosen v yes no))
    (hrest : EndsOrLasts lib body ρ k ss) :
    EndsOrLasts lib body ρ k (.branch x yes no :: ss) := by
  intro lo hi n σ c stack hs hcode hhi hc
  obtain ⟨hst, hss⟩ := codeAt_statements.mp hcode
  rw [length_statements] at hhi
  have hx := scoped_condition hs.1
  obtain ⟨v, σ', he⟩ := (putsValue_expression hx).evaluates lib σ
  have hchosen := scoped_chosen hs.1 v
  obtain ⟨line, number, hin⟩ := branch_enters hbody hx hst rfl he
  by_cases hends : ∃ o, Executes lib ρ (chosen v yes no) σ' o
  · obtain ⟨o, ho⟩ := hends
    cases o with
    | returned w τ => exact .inl ⟨_, .branchReturn he ho⟩
    | done τ =>
      have hfirst := hin.done (fun hd => ho.leads hbody hchosen hin.code rfl hd) hc
      by_cases hends : ∃ o, Executes lib ρ ss τ o
      · obtain ⟨o, hss⟩ := hends
        exact .inl ⟨o, .branch he ho hss⟩
      · right
        apply hfirst.then_lasts (by omega) (by omega)
        intro d hd
        exact (hrest hs.2 hss (by omega) hd).resolve_left hends
  · right
    apply hin.lasts _ hc (by omega)
    intro d hd
    exact (hblock v hchosen hin.code rfl hd).resolve_left hends

/-- The steps are counted to come back to the start of a loop with fewer of them left. -/
theorem loop {x : Expression} {block : List Statement} (hbody : (labelNumbers body).Nodup)
    (hblock : EndsOrLasts lib body ρ (k + 1) block)
    (hrest : EndsOrLasts lib body ρ (k + 1) ss)
    (hagain : EndsOrLasts lib body ρ k (.loop x block :: ss)) :
    EndsOrLasts lib body ρ (k + 1) (.loop x block :: ss) := by
  intro lo hi n σ c stack hs hcode hhi hc
  obtain ⟨hst, hss⟩ := codeAt_statements.mp hcode
  have hlength := hhi
  rw [length_statements] at hlength
  obtain ⟨v, σ', he⟩ := (putsValue_expression hs.1.1).evaluates lib σ
  by_cases hv : v = -1
  · subst hv
    obtain ⟨line, number, hin⟩ := loop_enters hbody hs.1.1 hst rfl he
    by_cases hends : ∃ o, Executes lib ρ block σ' o
    · obtain ⟨o, ho⟩ := hends
      cases o with
      | returned w τ => exact .inl ⟨_, .loopReturn he ho⟩
      | done τ =>
        by_cases hends : ∃ o, Executes lib ρ (.loop x block :: ss) τ o
        · obtain ⟨o, hss⟩ := hends
          exact .inl ⟨o, .loopAgain he ho hss⟩
        · right
          -- The state after one round may be the one before it, but the block is on another line.
          have hfirst := (hin.enter hc).mono le_rfl (by omega : _ ≤ hi) fun _ => id
          apply hfirst.lasts_succ
          · rintro d hd rfl
            have hne := hin.first
            rw [← hc.line, ← hd.line] at hne
            omega
          · intro d hd
            have hleaves := hin.leaves (ho.leads hbody hs.1.2 hin.code rfl hd)
            apply (hleaves.mono le_rfl (by omega) fun _ => id).lasts
            intro e he
            exact (hagain hs hcode hhi he).resolve_left hends
    · right
      apply hin.lasts _ hc (by omega)
      intro d hd
      exact (hblock hs.1.2 hin.code rfl hd).resolve_left hends
  · have hfirst := loop_leaves hbody hs.1.1 hst rfl he hv hc
    by_cases hends : ∃ o, Executes lib ρ ss σ' o
    · obtain ⟨o, ho⟩ := hends
      exact .inl ⟨o, .loopEnd he hv ho⟩
    · right
      apply hfirst.then_lasts (by omega) (by omega)
      intro d hd
      exact (hrest hs.2 hss (by omega) hd).resolve_left hends

theorem giveBack (e : Option Expression) : EndsOrLasts lib body ρ k (.giveBack e :: ss) := by
  intro lo hi n σ c stack hs _ _ _
  cases e with
  | none => exact .inl ⟨_, .giveBackNothing⟩
  | some e =>
    obtain ⟨v, σ', he⟩ := (putsValue_expression hs.1.2).evaluates lib σ
    exact .inl ⟨_, .giveBack he⟩

end EndsOrLasts

theorem endsOrLasts (hbody : (labelNumbers body).Nodup) :
    (k : Nat) → (ss : List Statement) → EndsOrLasts lib body ρ k ss
  | 0, _ => fun _ _ _ _ => .inr .zero
  | _ + 1, [] => fun _ _ _ _ => .inl ⟨_, .nil _⟩
  | k + 1, .assign _ _ :: ss =>
    EndsOrLasts.effect (assign_effect lib) (endsOrLasts hbody (k + 1) ss)
  | k + 1, .assignElement _ _ _ :: ss =>
    EndsOrLasts.effect (assignElement_effect lib) (endsOrLasts hbody (k + 1) ss)
  | k + 1, .perform _ _ _ :: ss =>
    EndsOrLasts.effect (perform_effect lib) (endsOrLasts hbody (k + 1) ss)
  | k + 1, .branch _ yes no :: ss =>
    EndsOrLasts.branch hbody (fun v => endsOrLasts hbody (k + 1) (chosen v yes no))
      (endsOrLasts hbody (k + 1) ss)
  | k + 1, .loop x block :: ss =>
    EndsOrLasts.loop hbody (endsOrLasts hbody (k + 1) block) (endsOrLasts hbody (k + 1) ss)
      (endsOrLasts hbody k (.loop x block :: ss))
  | _ + 1, .giveBack e :: _ => EndsOrLasts.giveBack e
termination_by k ss => (k, sizeOf ss)
decreasing_by
  all_goals first
    | exact Prod.Lex.right _ (sizeOf_chosen_lt _ _)
    | decreasing_tactic

theorem Outcome.At.ends (h : o.At body lo hi stack c) (k : Nat) (d : Config) :
    ¬Steps lib body (· ≠ hi) (k + 1) c d := by
  intro hsteps
  cases hsteps with
  | next hon hstep _ =>
    cases o with
    | done σ => exact hon h.line
    | returned v σ =>
      obtain ⟨line, -, -, hret, hc⟩ := h
      rw [step, hc.line, hret] at hstep
      cases hstep

theorem Outcome.At.unique {p : Outcome} (ho : o.At body lo hi stack c)
    (hp : p.At body lo hi stack c) : o = p := by
  cases o with
  | done σ =>
    cases p with
    | done τ => rw [← ho.store, ← hp.store]
    | returned w τ =>
      obtain ⟨line, -, hlt, -, hc⟩ := hp
      rw [← hc.line, ho.line] at hlt
      omega
  | returned v σ =>
    obtain ⟨line, -, hlt, -, hc⟩ := ho
    cases p with
    | done τ =>
      rw [← hc.line, hp.line] at hlt
      omega
    | returned w τ =>
      obtain ⟨line', -, -, -, hc'⟩ := hp
      have hstack := hc.stack.symm.trans hc'.stack
      have hv := (List.cons.inj hstack).1
      rw [← hc.store, ← hc'.store, hv]

/-- The code of statements, run until it is left for the first time or gives back, does what the
statements do. -/
theorem executes_iff_reaches (hbody : (labelNumbers body).Nodup) (hs : StatementsScoped ρ ss)
    (hcode : CodeAt body lo (statementCode ρ ss n)) (hhi : hi = lo + (statementCode ρ ss n).length)
    (m : Machine) (o : Outcome) : Executes lib ρ ss m.toStore o ↔
      ∃ d, Reaches lib body hi ⟨lo, m⟩ d ∧ o.At body lo hi m.stack d := by
  have hstart : Config.Shows ⟨lo, m⟩ lo m.toStore m.stack := ⟨rfl, rfl, rfl⟩
  have hwithin : ∀ line, lo ≤ line ∧ line < hi → line ≠ hi := fun line h => h.2.ne
  constructor
  · intro h
    obtain ⟨k, d, hsteps, hd⟩ := h.leads hbody hs hcode hhi hstart
    exact ⟨d, ⟨k, hsteps.mono hwithin⟩, hd⟩
  · rintro ⟨d, ⟨k, hsteps⟩, hd⟩
    -- If the statements came to no end, one step more than there are could be taken.
    rcases endsOrLasts hbody (k + 1) ss hs hcode hhi hstart with ⟨p, hp⟩ | ⟨e, he⟩
    · obtain ⟨j, e, hsteps', he⟩ := hp.leads hbody hs hcode hhi hstart
      have hsame := hsteps.unique (hsteps'.mono hwithin) hd.ends he.ends
      subst hsame
      rwa [hd.unique he]
    · exact absurd (hsteps.rest (he.mono hwithin)) (hd.ends 0 e)

end Simulation

section Blocks

variable {body : List Instruction} {ρ : Scope}

mutual

/-- The code of a block stands inside the code of its statement. -/
theorem codeAt_blocks : (st : Statement) → st.Scoped ρ → {lo n k : Nat} →
    {block : List Statement} → (block, k) ∈ st.blocks n → CodeAt body lo (st.code ρ n) →
    StatementsScoped ρ block ∧ ∃ line, CodeAt body line (statementCode ρ block k)
  | .branch x yes none, hs, lo, n, _, _, hmem, hcode => by
    simp only [Statement.code, codeAt_append, codeAt_cons] at hcode
    exact codeAt_blocksOf yes hs.2 hmem hcode.2.2.2.1
  | .branch x yes (some no), hs, lo, n, _, _, hmem, hcode => by
    simp only [Statement.code, codeAt_append, codeAt_cons] at hcode
    obtain ⟨-, -, -, hyes, -, -, hno, -⟩ := hcode
    rcases List.mem_append.mp hmem with hmem | hmem
    · exact codeAt_blocksOf yes hs.2.1 hmem hyes
    · exact codeAt_blocksOf no hs.2.2 hmem hno
  | .loop x ss, hs, lo, n, _, _, hmem, hcode => by
    simp only [Statement.code, codeAt_append, codeAt_cons] at hcode
    obtain ⟨-, -, -, -, hss, -⟩ := hcode
    exact codeAt_blocksOf ss hs.2 hmem hss
  | .assign _ _, _, _, _, _, _, hmem, _ => by cases hmem
  | .assignElement _ _ _, _, _, _, _, _, hmem, _ => by cases hmem
  | .perform _ _ _, _, _, _, _, _, hmem, _ => by cases hmem
  | .giveBack _, _, _, _, _, _, hmem, _ => by cases hmem

theorem codeAt_blocksOf : (ss : List Statement) → StatementsScoped ρ ss → {lo n k : Nat} →
    {block : List Statement} → (block, k) ∈ blocksOf ss n → CodeAt body lo (statementCode ρ ss n) →
    StatementsScoped ρ block ∧ ∃ line, CodeAt body line (statementCode ρ block k)
  | [], hs, lo, n, _, _, hmem, hcode => by
    cases List.mem_singleton.mp hmem
    exact ⟨hs, lo, hcode⟩
  | st :: ss, hs, lo, n, _, _, hmem, hcode => by
    rcases List.mem_cons.mp hmem with hmem | hmem
    · cases hmem
      exact ⟨hs, lo, hcode⟩
    · obtain ⟨hst, hss⟩ := codeAt_statements.mp hcode
      rcases List.mem_append.mp hmem with hmem | hmem
      · exact codeAt_blocks st hs.1 hmem hst
      · exact codeAt_blocksOf ss hs.2 hmem hss

end

end Blocks

/-- Each block of some statements, with labels from a number on, has its code in a subroutine, and
this code, run until it is left or gives back, does what the block does. -/
def FollowsBlocks (body : List Instruction) (ρ : Scope) (ss : List Statement) (n : Nat) : Prop :=
  ∀ block k, (block, k) ∈ blocksOf ss n →
    (∃ lo, CodeAt body lo (statementCode ρ block k)) ∧
    ∀ lo hi, CodeAt body lo (statementCode ρ block k) →
      hi = lo + (statementCode ρ block k).length →
      ∀ (lib : Library) (m : Machine) (o : Outcome), Executes lib ρ block m.toStore o ↔
        ∃ d, Reaches lib body hi ⟨lo, m⟩ d ∧ o.At body lo hi m.stack d

theorem followsBlocks_bodyCode {c : ClassHead} {r : RoutineTree} (h : c.Admits r) (n : Nat) :
    FollowsBlocks (c.bodyCode r n) (c.scope r) r.body n := by
  intro block k hmem
  obtain ⟨hs, hcode⟩ := codeAt_blocksOf r.body h.body hmem (codeAt_self _)
  have hbody := (c.labelNumbers_bodyCode r n).nodup_iff.mpr List.nodup_range'
  exact ⟨hcode, fun lo hi hcode hhi lib m o => executes_iff_reaches hbody hs hcode hhi m o⟩

/-- Jumps in the code for a source do what its branches, loops and returns say. -/
theorem subroutines_followBlocks {source : String} {code : List Instruction} {sub : Subroutine}
    (h : compileInstructions source = .ok code) (hsub : sub ∈ subroutines code) :
    ∃ (c : ClassTree) (r : RoutineTree) (n : Nat), c.IsReadFrom source ∧ r ∈ c.routines ∧
      sub = ⟨s!"{c.name}.{r.name}", r.frameSize, c.bodyCode r n⟩ ∧
      FollowsBlocks sub.body (c.scope r) r.body n := by
  obtain ⟨c, r, n, hread, hmem, hr, rfl⟩ := routine_of_mem_subroutines h hsub
  exact ⟨c, r, n, hread, hmem, rfl, followsBlocks_bodyCode hr n⟩

theorem followBlocks_countdown : ∃ (c : ClassTree) (r : RoutineTree) (n : Nat),
    c.IsReadFrom countdownSource ∧ r ∈ c.routines ∧
      countdown = ⟨s!"{c.name}.{r.name}", r.frameSize, c.bodyCode r n⟩ ∧
      FollowsBlocks countdown.body (c.scope r) r.body n :=
  subroutines_followBlocks compile_countdown (by decide)

end JackVM
