import JackVM.Proofs.AgreeingRuns
import JackVM.Proofs.OrderlyProductions

namespace JackVM

/-- A stream with a log answers as it does without one. -/
def SourceMap.withoutLog : SourceMap TokenLog TokenStream where
  map := TokenLog.stream
  next s := by
    simp only [TokenSource.next]
    cases s.stream.next with
    | ok t? τ => exact .ok rfl
    | error e τ => exact .error rfl
  unread s := by
    simp only [TokenSource.unread]
    cases s.stream.unread with
    | ok u τ => exact .ok rfl
    | error e τ => exact .error rfl
  beginTerm _ _ := rfl
  depthBound _ := rfl

namespace Compilation

variable {σ : Type}

/-- Compiling from the same state with a new log at its source. -/
def logged (s : Compilation σ) : Compilation σ TokenLog :=
  s.mapTokens (⟨·, []⟩)

def withoutLog (s : Compilation σ TokenLog) : Compilation σ :=
  s.mapTokens TokenLog.stream

end Compilation

variable {σ α : Type}

section Proceeding

variable {p : Pause} {x : CompilingLogged σ α} {x' : Compiling σ α} {g : α → Option Token}

/-- With a result, a part of compiling has used up a token that was to come, or it gave back the one
that was read before and did nothing else. -/
def Proceeds (p : Pause) (x : Compiling σ α) (g : α → Option Token) : Prop :=
  ∀ s s' a, p.At s.tokens → x s = .ok a s' →
    s'.tokens.upcoming.length < s.tokens.upcoming.length ∨
      ∃ t, p = .after t ∧ g a = some t ∧ s' = s

theorem Orderly.proceeds {n : Nat} {Q : α → Pause → Prop} (h : Orderly n 1 p x Q)
    (hx : Mirrors .withoutLog x x') : Proceeds p x' g := by
  intro s s' a hs hrun
  obtain ⟨after, hlogged, rfl⟩ := hx.exists_ok (s := s.logged) rfl hrun
  exact .inl (h.ok hs hlogged).1

theorem GivesBackOrProceeds.proceeds {n : Nat} {t : Token} {f : α → Token}
    (h : GivesBackOrProceeds n t x f) (hx : Mirrors .withoutLog x x') :
    Proceeds (.after t) x' fun a => some (f a) := by
  rcases h with ⟨a, rfl, rfl⟩ | h
  · intro s s' b _ hrun
    obtain ⟨after, hlogged, rfl⟩ := hx.exists_ok (s := s.logged) rfl hrun
    cases hlogged
    exact .inr ⟨f a, rfl, rfl, rfl⟩
  · exact h.proceeds hx

end Proceeding

variable [CodeSink σ]

/-- The parts of compiling that follow the rules of the grammar, from a pause on, and the token
after what was read that comes with a result. -/
inductive Production : {α : Type} → Pause → Compiling σ α → (α → Option Token) → Prop
  | expression (fuel : Nat) (t : Token) :
    Production (.after t) (Compiling.expression fuel t) some
  | operators (fuel : Nat) (t : Token) :
    Production (.after t) (Compiling.operators fuel t) some
  | term (fuel : Nat) (t : Token) :
    Production (.after t) (Compiling.term fuel t) some
  | callee (p : Pause) (t : Token) :
    Production p (Compiling.callee t) fun _ => none
  | call (p : Pause) (fuel : Nat) (t : Token) :
    Production p (Compiling.call fuel t) some
  | arguments (p : Pause) (fuel : Nat) :
    Production p (Compiling.arguments fuel) fun c => some c.2
  | moreArguments (fuel count : Nat) (t : Token) :
    Production (.after t) (Compiling.moreArguments fuel count t) fun c => some c.2
  | letStatement (p : Pause) (fuel : Nat) :
    Production p (Compiling.letStatement fuel) some
  | doStatement (p : Pause) (fuel : Nat) :
    Production p (Compiling.doStatement fuel) some
  | returnStatement (fuel : Nat) (t : Token) :
    Production (.after t) (Compiling.returnStatement fuel t) some
  | negatedCondition (p : Pause) (fuel : Nat) :
    Production p (Compiling.negatedCondition fuel) fun _ => none
  | statements (fuel : Nat) (t : Token) :
    Production (.after t) (Compiling.statements fuel t) some
  | block (p : Pause) (fuel : Nat) :
    Production p (Compiling.block fuel) some
  | ifStatement (p : Pause) (fuel : Nat) :
    Production p (Compiling.ifStatement fuel) some
  | whileStatement {p : Pause} (fuel : Nat) : p.IsClear →
    Production p (Compiling.whileStatement fuel) some
  | nameList (p : Pause) (typeName : String) (k : VariableKind) (fuel : Nat) :
    Production p (Compiling.nameList typeName k fuel) some
  | typedNames (p : Pause) (k : VariableKind) (fuel : Nat) :
    Production p (Compiling.typedNames k fuel) some
  | classVariables (fuel : Nat) (t : Token) :
    Production (.after t) (Compiling.classVariables fuel t) some
  | localVariables (fuel : Nat) (t : Token) :
    Production (.after t) (Compiling.localVariables fuel t) some
  | parameters (fuel : Nat) (t : Token) :
    Production (.after t) (Compiling.parameters fuel t) some
  | parameterList (p : Pause) (fuel : Nat) :
    Production p (Compiling.parameterList fuel) fun _ => none
  | routineBody (p : Pause) (name : String) (kind : RoutineKind) (fuel : Nat) :
    Production p (Compiling.routineBody name kind fuel) fun _ => none
  | routine (p : Pause) (kind : RoutineKind) (fuel : Nat) :
    Production p (Compiling.routine kind fuel) some
  | routines (fuel : Nat) (t : Token) :
    Production (.after t) (Compiling.routines fuel t) some
  | classDeclaration (fuel : Nat) (t : Token) :
    Production (.after t) (Compiling.classDeclaration fuel t) id
  | wholeSource (p : Pause) (fuel : Nat) :
    Production p (Compiling.wholeSource fuel) fun _ => none

theorem name_of_callee {t : Token} {s s' : Compilation σ} {c : String × Nat}
    (h : Compiling.callee t s = .ok c s') : ∃ name, t.lexeme = .identifier name := by
  unfold Compiling.callee at h
  obtain ⟨name, mid, h1, -⟩ := Compiling.bind_ok h
  exact ⟨name, (Compiling.nameOf_ok h1).1⟩

theorem name_of_call {fuel : Nat} {t t' : Token} {s s' : Compilation σ}
    (h : Compiling.call fuel t s = .ok t' s') : ∃ name, t.lexeme = .identifier name := by
  cases fuel with
  | zero => cases h
  | succ fuel =>
    unfold Compiling.call at h
    obtain ⟨c, mid, h1, -⟩ := Compiling.bind_ok h
    exact name_of_callee h1

theorem Production.proceeds {p : Pause} {x : Compiling σ α} {g : α → Option Token}
    (h : Production p x g) : Proceeds p x g := by
  have hle (fuel : Nat) : 2 * 0 ≤ fuel := Nat.zero_le fuel
  have hagree := stepsAgree_mapTokens (σ := σ) .withoutLog
  have hexpressions (fuel : Nat) : OrderlyExpressions σ fuel := orderlyExpressions fuel
  have hstatements (fuel : Nat) : OrderlyStatements σ fuel := orderlyStatements fuel
  cases h with
  | expression fuel t =>
    exact ((hexpressions fuel).expression (hle _)).proceeds (hagree.expression fuel t)
  | operators fuel t =>
    exact ((hexpressions fuel).operators (hle _)).proceeds ((hagree.expressions fuel).operators t)
  | term fuel t =>
    exact ((hexpressions fuel).term (hle _)).proceeds ((hagree.expressions fuel).term t)
  | callee p t =>
    intro s s' c hs hx
    obtain ⟨name, ht⟩ := name_of_callee hx
    have hcallee : Proceeds p (Compiling.callee t : Compiling σ (String × Nat)) fun _ => none :=
      (orderly_callee (n := 0) ht).proceeds (hagree.callee t)
    exact hcallee s s' c hs hx
  | call p fuel t =>
    intro s s' t' hs hx
    obtain ⟨name, ht⟩ := name_of_call hx
    have hcall := (hexpressions fuel).call (p := p) (hle _) (fun _ => rfl) ht
    exact hcall.proceeds ((hagree.expressions fuel).call t) s s' t' hs hx
  | arguments p fuel =>
    exact ((hexpressions fuel).arguments (hle _)).proceeds (hagree.expressions fuel).arguments
  | moreArguments fuel count t =>
    exact ((hexpressions fuel).moreArguments (hle _)).proceeds
      ((hagree.expressions fuel).moreArguments count t)
  | letStatement p fuel =>
    exact (orderly_letStatement (hle _)).proceeds (hagree.letStatement fuel)
  | doStatement p fuel =>
    exact (orderly_doStatement (hle _)).proceeds (hagree.doStatement fuel)
  | returnStatement fuel t =>
    exact (orderly_returnStatement (hle _)).proceeds (hagree.returnStatement fuel t)
  | negatedCondition p fuel =>
    exact (orderly_negatedCondition (hle _)).proceeds (hagree.negatedCondition fuel)
  | statements fuel t =>
    exact ((hstatements fuel).statements (hle _)).proceeds ((hagree.statements fuel).statements t)
  | block p fuel => exact ((hstatements fuel).block (hle _)).proceeds (hagree.statements fuel).block
  | ifStatement p fuel =>
    exact ((hstatements fuel).ifStatement (hle _)).proceeds (hagree.statements fuel).ifStatement
  | whileStatement fuel hp =>
    exact ((hstatements fuel).whileStatement (hle _) hp).proceeds
      (hagree.statements fuel).whileStatement
  | nameList p typeName k fuel =>
    exact (orderly_nameList (hle _)).proceeds (hagree.nameList typeName k fuel)
  | typedNames p k fuel => exact (orderly_typedNames (hle _)).proceeds (hagree.typedNames k fuel)
  | classVariables fuel t =>
    exact (orderly_classVariables (hle _)).proceeds (hagree.classVariables fuel t)
  | localVariables fuel t =>
    exact (orderly_localVariables (hle _)).proceeds (hagree.localVariables fuel t)
  | parameters fuel t => exact (orderly_parameters (hle _)).proceeds (hagree.parameters fuel t)
  | parameterList p fuel =>
    exact (orderly_parameterList (hle _)).proceeds (hagree.parameterList fuel)
  | routineBody p name kind fuel =>
    exact (orderly_routineBody (hle _)).proceeds (hagree.routineBody name kind fuel)
  | routine p kind fuel => exact (orderly_routine (hle _)).proceeds (hagree.routine kind fuel)
  | routines fuel t => exact (orderly_routines (hle _)).proceeds (hagree.routines fuel t)
  | classDeclaration fuel t =>
    exact (orderly_classDeclaration (hle _)).proceeds (hagree.classDeclaration fuel t)
  | wholeSource p fuel => exact (orderly_wholeSource (hle _)).proceeds (hagree.wholeSource fuel)

section Calls

/-- Compiling a class goes deep enough, has nothing wrong with taking back, and leaves nothing that
was taken back. -/
theorem compileClass_orderly {s : Compilation σ TokenLog} {p : Pause}
    (hs : p.At s.tokens.stream) : s.compileClass.1 ≠ .error (.token .nothingToUnread) ∧
      s.compileClass.1 ≠ .error .outOfFuel ∧
        ∃ q, q.IsClear ∧ s.tokens.Delivers p s.compileClass.2.tokens q := by
  have hbound := upcoming_le_depthBound s.tokens.stream
  have hwhole : Orderly (s.tokens.stream.upcoming.length + 1) 1 p
      (Compiling.wholeSource (TokenSource.depthBound s.tokens) : CompilingLogged σ Unit)
      fun _ q => q.IsClear :=
    orderly_wholeSource (by change _ ≤ TokenSource.depthBound s.tokens.stream + 2; omega)
  unfold Compilation.compileClass
  cases hx : Compiling.wholeSource (TokenSource.depthBound s.tokens) s with
  | ok u after =>
    obtain ⟨-, hdelivers⟩ := hwhole.ok hs hx
    exact ⟨nofun, nofun, hdelivers⟩
  | error e after =>
    rcases hwhole.error hs hx with ⟨-, hdeep⟩ | ⟨he, he', hdelivers⟩
    · omega
    · exact ⟨fun h => he' (Except.error.inj h), fun h => he (Except.error.inj h), hdelivers⟩

theorem afterCalls_delivers {s : Compilation σ TokenLog} {p : Pause} (hs : p.At s.tokens.stream)
    (hp : p.IsClear) (calls : Nat) :
    ∃ q, q.IsClear ∧ s.tokens.Delivers p (s.afterCalls calls).tokens q := by
  induction calls with
  | zero => exact ⟨p, hp, .refl hs⟩
  | succ calls ih =>
    obtain ⟨q, -, hdelivers⟩ := ih
    obtain ⟨-, -, q', hq', hdelivers'⟩ := compileClass_orderly hdelivers.at_end
    exact ⟨q', hq', hdelivers.trans hdelivers'⟩

/-- However often compiling is gone on with, taking back never fails and the depth of recursion is
enough. A log kept at the source changes nothing, and shows that the results up to where the source
stands were delivered in order, each of them once apart from those that were taken back, which are
only those that open a call after a name at the start of a term. Between calls nothing is taken
back. It ends since each part with a result used up a token or gave back its own. -/
theorem afterCalls_deliverOnce (source : String) (sink : σ) (calls : Nat) :
    let start := Compilation.ofText source sink
    let s := start.afterCalls calls
    let log := (start.logged.afterCalls calls).tokens.log
    (start.logged.afterCalls calls).withoutLog = s ∧
      s.compileClass.1 ≠ .error (.token .nothingToUnread) ∧
      (s.compileClass.1 ≠ .error .outOfFuel ∧ ∀ extra,
        Compiling.wholeSource (extra + TokenSource.depthBound s.tokens) s =
          Compiling.wholeSource (TokenSource.depthBound s.tokens) s) ∧
      s.tokens.unreadToken = none ∧
      (∃ rs q, DeliversOnce .clear rs log q ∧ q.At s.tokens ∧
        (Cursor.ofText source).Gives rs s.tokens.cursor) ∧
      (∃ ends, (StreamAnswer.fresh (log.filterMap SourceEvent.answer?).reverse).reverse ++
            s.tokens.cursor.results.map (Except.map some) =
          (Cursor.ofText source).results.map (Except.map some) ++ List.replicate ends (.ok none)) ∧
      ∀ (β : Type) (p : Pause) (x : Compiling σ β) (g : β → Option Token),
        Production p x g → Proceeds p x g := by
  intro start s log
  have hsame : (start.logged.afterCalls calls).withoutLog = s :=
    afterCalls_mapTokens .withoutLog start.logged calls
  have hstart : Pause.clear.At start.logged.tokens.stream := rfl
  obtain ⟨q, hclear, hdelivers⟩ := afterCalls_delivers hstart trivial calls
  obtain ⟨hback, hfuel, -⟩ := compileClass_orderly hdelivers.at_end
  have hresult : s.compileClass.1 = (start.logged.afterCalls calls).compileClass.1 := by
    rw [← hsame]
    exact congrArg Prod.fst (compileClass_mapTokens .withoutLog _)
  have hextra (extra : Nat) : Compiling.wholeSource (extra + TokenSource.depthBound s.tokens) s =
      Compiling.wholeSource (TokenSource.depthBound s.tokens) s :=
    wholeSource_extra (upcoming_le_depthBound s.tokens) extra
  have hstream : (start.logged.afterCalls calls).tokens.stream = s.tokens :=
    congrArg Compilation.tokens hsame
  obtain ⟨rs, log', hlog, honce, hgives, hq⟩ := hdelivers
  obtain rfl : log = log' := hlog
  rw [hstream] at hgives hq
  refine ⟨hsame, hresult ▸ hback, ⟨hresult ▸ hfuel, hextra⟩, Pause.unreadToken_of_at hclear hq,
    ⟨rs, q, honce, hq, hgives⟩, ?_, fun β p x g h => h.proceeds⟩
  rw [honce.fresh_eq trivial]
  exact hgives.results

end Calls

end JackVM
