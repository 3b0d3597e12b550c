import JackVM.Proofs.Orderly

namespace JackVM

variable {σ α β : Type}

/-- The token in a result is the one that was read just before. -/
def JustRead (g : α → Token) (a : α) (q : Pause) : Prop :=
  q = .after (g a)

/-- A part that goes on from a token gives it back at once, or uses up more of them. -/
def GivesBackOrProceeds (n : Nat) (t : Token) (x : CompilingLogged σ α) (g : α → Token) : Prop :=
  (∃ a, g a = t ∧ x = pure a) ∨ Orderly n 1 (.after t) x (JustRead g)

namespace Orderly

variable {n m j : Nat} {p : Pause} {t : Token} {x : CompilingLogged σ α} {g : α → Token}

theorem of_givesBackOrProceeds (h : GivesBackOrProceeds n t x g) :
    Orderly n 0 (.after t) x (JustRead g) := by
  rcases h with ⟨a, rfl, rfl⟩ | h
  · exact .done rfl
  · exact h.mono (Nat.le_refl n) (Nat.zero_le 1)

/-- What follows goes on from the token in the result. -/
theorem then_from {f : α → CompilingLogged σ β} {Q : β → Pause → Prop}
    (hx : Orderly n j p x (JustRead g))
    (hf : ∀ a, Orderly (n - j) (m - j) (.after (g a)) (f a) Q) : Orderly n m p (x >>= f) Q :=
  hx.bind fun a q hq => by
    obtain rfl : q = .after (g a) := hq
    exact hf a

/-- A part that has read before ends with reading. -/
theorem last : Orderly n 0 p (Compiling.next : CompilingLogged σ Token) (JustRead id) :=
  next.mono (Nat.le_refl n) (Nat.zero_le 1)

end Orderly

section Declarations

variable {n fuel : Nat} {p : Pause} {t : Token}

theorem orderly_nameList {typeName : String} {k : VariableKind} (hn : 2 * n ≤ fuel + 1) :
    Orderly n 1 p (Compiling.nameList typeName k fuel : CompilingLogged σ Token) (JustRead id) := by
  induction fuel generalizing n p with
  | zero => exact .shallow (by omega)
  | succ fuel ih =>
    unfold Compiling.nameList
    refine .next_then fun t => .internal_then (.declareName t typeName k) trivial fun _ => ?_
    refine .next_then fun u => ?_
    split
    next => exact (ih (by omega)).mono (Nat.le_refl _) (Nat.zero_le 1)
    next => exact .last
    next => exact .unexpected trivial

theorem orderly_typedNames {k : VariableKind} (hn : 2 * n ≤ fuel + 2) :
    Orderly n 1 p (Compiling.typedNames k fuel : CompilingLogged σ Token) (JustRead id) := by
  unfold Compiling.typedNames
  refine .next_then fun t => .internal_then (.typeOf t) trivial fun typeName => ?_
  exact (orderly_nameList (by omega)).mono (Nat.le_refl _) (Nat.zero_le 1)

theorem orderly_classVariables (hn : 2 * n ≤ fuel + 1) :
    GivesBackOrProceeds n t (Compiling.classVariables fuel t : CompilingLogged σ Token) id := by
  induction fuel generalizing n t with
  | zero => exact .inr (.shallow (by omega))
  | succ fuel ih =>
    unfold Compiling.classVariables
    split
    next =>
      refine .inr ((orderly_typedNames (by omega)).then_from fun u => ?_)
      exact .of_givesBackOrProceeds (ih (by omega))
    next => exact .inl ⟨t, rfl, rfl⟩

theorem orderly_localVariables (hn : 2 * n ≤ fuel + 1) :
    GivesBackOrProceeds n t (Compiling.localVariables fuel t : CompilingLogged σ Token) id := by
  induction fuel generalizing n t with
  | zero => exact .inr (.shallow (by omega))
  | succ fuel ih =>
    unfold Compiling.localVariables
    split
    next =>
      refine .inr ((orderly_typedNames (by omega)).then_from fun u => ?_)
      exact .of_givesBackOrProceeds (ih (by omega))
    next => exact .inl ⟨t, rfl, rfl⟩

theorem orderly_parameters (hn : 2 * n ≤ fuel + 1) :
    Orderly n 1 (.after t) (Compiling.parameters fuel t : CompilingLogged σ Token)
      (JustRead id) := by
  induction fuel generalizing n t with
  | zero => exact .shallow (by omega)
  | succ fuel ih =>
    unfold Compiling.parameters
    refine .internal_then (.typeOf t) trivial fun typeName => .next_then fun u => ?_
    refine .internal_then (.declareName u typeName .argument) trivial fun _ => ?_
    refine .next_then fun v => ?_
    split
    next =>
      refine .next_then fun w => ?_
      exact (ih (by omega)).mono (Nat.le_refl _) (Nat.zero_le 1)
    next => exact .done rfl

theorem orderly_parameterList (hn : 2 * n ≤ fuel + 2) :
    Orderly n 1 p (Compiling.parameterList fuel : CompilingLogged σ Unit) fun _ q => q.IsClear := by
  unfold Compiling.parameterList
  refine .expectNext_then fun _ => .next_then fun u => ?_
  have hclose (v : Token) : Orderly (n - 1 - 1) 0 (.after v)
      (Compiling.expect .closeParen v : CompilingLogged σ Unit) fun _ q => q.IsClear :=
    .internal (.expect .closeParen v) trivial fun _ => trivial
  dsimp only
  split
  next => exact hclose u
  next =>
    refine (orderly_parameters (n := n - 1 - 1) (by omega)).then_from fun v => ?_
    exact (hclose v).mono (Nat.sub_le _ _) (Nat.le_refl _)

end Declarations

section Names

variable {n : Nat} {t u : Token} {s mid : Compilation σ TokenLog}

theorem delivers_of_name (hs : s.tokens.stream.CanUnread t) (ht : t.lexeme.name?.isSome = true)
    (hu : u.lexeme.opensCall = false) (h : Compiling.next (s.begun t) = .ok u mid) :
    s.tokens.Delivers (.after t) mid.tokens (.after u) ∧
      s.tokens.stream.upcoming.length = mid.tokens.stream.upcoming.length + 1 := by
  obtain ⟨τ, hnext, rfl⟩ := Compiling.logged_next h
  have hother : opensCall (.ok (some u)) = false := hu
  exact ⟨TokenLog.delivers_name hs ht hother hnext,
    congrArg List.length (TokenStream.upcoming_of_next hnext).1⟩

/-- What opens a call can be taken back, and is then still to come. -/
theorem delivers_of_call (hs : s.tokens.stream.CanUnread t) (ht : t.lexeme.name?.isSome = true)
    (hu : u.lexeme.opensCall = true) (h : Compiling.next (s.begun t) = .ok u mid) :
    ∃ back, Compiling.unread mid = .ok () back ∧
      s.tokens.Delivers (.after t) back.tokens (.before u) ∧
        s.tokens.stream.upcoming.length = mid.tokens.stream.upcoming.length + 1 ∧
          back.tokens.stream.upcoming.length = mid.tokens.stream.upcoming.length + 1 := by
  obtain ⟨τ, hnext, rfl⟩ := Compiling.logged_next h
  obtain ⟨hup, hτ⟩ := TokenStream.upcoming_of_next hnext
  refine ⟨_, Compiling.logged_unread hτ, TokenLog.delivers_call hs ht hu hnext,
    congrArg List.length hup, ?_⟩
  simp [Compilation.answered, TokenStream.upcoming, hτ.2]

theorem delivers_of_name_error {e : CompileError} (hs : s.tokens.stream.CanUnread t)
    (ht : t.lexeme.name?.isSome = true) (h : Compiling.next (s.begun t) = .error e mid) :
    e ≠ .outOfFuel ∧ e ≠ .token .nothingToUnread ∧
      ∃ q, q.IsClear ∧ s.tokens.Delivers (.after t) mid.tokens q := by
  obtain ⟨e, τ, hnext, rfl, rfl⟩ | ⟨τ, hnext, rfl, rfl⟩ := Compiling.logged_next_error h
  · exact ⟨nofun, TokenStream.error_ne_nothingToUnread hnext, .clear, trivial,
      TokenLog.delivers_name_error ht hnext⟩
  · exact ⟨nofun, nofun, .clear, trivial, TokenLog.delivers_name hs ht rfl hnext⟩

/-- A name at the start of a term, whose next token is taken back when it opens a call. -/
theorem Orderly.beginTerm_name {n' : Nat} {f : Token → CompilingLogged σ Token}
    {y : CompilingLogged σ Token} (ht : t.lexeme.name?.isSome = true)
    (hback : ∀ u, u.lexeme.opensCall = true → f u = Compiling.unread >>= fun _ => y)
    (hy : ∀ u, Orderly n' 1 (.before u) y (JustRead id)) (hn : n ≤ n' ∨ n ≤ 1)
    (hf : ∀ u, u.lexeme.opensCall = false → Orderly (n - 1) 0 (.after u) (f u) (JustRead id)) :
    Orderly n 1 (.after t) (Compiling.beginTerm t >>= fun _ => Compiling.next >>= f)
      (JustRead id) where
  ok {s s' a} hs h := by
    rw [Compiling.bind_of_ok (Compiling.beginTerm_run s t)] at h
    obtain ⟨u, mid, h1, h2⟩ := Compiling.bind_ok h
    cases hu : u.lexeme.opensCall with
    | false =>
      obtain ⟨hname, hless⟩ := delivers_of_name hs ht hu h1
      obtain ⟨hlength, q, hq, hx⟩ := (hf u hu).ok hname.at_end h2
      exact ⟨by omega, q, hq, hname.trans hx⟩
    | true =>
      obtain ⟨back, hunread, hcall, hless, hsame⟩ := delivers_of_call hs ht hu h1
      rw [hback u hu, Compiling.bind_of_ok hunread] at h2
      obtain ⟨hlength, q, hq, hx⟩ := (hy u).ok hcall.at_end h2
      exact ⟨by omega, q, hq, hcall.trans hx⟩
  error {s s' e} hs h := by
    rw [Compiling.bind_of_ok (Compiling.beginTerm_run s t)] at h
    rcases Compiling.bind_error h with h1 | ⟨u, mid, h1, h2⟩
    · exact .inr (delivers_of_name_error hs ht h1)
    · cases hu : u.lexeme.opensCall with
      | false =>
        obtain ⟨hname, hless⟩ := delivers_of_name hs ht hu h1
        rcases (hf u hu).error hname.at_end h2 with ⟨he, hlength⟩ | ⟨he, he', q, hq, hx⟩
        · exact .inl ⟨he, by omega⟩
        · exact .inr ⟨he, he', q, hq, hname.trans hx⟩
      | true =>
        obtain ⟨back, hunread, hcall, hless, hsame⟩ := delivers_of_call hs ht hu h1
        rw [hback u hu, Compiling.bind_of_ok hunread] at h2
        rcases (hy u).error hcall.at_end h2 with ⟨he, hlength⟩ | ⟨he, he', q, hq, hx⟩
        · exact .inl ⟨he, by omega⟩
        · exact .inr ⟨he, he', q, hq, hcall.trans hx⟩

end Names

variable [CodeSink σ]

section Expressions

variable {n fuel : Nat} {p : Pause} {t : Token}

theorem orderly_callee {name : String} (ht : t.lexeme = .identifier name) :
    Orderly n 1 p (Compiling.callee t : CompilingLogged σ (String × Nat)) fun _ q => q.IsClear := by
  have hname : (Compiling.nameOf t : CompilingLogged σ String) = pure name := by
    unfold Compiling.nameOf
    rw [ht]
    rfl
  unfold Compiling.callee
  rw [hname, pure_bind]
  refine .next_then fun u => ?_
  split
  next =>
    refine .next_then fun v => .internal_then (.nameOf v) trivial fun member => ?_
    refine .expectNext_then fun w => .internal_then .names trivial fun d => ?_
    split
    next => exact .internal_then (.pushVariable _) trivial fun _ => .done trivial
    next => exact .done trivial
  next =>
    refine .internal_then (.pushObject _ name) trivial fun _ => ?_
    exact .internal_then .className trivial fun object => .done trivial
  next => exact .unexpected trivial

/-- What a term that starts with a name goes on with, which the token after the name tells. -/
def Compiling.nameTerm (fuel : Nat) (t after : Token) : CompilingLogged σ Token :=
  match after.lexeme with
  | .symbol .openBracket => do
    pushVariable (← variableOf t)
    let t ← next
    let t ← expression fuel t
    expect .closeBracket t
    put (.op .add)
    put (.pop .pointer 1)
    put (.push .that 0)
    next
  | .symbol .openParen | .symbol .dot => do
    unread
    call fuel t
  | _ => do
    pushVariable (← variableOf t)
    pure after

theorem term_eq_nameTerm {name : String} (ht : t.lexeme = .identifier name) :
    (Compiling.term (fuel + 1) t : CompilingLogged σ Token) =
      Compiling.beginTerm t >>= fun _ => Compiling.next >>= Compiling.nameTerm fuel t := by
  unfold Compiling.term
  rw [ht]
  rfl

/-- All that is read of expressions up to a depth of recursion is orderly. -/
structure OrderlyExpressions (σ : Type) [CodeSink σ] (fuel : Nat) : Prop where
  expression {n : Nat} {t : Token} : 2 * n ≤ fuel →
    Orderly n 1 (.after t) (Compiling.expression fuel t : CompilingLogged σ Token) (JustRead id)
  operators {n : Nat} {t : Token} : 2 * n ≤ fuel + 1 →
    GivesBackOrProceeds n t (Compiling.operators fuel t : CompilingLogged σ Token) id
  term {n : Nat} {t : Token} : 2 * n ≤ fuel + 1 →
    Orderly n 1 (.after t) (Compiling.term fuel t : CompilingLogged σ Token) (JustRead id)
  call {n : Nat} {p : Pause} {t : Token} {name : String} : 2 * n ≤ fuel + 2 → (fuel = 0 → n = 0) →
    t.lexeme = .identifier name →
      Orderly n 1 p (Compiling.call fuel t : CompilingLogged σ Token) (JustRead id)
  arguments {n : Nat} {p : Pause} : 2 * n ≤ fuel + 1 →
    Orderly n 1 p (Compiling.arguments fuel : CompilingLogged σ (Nat × Token)) (JustRead Prod.snd)
  moreArguments {n count : Nat} {t : Token} : 2 * n ≤ fuel + 1 →
    GivesBackOrProceeds n t (Compiling.moreArguments fuel count t : CompilingLogged σ (Nat × Token))
      Prod.snd

namespace OrderlyExpressions

variable (ih : OrderlyExpressions σ fuel)

include ih

theorem expression_succ (hn : 2 * n ≤ fuel + 1) :
    Orderly n 1 (.after t) (Compiling.expression (fuel + 1) t : CompilingLogged σ Token)
      (JustRead id) := by
  unfold Compiling.expression
  exact (ih.term hn).then_from fun u => .of_givesBackOrProceeds (ih.operators (by omega))

theorem operators_succ (hn : 2 * n ≤ fuel + 1 + 1) :
    GivesBackOrProceeds n t (Compiling.operators (fuel + 1) t : CompilingLogged σ Token) id := by
  unfold Compiling.operators
  split
  next => exact .inl ⟨t, rfl, rfl⟩
  next i _ =>
    refine .inr (.next_then fun u => ?_)
    refine (ih.term (n := n - 1) (by omega)).then_from fun v => .put_then trivial ?_
    exact .of_givesBackOrProceeds (ih.operators (by omega))

theorem unary_orderly {i : Instruction} (hn : 2 * n ≤ fuel + 2) :
    Orderly n 1 p (do
      let t ← Compiling.next
      let t ← Compiling.term fuel t
      Compiling.put i
      pure t : CompilingLogged σ Token) (JustRead id) := by
  refine .next_then fun u => (ih.term (n := n - 1) (by omega)).then_from fun v => ?_
  exact .put_then trivial (.done rfl)

theorem element_orderly {u : Token} (hn : 2 * n ≤ fuel + 2) :
    Orderly n 0 (.after u) (do
      Compiling.pushVariable (← Compiling.variableOf t)
      let t ← Compiling.next
      let t ← Compiling.expression fuel t
      Compiling.expect .closeBracket t
      Compiling.put (.op .add)
      Compiling.put (.pop .pointer 1)
      Compiling.put (.push .that 0)
      Compiling.next : CompilingLogged σ Token) (JustRead id) := by
  refine .internal_then (.variableOf t) trivial fun v => ?_
  refine .internal_then (.pushVariable v) trivial fun _ => .next_then fun u => ?_
  refine (ih.expression (n := n - 1) (by omega)).then_from fun w => .expect_then trivial ?_
  exact .put_then trivial (.put_then trivial (.put_then trivial .last))

/-- After a name, the next token tells what the name is the start of. -/
theorem name_orderly {name : String} (hn : 2 * n ≤ fuel + 2) (ht : t.lexeme = .identifier name) :
    Orderly n 1 (.after t) (Compiling.term (fuel + 1) t : CompilingLogged σ Token)
      (JustRead id) := by
  -- Without any depth left for the call, only the token that opens it may come.
  have hcall (u : Token) : Orderly (if fuel = 0 then 0 else n) 1 (.before u)
      (Compiling.call fuel t : CompilingLogged σ Token) (JustRead id) :=
    ih.call (by split <;> omega) (fun h => if_pos h) ht
  rw [term_eq_nameTerm ht]
  refine .beginTerm_name (by rw [ht]; rfl) (fun u hu => ?_) hcall ?_ fun u hu => ?_
  · unfold Compiling.nameTerm
    rcases Lexeme.opensCall_iff.mp hu with hu | hu <;> rw [hu]
  · split <;> omega
  · unfold Compiling.nameTerm
    split
    next => exact ih.element_orderly (by omega)
    next hx => simp [hx, Lexeme.opensCall] at hu
    next hx => simp [hx, Lexeme.opensCall] at hu
    next =>
      refine .internal_then (.variableOf t) trivial fun v => ?_
      exact .internal_then (.pushVariable v) trivial fun _ => .done rfl

theorem term_succ (hn : 2 * n ≤ fuel + 1 + 1) :
    Orderly n 1 (.after t) (Compiling.term (fuel + 1) t : CompilingLogged σ Token)
      (JustRead id) := by
  by_cases hname : ∃ name, t.lexeme = .identifier name
  · obtain ⟨name, ht⟩ := hname
    exact ih.name_orderly hn ht
  · have hnone : t.lexeme.name? = none := by
      cases hx : t.lexeme with
      | identifier name => exact absurd ⟨name, hx⟩ hname
      | _ => rfl
    unfold Compiling.term
    refine .beginTerm_then hnone ?_
    split
    next => exact .put_then trivial .next
    next => exact .internal_then (.putAll _) trivial fun _ => .next
    next => exact .put_then trivial (.put_then trivial .next)
    next => exact .put_then trivial .next
    next => exact .put_then trivial .next
    next => exact .internal_then (.pushThis t.line) trivial fun _ => .next
    next =>
      refine .next_then fun u => (ih.expression (n := n - 1) (by omega)).then_from fun v => ?_
      exact .expect_then trivial .last
    next => exact ih.unary_orderly hn
    next => exact ih.unary_orderly hn
    next name ht => exact absurd ⟨name, ht⟩ hname
    next => exact .unexpected trivial

theorem call_succ {name : String} (hn : 2 * n ≤ fuel + 1 + 2) (ht : t.lexeme = .identifier name) :
    Orderly n 1 p (Compiling.call (fuel + 1) t : CompilingLogged σ Token) (JustRead id) := by
  unfold Compiling.call
  refine (orderly_callee ht).bind fun c q _ => ?_
  refine (ih.arguments (by omega)).then_from fun a => .expect_then trivial ?_
  exact .put_then trivial .last

theorem arguments_succ (hn : 2 * n ≤ fuel + 1 + 1) :
    Orderly n 1 p (Compiling.arguments (fuel + 1) : CompilingLogged σ (Nat × Token))
      (JustRead Prod.snd) := by
  unfold Compiling.arguments
  refine .next_then fun u => ?_
  split
  next => exact .done rfl
  next =>
    refine (ih.expression (n := n - 1) (by omega)).then_from fun v => ?_
    exact .of_givesBackOrProceeds (ih.moreArguments (by omega))

theorem moreArguments_succ {count : Nat} (hn : 2 * n ≤ fuel + 1 + 1) :
    GivesBackOrProceeds n t
      (Compiling.moreArguments (fuel + 1) count t : CompilingLogged σ (Nat × Token)) Prod.snd := by
  unfold Compiling.moreArguments
  split
  next =>
    refine .inr (.next_then fun u => ?_)
    refine (ih.expression (n := n - 1) (by omega)).then_from fun v => ?_
    exact .of_givesBackOrProceeds (ih.moreArguments (by omega))
  next => exact .inl ⟨(count, t), rfl, rfl⟩

end OrderlyExpressions

theorem orderlyExpressions (fuel : Nat) : OrderlyExpressions σ fuel := by
  induction fuel with
  | zero =>
    refine ⟨fun hn => ?_, fun hn => .inr ?_, fun hn => ?_, fun _ hn _ => ?_, fun hn => ?_,
      fun hn => .inr ?_⟩
    case refine_4 => exact .shallow (hn rfl)
    all_goals exact .shallow (by omega)
  | succ fuel ih =>
    exact ⟨ih.expression_succ, ih.operators_succ, ih.term_succ, fun hn _ => ih.call_succ hn,
      ih.arguments_succ, ih.moreArguments_succ⟩

end Expressions

section Statements

variable {n fuel : Nat} {p : Pause} {t : Token}

theorem orderly_negatedCondition (hn : 2 * n ≤ fuel + 2) :
    Orderly n 1 p (Compiling.negatedCondition fuel : CompilingLogged σ Unit)
      fun _ q => q.IsClear := by
  unfold Compiling.negatedCondition
  refine .expectNext_then fun _ => .next_then fun u => ?_
  refine ((orderlyExpressions fuel).expression (n := n - 1 - 1) (by omega)).then_from fun v => ?_
  exact .expect_then trivial (.internal (.put _) trivial fun _ => trivial)

theorem orderly_letStatement (hn : 2 * n ≤ fuel + 2) :
    Orderly n 1 p (Compiling.letStatement fuel : CompilingLogged σ Token) (JustRead id) := by
  have hexpression := orderlyExpressions (σ := σ) fuel
  unfold Compiling.letStatement
  refine .next_then fun t => .internal_then (.variableOf t) trivial fun target => ?_
  refine .next_then fun u => ?_
  split
  next =>
    refine .internal_then (.pushVariable target) trivial fun _ => .next_then fun v => ?_
    refine (hexpression.expression (n := n - 1 - 1 - 1) (by omega)).then_from fun w => ?_
    refine .expect_then trivial (.put_then trivial (.expectNext_then fun _ => ?_))
    refine .next_then fun v => ?_
    refine (hexpression.expression (by omega)).then_from fun w => ?_
    refine .put_then trivial (.put_then trivial (.put_then trivial (.put_then trivial ?_)))
    exact .expect_then trivial .last
  next =>
    refine .next_then fun v => ?_
    refine (hexpression.expression (n := n - 1 - 1 - 1) (by omega)).then_from fun w => ?_
    exact .internal_then (.popVariable target) trivial fun _ => .expect_then trivial .last
  next => exact .unexpected trivial

theorem orderly_doStatement (hn : 2 * n ≤ fuel + 2) :
    Orderly n 1 p (Compiling.doStatement fuel : CompilingLogged σ Token) (JustRead id) := by
  unfold Compiling.doStatement
  refine .next_then fun t => .nameOf_then trivial fun name ht => ?_
  have hcall := (orderlyExpressions (σ := σ) fuel).call (n := n - 1) (p := .after t) (by omega)
    (by omega) ht
  exact hcall.then_from fun u => .expect_then trivial (.put_then trivial .last)

theorem orderly_returnStatement (hn : 2 * n ≤ fuel + 2) :
    Orderly n 1 (.after t) (Compiling.returnStatement fuel t : CompilingLogged σ Token)
      (JustRead id) := by
  unfold Compiling.returnStatement
  refine .internal_then .currentRoutine trivial fun r? => ?_
  cases r? with
  | none => exact .stop nofun nofun trivial
  | some r =>
    refine .next_then fun t => ?_
    split
    next =>
      split
      next => exact .put_then trivial (.put_then trivial .last)
      next => exact .internal_then .unexpected trivial fun _ => .put_then trivial .last
    next =>
      refine ((orderlyExpressions fuel).expression (n := n - 1) (by omega)).then_from fun u => ?_
      exact .expect_then trivial (.put_then trivial .last)

/-- The same for statements. -/
structure OrderlyStatements (σ : Type) [CodeSink σ] (fuel : Nat) : Prop where
  statements {n : Nat} {t : Token} : 2 * n ≤ fuel →
    GivesBackOrProceeds n t (Compiling.statements fuel t : CompilingLogged σ Token) id
  block {n : Nat} {p : Pause} : 2 * n ≤ fuel + 1 →
    Orderly n 1 p (Compiling.block fuel : CompilingLogged σ Token) (JustRead id)
  ifStatement {n : Nat} {p : Pause} : 2 * n ≤ fuel + 1 →
    Orderly n 1 p (Compiling.ifStatement fuel : CompilingLogged σ Token) (JustRead id)
  whileStatement {n : Nat} {p : Pause} : 2 * n ≤ fuel + 1 → p.IsClear →
    Orderly n 1 p (Compiling.whileStatement fuel : CompilingLogged σ Token) (JustRead id)

namespace OrderlyStatements

variable (ih : OrderlyStatements σ fuel)

include ih

/-- A statement and those after it. -/
theorem statement_then {x : CompilingLogged σ Token} (hn : 2 * n ≤ fuel + 1)
    (hx : Orderly n 1 p x (JustRead id)) :
    Orderly n 1 p (x >>= Compiling.statements fuel) (JustRead id) :=
  hx.then_from fun _ => .of_givesBackOrProceeds (ih.statements (by omega))

theorem statements_succ (hn : 2 * n ≤ fuel + 1) :
    GivesBackOrProceeds n t (Compiling.statements (fuel + 1) t : CompilingLogged σ Token) id := by
  unfold Compiling.statements
  split
  next => exact .inr (ih.statement_then hn (orderly_letStatement (by omega)))
  next => exact .inr (ih.statement_then hn (ih.ifStatement (by omega)))
  next => exact .inr (ih.statement_then hn (ih.whileStatement (by omega) trivial))
  next => exact .inr (ih.statement_then hn (orderly_doStatement (by omega)))
  next => exact .inr (ih.statement_then hn (orderly_returnStatement (by omega)))
  next => exact .inl ⟨t, rfl, rfl⟩

theorem block_succ (hn : 2 * n ≤ fuel + 1 + 1) :
    Orderly n 1 p (Compiling.block (fuel + 1) : CompilingLogged σ Token) (JustRead id) := by
  unfold Compiling.block
  refine .expectNext_then fun _ => .next_then fun u => ?_
  have hstatements := ih.statements (n := n - 1 - 1) (t := u) (by omega)
  refine (Orderly.of_givesBackOrProceeds hstatements).then_from fun v => ?_
  exact .internal_then (.expectBlockEnd v) trivial fun _ => .last

theorem ifStatement_succ (hn : 2 * n ≤ fuel + 1 + 1) :
    Orderly n 1 p (Compiling.ifStatement (fuel + 1) : CompilingLogged σ Token) (JustRead id) := by
  unfold Compiling.ifStatement
  refine (orderly_negatedCondition (by omega)).bind fun _ q hq => ?_
  refine .internal_then (.freshLabel _) hq fun otherwise => .put_then hq ?_
  refine (ih.block (n := n - 1) (by omega)).then_from fun u => ?_
  split
  next =>
    refine .internal_then (.freshLabel _) trivial fun finish => ?_
    refine .put_then trivial (.put_then trivial ?_)
    exact (ih.block (by omega)).then_from fun v => .put_then trivial (.done rfl)
  next => exact .put_then trivial (.done rfl)

theorem whileStatement_succ (hn : 2 * n ≤ fuel + 1 + 1) (hp : p.IsClear) :
    Orderly n 1 p (Compiling.whileStatement (fuel + 1) : CompilingLogged σ Token)
      (JustRead id) := by
  unfold Compiling.whileStatement
  refine .internal_then (.freshLabel _) hp fun top => ?_
  refine .internal_then (.freshLabel _) hp fun finish => .put_then hp ?_
  refine (orderly_negatedCondition (by omega)).bind fun _ q hq => .put_then hq ?_
  refine (ih.block (n := n - 1) (by omega)).then_from fun u => ?_
  exact .put_then trivial (.put_then trivial (.done rfl))

end OrderlyStatements

theorem orderlyStatements (fuel : Nat) : OrderlyStatements σ fuel := by
  induction fuel with
  | zero =>
    refine ⟨fun hn => .inr ?_, fun hn => ?_, fun hn => ?_, fun hn _ => ?_⟩
    all_goals exact .shallow (by omega)
  | succ fuel ih =>
    exact ⟨ih.statements_succ, ih.block_succ, ih.ifStatement_succ, ih.whileStatement_succ⟩

end Statements

section Classes

variable {n fuel : Nat} {p : Pause} {t : Token}

theorem orderly_routineBody {name : String} {kind : RoutineKind} (hn : 2 * n ≤ fuel + 2) :
    Orderly n 1 p (Compiling.routineBody name kind fuel : CompilingLogged σ Unit)
      fun _ q => q.IsClear := by
  unfold Compiling.routineBody
  refine .expectNext_then fun _ => .next_then fun t => ?_
  have hlocals : GivesBackOrProceeds (n - 1 - 1) t
      (Compiling.localVariables fuel t : CompilingLogged σ Token) id :=
    orderly_localVariables (by omega)
  refine (Orderly.of_givesBackOrProceeds hlocals).then_from fun u => ?_
  refine .internal_then .names trivial fun d => .internal_then .className trivial fun object => ?_
  refine .put_then trivial (.internal_then (.putAll _) trivial fun _ => ?_)
  have hstatements : GivesBackOrProceeds (n - 1 - 1 - 0) u
      (Compiling.statements fuel u : CompilingLogged σ Token) id :=
    (orderlyStatements fuel).statements (by omega)
  refine (Orderly.of_givesBackOrProceeds hstatements).then_from fun v => ?_
  exact .internal (.expectBlockEnd v) trivial fun _ => trivial

theorem orderly_routine {kind : RoutineKind} (hn : 2 * n ≤ fuel + 2) :
    Orderly n 1 p (Compiling.routine kind fuel : CompilingLogged σ Token) (JustRead id) := by
  unfold Compiling.routine
  refine .next_then fun t => .internal_then (.checkReturnType t) trivial fun _ => ?_
  refine .next_then fun u => .internal_then (.nameOf u) trivial fun name => ?_
  refine .internal_then .names trivial fun d => .internal_then (.setNames _) trivial fun _ => ?_
  refine .internal_then (.setRoutine _) trivial fun _ => ?_
  refine (orderly_parameterList (by omega)).bind fun _ q _ => ?_
  refine (orderly_routineBody (by omega)).bind fun _ q hq => ?_
  exact .internal_then (.setRoutine none) hq fun _ => .last

theorem orderly_routines (hn : 2 * n ≤ fuel + 1) :
    GivesBackOrProceeds n t (Compiling.routines fuel t : CompilingLogged σ Token) id := by
  induction fuel generalizing n t with
  | zero => exact .inr (.shallow (by omega))
  | succ fuel ih =>
    unfold Compiling.routines
    split
    next =>
      refine .inr ((orderly_routine (by omega)).then_from fun u => ?_)
      exact .of_givesBackOrProceeds (ih (by omega))
    next => exact .inl ⟨t, rfl, rfl⟩

theorem orderly_classDeclaration (hn : 2 * n ≤ fuel + 2) :
    Orderly n 1 (.after t) (Compiling.classDeclaration fuel t : CompilingLogged σ (Option Token))
      fun t? q => q = .behind (.ok t?) := by
  unfold Compiling.classDeclaration
  split
  next =>
    refine .next_then fun u => .internal_then (.nameOf u) trivial fun name => ?_
    refine .internal_then (.setClassName name) trivial fun _ => ?_
    refine .internal_then .names trivial fun d => .internal_then (.setNames _) trivial fun _ => ?_
    refine .expectNext_then fun _ => .next_then fun v => ?_
    have hvariables : GivesBackOrProceeds (n - 1 - 1 - 1) v
        (Compiling.classVariables fuel v : CompilingLogged σ Token) id :=
      orderly_classVariables (by omega)
    refine (Orderly.of_givesBackOrProceeds hvariables).then_from fun w => ?_
    have hroutines : GivesBackOrProceeds (n - 1 - 1 - 1 - 0) w
        (Compiling.routines fuel w : CompilingLogged σ Token) id :=
      orderly_routines (by omega)
    refine (Orderly.of_givesBackOrProceeds hroutines).then_from fun x => ?_
    split
    next => exact .next?
    next => exact .unexpected trivial
  next => exact .unexpected trivial

theorem orderly_wholeSource (hn : 2 * n ≤ fuel + 2) :
    Orderly n 1 p (Compiling.wholeSource fuel : CompilingLogged σ Unit) fun _ q => q.IsClear := by
  unfold Compiling.wholeSource
  refine .next_then fun t => (orderly_classDeclaration (by omega)).bind fun t? q hq => ?_
  subst hq
  cases t? with
  | none => exact .done trivial
  | some trailing => exact .unexpected trivial

end Classes

end JackVM
