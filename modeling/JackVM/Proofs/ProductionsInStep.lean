import JackVM.Proofs.Blame
import JackVM.Proofs.InStep

namespace JackVM

/-- Both parts read a token first, and are in step from there on. -/
def ReadsInStep {σ σ' α β : Type} [CodeSink σ] [CodeSink σ'] (δ : Drift) (Q : α → β → Prop)
    (n : Nat) (x : Compiling σ α) (x' : Compiling σ' β) : Prop :=
  ∃ f f', x = Compiling.next >>= f ∧ x' = Compiling.next >>= f' ∧
    ∀ k t u, n = k + 1 → SameToken δ t u → InStep δ Q k 0 (f t) (f' u)

namespace ReadsInStep

variable {σ σ' α β α' β' : Type} [CodeSink σ] [CodeSink σ'] {δ : Drift} {Q : α → β → Prop}
  {P : α' → β' → Prop} {n : Nat} {x : Compiling σ α} {x' : Compiling σ' β}

theorem inStep (h : ReadsInStep δ Q n x x') : InStep δ Q n 1 x x' := by
  obtain ⟨f, f', rfl, rfl, h⟩ := h
  exact .next_then h

theorem bind {f : α → Compiling σ α'} {f' : β → Compiling σ' β'} (hx : ReadsInStep δ Q n x x')
    (hf : ∀ k a b, k + 1 ≤ n → Q a b → InStep δ P k 0 (f a) (f' b)) :
    ReadsInStep δ P n (x >>= f) (x' >>= f') := by
  obtain ⟨g, g', rfl, rfl, hg⟩ := hx
  refine ⟨fun t => g t >>= f, fun u => g' u >>= f', bind_assoc _ _ _, bind_assoc _ _ _, ?_⟩
  intro k t u hk htu
  exact (hg k t u hk htu).bind fun l a b hl => hf l a b (by omega)

end ReadsInStep

section Lookahead

variable {σ α : Type} {s : Compilation σ} {t : Token} {f g : Token → Compiling σ α}

/-- A token that is taken back and read again leaves no trace. -/
theorem unread_next (h : s.tokens.CanUnread t) :
    (Compiling.unread >>= fun _ => Compiling.next >>= f) s = f t s := by
  obtain ⟨hlast, hunread⟩ := h
  have hback : Compiling.unread s =
      .ok () { s with tokens := ⟨s.tokens.cursor, none, some t⟩ } := by
    simp [Compiling.unread, TokenSource.unread, TokenStream.unread, hlast]
  have hnext : Compiling.next { s with tokens := ⟨s.tokens.cursor, none, some t⟩ } = .ok t s := by
    obtain ⟨⟨cursor, last, unreadToken⟩, d, labels, name, r?, sink⟩ := s
    subst hlast
    subst hunread
    rfl
  rw [Compiling.bind_of_ok hback, Compiling.bind_of_ok hnext]

/-- What follows a token matters only for states in which it was just read. -/
theorem next_congr (h : ∀ t s, s.tokens.CanUnread t → f t s = g t s) :
    (Compiling.next >>= f) = Compiling.next >>= g := by
  funext s
  cases hn : Compiling.next s with
  | ok t s' =>
    rw [Compiling.bind_of_ok hn, Compiling.bind_of_ok hn]
    obtain ⟨_ | u, mid, h1, h2⟩ := Compiling.bind_ok hn
    · cases h2
    · cases h2
      exact h t s' (TokenStream.upcoming_of_next (Follows.of_next? h1).1).2
  | error e s' => rw [Compiling.bind_of_error hn, Compiling.bind_of_error hn]

variable {σ' α' : Type} [CodeSink σ] [CodeSink σ'] {δ : Drift} {Q : α → α' → Prop} {n : Nat}
  {f' : Token → Compiling σ' α'} {y : Compiling σ α} {y' : Compiling σ' α'}

/-- The tokens that make a name before them the start of a call. -/
def Lexeme.opensCall (x : Lexeme) : Bool :=
  x == .symbol .openParen || x == .symbol .dot

theorem Lexeme.opensCall_iff {x : Lexeme} :
    x.opensCall = true ↔ x = .symbol .openParen ∨ x = .symbol .dot := by
  simp [opensCall]

/-- The tokens that open a call are taken back for a part that reads them again. -/
theorem InStep.lookahead (hy : ReadsInStep δ Q n y y')
    (hback : ∀ t, t.lexeme.opensCall = true → f t = Compiling.unread >>= fun _ => y)
    (hback' : ∀ t, t.lexeme.opensCall = true → f' t = Compiling.unread >>= fun _ => y')
    (hf : ∀ k t u, n = k + 1 → SameToken δ t u → t.lexeme.opensCall = false →
      InStep δ Q k 0 (f t) (f' u)) :
    InStep δ Q n 1 (Compiling.next >>= f) (Compiling.next >>= f') := by
  obtain ⟨g, g', rfl, rfl, hg⟩ := hy
  have hleft : (Compiling.next >>= f) =
      Compiling.next >>= fun t => if t.lexeme.opensCall then g t else f t := by
    refine next_congr fun t s hs => ?_
    split
    next ht => rw [hback t ht, unread_next hs]
    next => rfl
  have hright : (Compiling.next >>= f') =
      Compiling.next >>= fun t => if t.lexeme.opensCall then g' t else f' t := by
    refine next_congr fun t s hs => ?_
    split
    next ht => rw [hback' t ht, unread_next hs]
    next => rfl
  rw [hleft, hright]
  refine .next_then fun k t u hk h => ?_
  rw [← h.lexeme]
  split
  next => exact hg k t u hk h
  next ht => exact hf k t u hk h (by simpa using ht)

end Lookahead

/-- The same number, with the same token. -/
structure SameCount (δ : Drift) (p q : Nat × Token) : Prop where
  count : p.1 = q.1
  token : SameToken δ p.2 q.2

section Expressions

variable {σ σ' : Type} [CodeSink σ] [CodeSink σ'] {δ : Drift} {n m : Nat}
  {t u : Token}

theorem InStep.pushThis_then {α β : Type} {P : α → β → Prop} {f : Unit → Compiling σ α}
    {f' : Unit → Compiling σ' β} (h : SameToken δ t u) (hf : InStep δ P n m (f ()) (f' ())) :
    InStep δ P n m (Compiling.pushThis t.line >>= f) (Compiling.pushThis u.line >>= f') := by
  unfold Compiling.pushThis
  simp only [bind_assoc]
  refine .currentRoutine fun r? => ?_
  split
  · exact .put hf
  · exact .put hf
  · exact .stop (by simp [CompileError.mapLines, h.line])
  · exact .stop (by simp [CompileError.mapLines, h.line])

theorem InStep.pushObject_then {α β : Type} {P : α → β → Prop} {name : String}
    {f : Unit → Compiling σ α} {f' : Unit → Compiling σ' β} (h : SameToken δ t u)
    (hf : InStep δ P n m (f ()) (f' ())) :
    InStep δ P n m (Compiling.pushObject t.line name >>= f)
      (Compiling.pushObject u.line name >>= f') := by
  unfold Compiling.pushObject
  simp only [bind_assoc]
  refine .currentRoutine fun r? => ?_
  split
  · exact .put hf
  · exact .put hf
  · exact .stop (by simp [CompileError.mapLines, h.line])

theorem readsInStep_callee {name : String} (ht : t.lexeme = .identifier name)
    (h : SameToken δ t u) :
    ReadsInStep δ Eq n (Compiling.callee t : Compiling σ (String × Nat))
      (Compiling.callee u : Compiling σ' (String × Nat)) := by
  obtain ⟨x, a⟩ := t
  obtain ⟨y, b⟩ := u
  obtain rfl : x = y := h.lexeme
  obtain rfl : x = .identifier name := ht
  refine ⟨_, _, rfl, rfl, fun k v w hk hvw => ?_⟩
  rw [← hvw.lexeme]
  split
  · refine .next_then fun l v w hl hvw => .nameOf_then hvw fun member _ => ?_
    refine .expectNext_then fun l' hl' => .names fun names => ?_
    cases names.find? name with
    | some v => exact .put (.done rfl)
    | none => exact .done rfl
  · exact .pushObject_then h (.className fun object => .done rfl)
  · exact .unexpected hvw

/-- All that is read of expressions with enough depth of recursion, on the second side with more. -/
structure ExpressionsInStep (σ σ' : Type) [CodeSink σ] [CodeSink σ'] (δ : Drift)
    (fuel extra : Nat) : Prop where
  expression {n : Nat} {t u : Token} : 2 * n + 2 ≤ fuel → SameToken δ t u →
    InStep δ (SameToken δ) n 1 (Compiling.expression fuel t : Compiling σ Token)
      (Compiling.expression (extra + fuel) u : Compiling σ' Token)
  operators {n : Nat} {t u : Token} : 2 * n + 1 ≤ fuel → SameToken δ t u →
    InStep δ (SameToken δ) n 0 (Compiling.operators fuel t : Compiling σ Token)
      (Compiling.operators (extra + fuel) u : Compiling σ' Token)
  term {n : Nat} {t u : Token} : 2 * n + 1 ≤ fuel → SameToken δ t u →
    InStep δ (SameToken δ) n 1 (Compiling.term fuel t : Compiling σ Token)
      (Compiling.term (extra + fuel) u : Compiling σ' Token)
  call {n : Nat} {t u : Token} {name : String} : 2 * n ≤ fuel → 1 ≤ fuel →
    t.lexeme = .identifier name → SameToken δ t u →
    ReadsInStep δ (SameToken δ) n (Compiling.call fuel t : Compiling σ Token)
      (Compiling.call (extra + fuel) u : Compiling σ' Token)
  arguments {n : Nat} : 2 * n + 1 ≤ fuel →
    InStep δ (SameCount δ) n 1 (Compiling.arguments fuel : Compiling σ (Nat × Token))
      (Compiling.arguments (extra + fuel) : Compiling σ' (Nat × Token))
  moreArguments {n : Nat} {count : Nat} {t u : Token} : 2 * n + 1 ≤ fuel → SameToken δ t u →
    InStep δ (SameCount δ) n 0 (Compiling.moreArguments fuel count t : Compiling σ (Nat × Token))
      (Compiling.moreArguments (extra + fuel) count u : Compiling σ' (Nat × Token))

namespace ExpressionsInStep

variable {fuel extra : Nat} (ih : ExpressionsInStep σ σ' δ fuel extra)

include ih

theorem expression_succ (hn : 2 * n + 2 ≤ fuel + 1) (h : SameToken δ t u) :
    InStep δ (SameToken δ) n 1 (Compiling.expression (fuel + 1) t : Compiling σ Token)
      (Compiling.expression (extra + (fuel + 1)) u : Compiling σ' Token) := by
  rw [← Nat.add_assoc]
  unfold Compiling.expression
  exact .bind (ih.term (by omega) h) fun k t u hk h => ih.operators (by omega) h

theorem operators_succ (hn : 2 * n + 1 ≤ fuel + 1) (h : SameToken δ t u) :
    InStep δ (SameToken δ) n 0 (Compiling.operators (fuel + 1) t : Compiling σ Token)
      (Compiling.operators (extra + (fuel + 1)) u : Compiling σ' Token) := by
  rw [← Nat.add_assoc]
  unfold Compiling.operators
  rw [← h.lexeme]
  split
  next => exact .done h
  next i hi =>
    obtain ⟨op, -, rfl⟩ := operator_of_binaryInstruction? hi
    refine .next_then fun k t u hk h => .bind (ih.term (by omega) h) fun l t u hl h => ?_
    exact .put_then (Instruction.raise_of_isStraight (isStraight_binary op))
      (ih.operators (by omega) h)

theorem unary_inStep {i : Instruction} (hn : 2 * n ≤ fuel) (hi : i.raise δ.labels = i) :
    InStep δ (SameToken δ) n 1 (do
        let t ← Compiling.next
        let t ← Compiling.term fuel t
        Compiling.put i
        pure t : Compiling σ Token) (do
        let t ← Compiling.next
        let t ← Compiling.term (extra + fuel) t
        Compiling.put i
        pure t : Compiling σ' Token) := by
  refine .next_then fun k t u hk h => .bind (ih.term (by omega) h) fun l t u hl h => ?_
  exact .put_then hi (.done h)

theorem element_inStep (hn : 2 * n + 2 ≤ fuel) (h : SameToken δ t u) :
    InStep δ (SameToken δ) n 0 (do
        Compiling.pushVariable (← Compiling.variableOf t)
        let t ← Compiling.next
        let t ← Compiling.expression fuel t
        Compiling.expect .closeBracket t
        Compiling.put (.op .add)
        Compiling.put (.pop .pointer 1)
        Compiling.put (.push .that 0)
        Compiling.next : Compiling σ Token) (do
        Compiling.pushVariable (← Compiling.variableOf u)
        let t ← Compiling.next
        let t ← Compiling.expression (extra + fuel) t
        Compiling.expect .closeBracket t
        Compiling.put (.op .add)
        Compiling.put (.pop .pointer 1)
        Compiling.put (.push .that 0)
        Compiling.next : Compiling σ' Token) := by
  refine .variableOf_then h fun v => .put (.next_then fun k t u hk h => ?_)
  refine .bind (ih.expression (by omega) h) fun l t u hl h => ?_
  exact .expect_then h (.put (.put (.put .last)))

/-- After a name, the next token tells what the name is the start of. -/
theorem name_inStep {name : String} (hn : 2 * n ≤ fuel) (ht : t.lexeme = .identifier name)
    (h : SameToken δ t u) :
    InStep δ (SameToken δ) n 1 (Compiling.term (fuel + 1) t : Compiling σ Token)
      (Compiling.term (extra + fuel + 1) u : Compiling σ' Token) := by
  simp only [Compiling.term, Compiling.beginTerm_then]
  rw [← h.lexeme, ht]
  cases n with
  | zero => exact .next_then fun k _ _ hk => by cases hk
  | succ n =>
    refine .lookahead (ih.call hn (by omega) ht h) ?_ ?_ ?_
    · intro v hv
      rcases Lexeme.opensCall_iff.mp hv with hv | hv <;> rw [hv]
    · intro v hv
      rcases Lexeme.opensCall_iff.mp hv with hv | hv <;> rw [hv]
    · intro k v w hk hvw hv
      rw [← hvw.lexeme]
      split
      next => exact ih.element_inStep (by omega) h
      next hx => simp [hx, Lexeme.opensCall] at hv
      next hx => simp [hx, Lexeme.opensCall] at hv
      next => exact .variableOf_then h fun v => .put (.done hvw)

theorem term_succ (hn : 2 * n + 1 ≤ fuel + 1) (h : SameToken δ t u) :
    InStep δ (SameToken δ) n 1 (Compiling.term (fuel + 1) t : Compiling σ Token)
      (Compiling.term (extra + (fuel + 1)) u : Compiling σ' Token) := by
  rw [← Nat.add_assoc]
  by_cases hname : ∃ name, t.lexeme = .identifier name
  · obtain ⟨name, ht⟩ := hname
    exact ih.name_inStep (by omega) ht h
  · simp only [Compiling.term, Compiling.beginTerm_then]
    rw [← h.lexeme]
    split
    next => exact .put .next
    next => exact .putAll_then (straight_stringCode _) .next
    next => exact .put (.put .next)
    next => exact .put .next
    next => exact .put .next
    next => exact .pushThis_then h .next
    next =>
      refine .next_then fun k t u hk h => .bind (ih.expression (by omega) h) ?_
      exact fun l t u hl h => .expect_then h .last
    next => exact ih.unary_inStep (by omega) rfl
    next => exact ih.unary_inStep (by omega) rfl
    next name ht => exact absurd ⟨name, ht⟩ hname
    next => exact .unexpected h

theorem call_succ {name : String} (hn : 2 * n ≤ fuel + 1) (ht : t.lexeme = .identifier name)
    (h : SameToken δ t u) :
    ReadsInStep δ (SameToken δ) n (Compiling.call (fuel + 1) t : Compiling σ Token)
      (Compiling.call (extra + (fuel + 1)) u : Compiling σ' Token) := by
  rw [← Nat.add_assoc]
  unfold Compiling.call
  refine (readsInStep_callee ht h).bind ?_
  rintro k ⟨full, receivers⟩ _ hk rfl
  refine .bind (ih.arguments (by omega)) ?_
  rintro l ⟨count, t⟩ ⟨_, u⟩ hl ⟨rfl, h⟩
  exact .expect_then h (.put .last)

theorem arguments_succ (hn : 2 * n + 1 ≤ fuel + 1) :
    InStep δ (SameCount δ) n 1 (Compiling.arguments (fuel + 1) : Compiling σ (Nat × Token))
      (Compiling.arguments (extra + (fuel + 1)) : Compiling σ' (Nat × Token)) := by
  rw [← Nat.add_assoc]
  unfold Compiling.arguments
  refine .next_then fun k t u hk h => ?_
  rw [h.isSymbol]
  split
  · exact .done ⟨rfl, h⟩
  · exact .bind (ih.expression (by omega) h) fun l t u hl h =>
      ih.moreArguments (by omega) h

theorem moreArguments_succ {count : Nat} (hn : 2 * n + 1 ≤ fuel + 1) (h : SameToken δ t u) :
    InStep δ (SameCount δ) n 0
      (Compiling.moreArguments (fuel + 1) count t : Compiling σ (Nat × Token))
      (Compiling.moreArguments (extra + (fuel + 1)) count u : Compiling σ' (Nat × Token)) := by
  rw [← Nat.add_assoc]
  unfold Compiling.moreArguments
  rw [h.isSymbol]
  split
  · refine .next_then fun k t u hk h => .bind (ih.expression (by omega) h) ?_
    exact fun l t u hl h => ih.moreArguments (by omega) h
  · exact .done ⟨rfl, h⟩

end ExpressionsInStep

theorem expressionsInStep (fuel extra : Nat) :
    ExpressionsInStep σ σ' δ fuel extra := by
  induction fuel with
  | zero => constructor <;> omega
  | succ fuel ih =>
    exact ⟨ih.expression_succ, ih.operators_succ, ih.term_succ, fun hn _ => ih.call_succ hn,
      ih.arguments_succ, ih.moreArguments_succ⟩

end Expressions

section Statements

variable {σ σ' : Type} [CodeSink σ] [CodeSink σ'] {δ : Drift} {n fuel extra : Nat}
  {t u : Token}

theorem letStatement_inStep (hn : 2 * n ≤ fuel) :
    InStep δ (SameToken δ) n 1 (Compiling.letStatement fuel : Compiling σ Token)
      (Compiling.letStatement (extra + fuel) : Compiling σ' Token) := by
  have ih : ExpressionsInStep σ σ' δ fuel extra := expressionsInStep fuel extra
  unfold Compiling.letStatement
  refine .next_then fun k t u hk h => .variableOf_then h fun target => ?_
  refine .next_then fun l t u hl h => ?_
  rw [← h.lexeme]
  split
  next =>
    refine .put (.next_then fun i t u hi h => .bind (ih.expression (by omega) h) ?_)
    refine fun j t u hj h => .expect_then h (.put (.expectNext_then fun i' hi' => ?_))
    refine .next_then fun j' t u hj' h => .bind (ih.expression (by omega) h) ?_
    refine fun i t u hi h => .put (.put (.put (.put ?_)))
    exact .expect_then h .last
  next =>
    refine .next_then fun i t u hi h => .bind (ih.expression (by omega) h) ?_
    exact fun j t u hj h => .put (.expect_then h .last)
  next => exact .unexpected h

theorem doStatement_inStep (hn : 2 * n ≤ fuel) :
    InStep δ (SameToken δ) n 1 (Compiling.doStatement fuel : Compiling σ Token)
      (Compiling.doStatement (extra + fuel) : Compiling σ' Token) := by
  unfold Compiling.doStatement
  refine .next_then fun k t u hk h => .nameOf_then h fun name ht => ?_
  have ih : ExpressionsInStep σ σ' δ fuel extra := expressionsInStep fuel extra
  refine .bind (ih.call (by omega) (by omega) ht h).inStep fun l t u hl h => ?_
  exact .expect_then h (.put .last)

theorem returnStatement_inStep (hn : 2 * n ≤ fuel) (h : SameToken δ t u) :
    InStep δ (SameToken δ) n 1 (Compiling.returnStatement fuel t : Compiling σ Token)
      (Compiling.returnStatement (extra + fuel) u : Compiling σ' Token) := by
  unfold Compiling.returnStatement
  refine .currentRoutine fun r? => ?_
  cases r? with
  | none => exact .stop (by simp [CompileError.mapLines, h.line])
  | some r =>
  refine .next_then fun k t u hk h => ?_
  rw [h.isSymbol]
  split
  · split
    · exact .put (.put .last)
    · exact .unexpected h
  · refine .bind ((expressionsInStep fuel extra).expression (by omega) h) ?_
    exact fun l t u hl h => .expect_then h (.put .last)

theorem InStep.negatedCondition_then {α β : Type} {P : α → β → Prop} {f : Unit → Compiling σ α}
    {f' : Unit → Compiling σ' β} (hn : 2 * n ≤ fuel)
    (hf : ∀ k, k + 1 ≤ n → InStep δ P k 0 (f ()) (f' ())) :
    InStep δ P n 1 (Compiling.negatedCondition fuel >>= f)
      (Compiling.negatedCondition (extra + fuel) >>= f') := by
  unfold Compiling.negatedCondition
  simp only [bind_assoc]
  refine .expectNext_then fun k hk => .next_then fun l t u hl h => ?_
  refine .bind ((expressionsInStep fuel extra).expression (by omega) h) ?_
  exact fun i t u hi h => .expect_then h (.put (hf i (by omega)))

/-- The same for statements. -/
structure StatementsInStep (σ σ' : Type) [CodeSink σ] [CodeSink σ'] (δ : Drift)
    (fuel extra : Nat) : Prop where
  statements {n : Nat} {t u : Token} : 2 * n + 2 ≤ fuel → SameToken δ t u →
    InStep δ (SameToken δ) n 0 (Compiling.statements fuel t : Compiling σ Token)
      (Compiling.statements (extra + fuel) u : Compiling σ' Token)
  block {n : Nat} : 2 * n + 1 ≤ fuel →
    InStep δ (SameToken δ) n 1 (Compiling.block fuel : Compiling σ Token)
      (Compiling.block (extra + fuel) : Compiling σ' Token)
  ifStatement {n : Nat} : 2 * n + 1 ≤ fuel →
    InStep δ (SameToken δ) n 1 (Compiling.ifStatement fuel : Compiling σ Token)
      (Compiling.ifStatement (extra + fuel) : Compiling σ' Token)
  whileStatement {n : Nat} : 2 * n + 1 ≤ fuel →
    InStep δ (SameToken δ) n 1 (Compiling.whileStatement fuel : Compiling σ Token)
      (Compiling.whileStatement (extra + fuel) : Compiling σ' Token)

namespace StatementsInStep

variable (ih : StatementsInStep σ σ' δ fuel extra)

include ih

theorem statements_succ (hn : 2 * n + 2 ≤ fuel + 1) (h : SameToken δ t u) :
    InStep δ (SameToken δ) n 0 (Compiling.statements (fuel + 1) t : Compiling σ Token)
      (Compiling.statements (extra + (fuel + 1)) u : Compiling σ' Token) := by
  rw [← Nat.add_assoc]
  unfold Compiling.statements
  rw [← h.lexeme]
  split
  next => exact .bind (letStatement_inStep (by omega)) fun k t u hk h =>
    ih.statements (by omega) h
  next => exact .bind (ih.ifStatement (by omega)) fun k t u hk h =>
    ih.statements (by omega) h
  next => exact .bind (ih.whileStatement (by omega)) fun k t u hk h =>
    ih.statements (by omega) h
  next => exact .bind (doStatement_inStep (by omega)) fun k t u hk h =>
    ih.statements (by omega) h
  next => exact .bind (returnStatement_inStep (by omega) h) fun k t u hk h =>
    ih.statements (by omega) h
  next => exact .done h

theorem block_succ (hn : 2 * n + 1 ≤ fuel + 1) :
    InStep δ (SameToken δ) n 1 (Compiling.block (fuel + 1) : Compiling σ Token)
      (Compiling.block (extra + (fuel + 1)) : Compiling σ' Token) := by
  rw [← Nat.add_assoc]
  unfold Compiling.block
  refine .expectNext_then fun k hk => .next_then fun l t u hl h => ?_
  refine .bind (ih.statements (by omega) h) fun i t u hi h => ?_
  exact .expectBlockEnd_then h .last

theorem ifStatement_succ (hn : 2 * n + 1 ≤ fuel + 1) :
    InStep δ (SameToken δ) n 1 (Compiling.ifStatement (fuel + 1) : Compiling σ Token)
      (Compiling.ifStatement (extra + (fuel + 1)) : Compiling σ' Token) := by
  rw [← Nat.add_assoc]
  unfold Compiling.ifStatement
  refine .negatedCondition_then (by omega) fun k hk => .label fun otherwise => .put ?_
  refine .bind (ih.block (by omega)) fun l t u hl h => ?_
  rw [h.isKeyword]
  split
  · refine .label fun finish => .put (.put (.bind (ih.block (by omega)) ?_))
    exact fun i t u hi h => .put (.done h)
  · exact .put (.done h)

theorem whileStatement_succ (hn : 2 * n + 1 ≤ fuel + 1) :
    InStep δ (SameToken δ) n 1 (Compiling.whileStatement (fuel + 1) : Compiling σ Token)
      (Compiling.whileStatement (extra + (fuel + 1)) : Compiling σ' Token) := by
  rw [← Nat.add_assoc]
  unfold Compiling.whileStatement
  refine .label fun top => .label fun finish => .put ?_
  refine .negatedCondition_then (by omega) fun k hk => .put ?_
  refine .bind (ih.block (by omega)) fun l t u hl h => ?_
  exact .put (.put (.done h))

end StatementsInStep

theorem statementsInStep (fuel extra : Nat) :
    StatementsInStep σ σ' δ fuel extra := by
  induction fuel with
  | zero => constructor <;> omega
  | succ fuel ih =>
    exact ⟨ih.statements_succ, ih.block_succ, ih.ifStatement_succ, ih.whileStatement_succ⟩

end Statements

section Classes

variable {σ σ' : Type} [CodeSink σ] [CodeSink σ'] {δ : Drift} {n fuel extra : Nat} {t u : Token}

theorem nameList_inStep {typeName : String} {k : VariableKind} (hn : 2 * n + 1 ≤ fuel) :
    InStep δ (SameToken δ) n 1 (Compiling.nameList typeName k fuel : Compiling σ Token)
      (Compiling.nameList typeName k (extra + fuel) : Compiling σ' Token) := by
  induction fuel generalizing n with
  | zero => omega
  | succ fuel ih =>
    rw [← Nat.add_assoc]
    unfold Compiling.nameList
    refine .next_then fun k t u hk h => .declareName_then h (.next_then fun l t u hl h => ?_)
    rw [← h.lexeme]
    split
    · exact (ih (by omega)).mono (Nat.zero_le _)
    · exact .last
    · exact .unexpected h

theorem typedNames_inStep {k : VariableKind} (hn : 2 * n ≤ fuel) :
    InStep δ (SameToken δ) n 1 (Compiling.typedNames k fuel : Compiling σ Token)
      (Compiling.typedNames k (extra + fuel) : Compiling σ' Token) := by
  unfold Compiling.typedNames
  refine .next_then fun l t u hl h => .typeOf_then h fun typeName => ?_
  exact (nameList_inStep (by omega)).mono (Nat.zero_le _)

theorem classVariables_inStep (hn : 2 * n + 1 ≤ fuel) (h : SameToken δ t u) :
    InStep δ (SameToken δ) n 0 (Compiling.classVariables fuel t : Compiling σ Token)
      (Compiling.classVariables (extra + fuel) u : Compiling σ' Token) := by
  induction fuel generalizing n t u with
  | zero => omega
  | succ fuel ih =>
    rw [← Nat.add_assoc]
    unfold Compiling.classVariables
    rw [← h.lexeme]
    split
    · exact .bind (typedNames_inStep (by omega)) fun k t u hk h => ih (by omega) h
    · exact .done h

theorem localVariables_inStep (hn : 2 * n + 1 ≤ fuel) (h : SameToken δ t u) :
    InStep δ (SameToken δ) n 0 (Compiling.localVariables fuel t : Compiling σ Token)
      (Compiling.localVariables (extra + fuel) u : Compiling σ' Token) := by
  induction fuel generalizing n t u with
  | zero => omega
  | succ fuel ih =>
    rw [← Nat.add_assoc]
    unfold Compiling.localVariables
    rw [h.isKeyword]
    split
    · exact .bind (typedNames_inStep (by omega)) fun k t u hk h => ih (by omega) h
    · exact .done h

theorem parameters_inStep (hn : 2 * n + 1 ≤ fuel) (h : SameToken δ t u) :
    InStep δ (SameToken δ) n 1 (Compiling.parameters fuel t : Compiling σ Token)
      (Compiling.parameters (extra + fuel) u : Compiling σ' Token) := by
  induction fuel generalizing n t u with
  | zero => omega
  | succ fuel ih =>
    rw [← Nat.add_assoc]
    unfold Compiling.parameters
    refine .typeOf_then h fun typeName => .next_then fun k t u hk h => ?_
    refine .declareName_then h (.next_then fun l t u hl h => ?_)
    rw [h.isSymbol]
    split
    · exact .next_then fun i t u hi h => (ih (by omega) h).mono (Nat.zero_le _)
    · exact .done h

theorem InStep.parameterList_then {α β : Type} {P : α → β → Prop} {f : Unit → Compiling σ α}
    {f' : Unit → Compiling σ' β} (hn : 2 * n ≤ fuel)
    (hf : ∀ k, k + 1 ≤ n → InStep δ P k 0 (f ()) (f' ())) :
    InStep δ P n 1 (Compiling.parameterList fuel >>= f)
      (Compiling.parameterList (extra + fuel) >>= f') := by
  unfold Compiling.parameterList
  simp only [bind_assoc]
  refine .expectNext_then fun k hk => .next_then fun l t u hl h => ?_
  rw [h.isSymbol]
  split
  · exact .expect_then h (hf l (by omega))
  · rw [bind_assoc, bind_assoc]
    refine .bind (parameters_inStep (by omega) h) fun i t u hi h => ?_
    exact .expect_then h (hf i (by omega))

theorem InStep.routineBody_then {α β : Type} {P : α → β → Prop} {name : String}
    {kind : RoutineKind} {f : Unit → Compiling σ α} {f' : Unit → Compiling σ' β} (hn : 2 * n ≤ fuel)
    (hf : ∀ k, k + 1 ≤ n → InStep δ P k 0 (f ()) (f' ())) :
    InStep δ P n 1 (Compiling.routineBody name kind fuel >>= f)
      (Compiling.routineBody name kind (extra + fuel) >>= f') := by
  unfold Compiling.routineBody
  simp only [bind_assoc]
  refine .expectNext_then fun k hk => .next_then fun l t u hl h => ?_
  refine .bind (localVariables_inStep (by omega) h) fun i t u hi h => .names fun d => ?_
  refine .className fun object => .put (.putAll_then (straight_prologue _ _) ?_)
  refine .bind ((statementsInStep fuel extra).statements (by omega) h) ?_
  exact fun j t u hj h => .expectBlockEnd_then h (hf j (by omega))

theorem routine_inStep {kind : RoutineKind} (hn : 2 * n ≤ fuel) :
    InStep δ (SameToken δ) n 1 (Compiling.routine kind fuel : Compiling σ Token)
      (Compiling.routine kind (extra + fuel) : Compiling σ' Token) := by
  unfold Compiling.routine
  refine .next_then fun k t u hk h => .checkReturnType_then h (.next_then fun l v w hl hvw => ?_)
  refine .nameOf_then hvw fun name _ => .names fun d => .setNames ?_
  rw [h.isKeyword]
  refine .setRoutine (.mono (.parameterList_then (by omega) fun i hi => ?_) (Nat.zero_le 1))
  refine .mono (.routineBody_then (by omega) fun j hj => ?_) (Nat.zero_le 1)
  exact .setRoutine .last

theorem routines_inStep (hn : 2 * n + 1 ≤ fuel) (h : SameToken δ t u) :
    InStep δ (SameToken δ) n 0 (Compiling.routines fuel t : Compiling σ Token)
      (Compiling.routines (extra + fuel) u : Compiling σ' Token) := by
  induction fuel generalizing n t u with
  | zero => omega
  | succ fuel ih =>
    rw [← Nat.add_assoc]
    unfold Compiling.routines
    rw [← h.lexeme]
    split
    · exact .bind (routine_inStep (by omega)) fun k t u hk h => ih (by omega) h
    · exact .done h

/-- A class from its first token up to its closing brace. -/
def Compiling.classText {σ : Type} [CodeSink σ] (fuel : Nat) (t : Token) : Compiling σ Unit := do
  if t.isKeyword .kwClass then
    setClassName (← nameOf (← next))
    setNames (← names).enterClass
    expectNext .openBrace
    let t ← next
    let t ← classVariables fuel t
    let t ← routines fuel t
    if t.isSymbol .closeBrace then pure ()
    else throw (.unexpected t (.tokens afterMember))
  else throw (.unexpected t (.tokens [.keyword .kwClass]))

/-- The end of the source, where no token may come. -/
def Compiling.sourceEnd {σ : Type} : Compiling σ Unit := do
  match ← next? with
  | some trailing => throw (.unexpected trailing .endOfSource)
  | none => pure ()

theorem wholeSource_eq (fuel : Nat) : (Compiling.wholeSource fuel : Compiling σ Unit) =
    (Compiling.next >>= Compiling.classText fuel) >>= fun _ => Compiling.sourceEnd := by
  unfold Compiling.wholeSource Compiling.classDeclaration Compiling.classText
  rw [bind_assoc]
  refine bind_congr fun t => ?_
  split
  next =>
    simp only [bind_assoc]
    refine bind_congr fun v => bind_congr fun name => bind_congr fun _ => bind_congr fun d => ?_
    refine bind_congr fun _ => bind_congr fun _ => bind_congr fun v => ?_
    refine bind_congr fun t => bind_congr fun u => ?_
    split
    · rfl
    · rfl
  next => rfl

theorem classText_inStep (hn : 2 * n + 1 ≤ fuel) (h : SameToken δ t u) :
    InStep δ (fun _ _ => True) n 0 (Compiling.classText fuel t : Compiling σ Unit)
      (Compiling.classText (extra + fuel) u : Compiling σ' Unit) := by
  unfold Compiling.classText
  rw [h.isKeyword]
  split
  next =>
    refine .next_then fun k t u hk h => .nameOf_then h fun name _ => .setClassName ?_
    refine .names fun d => .setNames (.expectNext_then fun l hl => .next_then fun i t u hi h => ?_)
    refine .bind (classVariables_inStep (by omega) h) fun j t u hj h => ?_
    refine .bind (routines_inStep (by omega) h) fun k t u hk h => ?_
    rw [h.isSymbol]
    split
    · exact .done trivial
    · exact .unexpected h
  next => exact .unexpected h

end Classes

end JackVM
