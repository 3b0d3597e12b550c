import JackVM.Proofs.SourceEvents

namespace JackVM

/-- Reading a source never finds that nothing can be taken back. -/
theorem Cursor.error_ne_nothingToUnread {c after : Cursor} {e : TokenError}
    (h : c.read = .error e after) : e ≠ .nothingToUnread := by
  have hdeliver {found : Except TokenError Lexeme} {line : Nat} {c : Cursor}
      (hfound : found ≠ .error .nothingToUnread) (h : deliver found line c = .error e after) :
      e ≠ .nothingToUnread := by
    cases found with
    | ok => cases h
    | error =>
      cases h
      exact fun he => hfound (congrArg Except.error he)
  have hword {word : String} {line : Nat} : readWord word line ≠ .error .nothingToUnread := by
    unfold readWord
    repeat' split
    all_goals exact nofun
  have hstring {text : List Char} {line : Nat} :
      stringConstant text line ≠ .error .nothingToUnread := by
    unfold stringConstant
    split <;> exact nofun
  unfold read at h
  split at h
  next => cases h; exact nofun
  next => cases h
  next =>
    unfold readToken at h
    split at h
    next => cases h
    next =>
      split at h
      next =>
        split at h
        next => exact hdeliver hstring h
        next => cases h; exact nofun
      next => exact hdeliver hword h

theorem TokenStream.error_ne_nothingToUnread {s after : TokenStream} {e : TokenError}
    (h : s.next = .error e after) : CompileError.token e ≠ .token .nothingToUnread := by
  obtain ⟨-, c, hread, -⟩ := next_error_cases h
  exact fun he => Cursor.error_ne_nothingToUnread hread (CompileError.token.inj he)

/-- A part of compiling that has nothing to do with the source, nor with the depth of recursion. -/
structure Internal {σ α : Type} (x : CompilingLogged σ α) : Prop where
  ok {s s' : Compilation σ TokenLog} {a : α} : x s = .ok a s' → s'.tokens = s.tokens
  error {s s' : Compilation σ TokenLog} {e : CompileError} : x s = .error e s' →
    s'.tokens = s.tokens ∧ e ≠ .outOfFuel ∧ e ≠ .token .nothingToUnread

namespace Internal

variable {σ α β : Type} {x : CompilingLogged σ α} {f : α → CompilingLogged σ β} {t : Token}

theorem pure (a : α) : Internal (Pure.pure a : CompilingLogged σ α) where
  ok h := by
    cases h
    rfl
  error := nofun

theorem throw {e : CompileError} (he : e ≠ .outOfFuel) (he' : e ≠ .token .nothingToUnread) :
    Internal (MonadExcept.throw e : CompilingLogged σ α) where
  ok := nofun
  error h := by
    cases h
    exact ⟨rfl, he, he'⟩

theorem bind (hx : Internal x) (hf : ∀ a, Internal (f a)) : Internal (x >>= f) where
  ok h := by
    obtain ⟨a, mid, h1, h2⟩ := Compiling.bind_ok h
    exact ((hf a).ok h2).trans (hx.ok h1)
  error h := by
    rcases Compiling.bind_error h with h1 | ⟨a, mid, h1, h2⟩
    · exact hx.error h1
    · obtain ⟨htokens, he⟩ := (hf a).error h2
      exact ⟨htokens.trans (hx.ok h1), he⟩

theorem names : Internal (Compiling.names : CompilingLogged σ Declarations) where
  ok h := by
    cases h
    rfl
  error := nofun

theorem setNames (d : Declarations) : Internal (Compiling.setNames d : CompilingLogged σ Unit) where
  ok h := by
    cases h
    rfl
  error := nofun

theorem className : Internal (Compiling.className : CompilingLogged σ String) where
  ok h := by
    cases h
    rfl
  error := nofun

theorem setClassName (name : String) :
    Internal (Compiling.setClassName name : CompilingLogged σ Unit) where
  ok h := by
    cases h
    rfl
  error := nofun

theorem currentRoutine :
    Internal (Compiling.currentRoutine : CompilingLogged σ (Option Routine)) where
  ok h := by
    cases h
    rfl
  error := nofun

theorem setRoutine (r? : Option Routine) :
    Internal (Compiling.setRoutine r? : CompilingLogged σ Unit) where
  ok h := by
    cases h
    rfl
  error := nofun

theorem freshLabel (purpose : String) :
    Internal (Compiling.freshLabel purpose : CompilingLogged σ Label) where
  ok h := by
    cases h
    rfl
  error := nofun

theorem unexpected {expected : Expected} :
    Internal (MonadExcept.throw (.unexpected t expected) : CompilingLogged σ α) :=
  throw nofun nofun

theorem expect (c : Symbol) (t : Token) :
    Internal (Compiling.expect c t : CompilingLogged σ Unit) := by
  unfold Compiling.expect
  split
  · exact pure ()
  · exact unexpected

theorem expectBlockEnd (t : Token) :
    Internal (Compiling.expectBlockEnd t : CompilingLogged σ Unit) := by
  unfold Compiling.expectBlockEnd
  split
  · exact pure ()
  · exact unexpected

theorem nameOf (t : Token) : Internal (Compiling.nameOf t : CompilingLogged σ String) := by
  unfold Compiling.nameOf
  split
  · exact pure _
  · exact unexpected

theorem typeOf (t : Token) : Internal (Compiling.typeOf t : CompilingLogged σ String) := by
  unfold Compiling.typeOf
  split
  case h_5 => exact unexpected
  all_goals exact pure _

theorem checkReturnType (t : Token) :
    Internal (Compiling.checkReturnType t : CompilingLogged σ Unit) := by
  unfold Compiling.checkReturnType
  split
  case h_6 => exact unexpected
  all_goals exact pure _

theorem variableOf (t : Token) :
    Internal (Compiling.variableOf t : CompilingLogged σ Variable) := by
  unfold Compiling.variableOf
  refine (nameOf t).bind fun name => names.bind fun d => ?_
  split
  · exact pure _
  · exact throw nofun nofun

theorem declareName (t : Token) (typeName : String) (k : VariableKind) :
    Internal (Compiling.declareName t typeName k : CompilingLogged σ Unit) := by
  unfold Compiling.declareName
  refine (nameOf t).bind fun name => names.bind fun d => ?_
  split
  · exact setNames _
  · exact throw nofun nofun

variable [CodeSink σ]

theorem put (i : Instruction) : Internal (Compiling.put i : CompilingLogged σ Unit) where
  ok h := by
    unfold Compiling.put at h
    split at h <;> cases h
    rfl
  error h := by
    unfold Compiling.put at h
    split at h <;> cases h
    exact ⟨rfl, nofun, nofun⟩

theorem putAll (code : List Instruction) :
    Internal (Compiling.putAll code : CompilingLogged σ Unit) := by
  induction code with
  | nil => exact pure ()
  | cons i code ih => exact (put i).bind fun _ => ih

theorem pushVariable (v : Variable) :
    Internal (Compiling.pushVariable v : CompilingLogged σ Unit) :=
  put _

theorem popVariable (v : Variable) : Internal (Compiling.popVariable v : CompilingLogged σ Unit) :=
  put _

theorem pushThis (line : Nat) :
    Internal (Compiling.pushThis line : CompilingLogged σ Unit) := by
  unfold Compiling.pushThis
  refine currentRoutine.bind fun r? => ?_
  split
  · exact put _
  · exact put _
  · exact throw nofun nofun
  · exact throw nofun nofun

theorem pushObject (line : Nat) (name : String) :
    Internal (Compiling.pushObject line name : CompilingLogged σ Unit) := by
  unfold Compiling.pushObject
  refine currentRoutine.bind fun r? => ?_
  split
  · exact put _
  · exact put _
  · exact throw nofun nofun

end Internal

section Source

variable {σ : Type} {s s' : Compilation σ TokenLog}

/-- The state after the stream was called, with the answer in the log. -/
def Compilation.answered (s : Compilation σ TokenLog) (τ : TokenStream) (a : StreamAnswer) :
    Compilation σ TokenLog :=
  { s with tokens := ⟨τ, s.tokens.log ++ [.answer a]⟩ }

/-- The state after a term was told to start with a token. -/
def Compilation.begun (s : Compilation σ TokenLog) (t : Token) : Compilation σ TokenLog :=
  { s with tokens := ⟨s.tokens.stream, s.tokens.log ++ [.term t]⟩ }

theorem Compiling.beginTerm_run (s : Compilation σ TokenLog) (t : Token) :
    Compiling.beginTerm t s = .ok () (s.begun t) :=
  rfl

theorem Compiling.logged_next? {t? : Option Token} (h : Compiling.next? s = .ok t? s') :
    ∃ τ, s.tokens.stream.next = .ok t? τ ∧ s' = s.answered τ (.read (.ok t?)) := by
  cases hnext : s.tokens.stream.next with
  | ok u? τ =>
    simp only [next?, TokenSource.next, hnext, EStateM.Result.ok.injEq] at h
    obtain ⟨rfl, rfl⟩ := h
    exact ⟨τ, rfl, rfl⟩
  | error e τ => simp [next?, TokenSource.next, hnext] at h

theorem Compiling.logged_next?_error {e : CompileError} (h : Compiling.next? s = .error e s') :
    ∃ e' τ, s.tokens.stream.next = .error e' τ ∧ e = .token e' ∧
      s' = s.answered τ (.read (.error e')) := by
  cases hnext : s.tokens.stream.next with
  | ok u? τ => simp [next?, TokenSource.next, hnext] at h
  | error e' τ =>
    simp only [next?, TokenSource.next, hnext, EStateM.Result.error.injEq] at h
    obtain ⟨rfl, rfl⟩ := h
    exact ⟨e', τ, rfl, rfl, rfl⟩

theorem Compiling.logged_next {t : Token} (h : Compiling.next s = .ok t s') :
    ∃ τ, s.tokens.stream.next = .ok (some t) τ ∧ s' = s.answered τ (.read (.ok (some t))) := by
  obtain ⟨t?, mid, h1, h2⟩ := Compiling.bind_ok h
  cases t? with
  | none => cases h2
  | some u =>
    cases h2
    exact logged_next? h1

/-- Without a token, there was an error or the end of the source. -/
theorem Compiling.logged_next_error {e : CompileError} (h : Compiling.next s = .error e s') :
    (∃ e' τ, s.tokens.stream.next = .error e' τ ∧ e = .token e' ∧
        s' = s.answered τ (.read (.error e'))) ∨
      ∃ τ, s.tokens.stream.next = .ok none τ ∧ e = .unexpectedEnd ∧
        s' = s.answered τ (.read (.ok none)) := by
  rcases Compiling.bind_error h with h1 | ⟨t?, mid, h1, h2⟩
  · exact .inl (logged_next?_error h1)
  · obtain ⟨τ, hnext, rfl⟩ := logged_next? h1
    cases t? with
    | none =>
      cases h2
      exact .inr ⟨τ, hnext, rfl, rfl⟩
    | some t => cases h2

theorem Compiling.logged_unread {t : Token} (h : s.tokens.stream.CanUnread t) :
    Compiling.unread s =
      .ok () (s.answered ⟨s.tokens.stream.cursor, none, some t⟩ (.unread (.ok ()))) := by
  simp only [Compiling.unread, TokenSource.unread, TokenStream.unread, h.1]
  rfl

end Source

variable {σ α β : Type}

/-- From a pause on, a part of compiling keeps order at its source, uses up at least a number of
tokens before there is a result, and goes deep enough when fewer than another number may come. -/
structure Orderly (n m : Nat) (p : Pause) (x : CompilingLogged σ α) (Q : α → Pause → Prop) :
    Prop where
  ok {s s' : Compilation σ TokenLog} {a : α} : p.At s.tokens.stream → x s = .ok a s' →
    s'.tokens.stream.upcoming.length + m ≤ s.tokens.stream.upcoming.length ∧
      ∃ q, Q a q ∧ s.tokens.Delivers p s'.tokens q
  error {s s' : Compilation σ TokenLog} {e : CompileError} : p.At s.tokens.stream →
    x s = .error e s' →
      (e = .outOfFuel ∧ n ≤ s.tokens.stream.upcoming.length) ∨
        (e ≠ .outOfFuel ∧ e ≠ .token .nothingToUnread ∧
          ∃ q, q.IsClear ∧ s.tokens.Delivers p s'.tokens q)

namespace Orderly

variable {n n' m m' j : Nat} {p : Pause} {x : CompilingLogged σ α} {f : α → CompilingLogged σ β}
  {Q : α → Pause → Prop} {R : β → Pause → Prop} {g : Unit → CompilingLogged σ β}

theorem mono (hx : Orderly n m p x Q) (hn : n' ≤ n) (hm : m' ≤ m) : Orderly n' m' p x Q where
  ok hs h := by
    obtain ⟨hlength, hq⟩ := hx.ok hs h
    exact ⟨by omega, hq⟩
  error hs h := by
    rcases hx.error hs h with ⟨he, hlength⟩ | hstop
    · exact .inl ⟨he, by omega⟩
    · exact .inr hstop

/-- What is used in all is what the first part uses and what is left of it for the second. -/
theorem bind (hx : Orderly n j p x Q)
    (hf : ∀ a q, Q a q → Orderly (n - j) (m - j) q (f a) R) : Orderly n m p (x >>= f) R where
  ok hs h := by
    obtain ⟨a, mid, h1, h2⟩ := Compiling.bind_ok h
    obtain ⟨hlength, q, hq, hx⟩ := hx.ok hs h1
    obtain ⟨hlength', q', hq', hf⟩ := (hf a q hq).ok hx.at_end h2
    exact ⟨by omega, q', hq', hx.trans hf⟩
  error hs h := by
    rcases Compiling.bind_error h with h1 | ⟨a, mid, h1, h2⟩
    · exact hx.error hs h1
    · obtain ⟨hlength, q, hq, hx⟩ := hx.ok hs h1
      rcases (hf a q hq).error hx.at_end h2 with ⟨he, hlength'⟩ | ⟨he, he', q', hq', hf⟩
      · exact .inl ⟨he, by omega⟩
      · exact .inr ⟨he, he', q', hq', hx.trans hf⟩

theorem internal (hx : Internal x) (hp : p.IsClear) (hQ : ∀ a, Q a p) : Orderly n 0 p x Q where
  ok hs h := by
    rw [hx.ok h]
    exact ⟨Nat.le_refl _, p, hQ _, .refl hs⟩
  error hs h := by
    obtain ⟨htokens, he, he'⟩ := hx.error h
    rw [htokens]
    exact .inr ⟨he, he', p, hp, .refl hs⟩

theorem done {a : α} (h : Q a p) : Orderly n 0 p (pure a : CompilingLogged σ α) Q where
  ok hs h' := by
    cases h'
    exact ⟨Nat.le_refl _, p, h, .refl hs⟩
  error := nofun

theorem stop {e : CompileError} (he : e ≠ .outOfFuel) (he' : e ≠ .token .nothingToUnread)
    (hp : p.IsClear) : Orderly n m p (throw e : CompilingLogged σ α) Q where
  ok := nofun
  error hs h := by
    cases h
    exact .inr ⟨he, he', p, hp, .refl hs⟩

theorem unexpected {t : Token} {expected : Expected} (hp : p.IsClear) :
    Orderly n m p (throw (.unexpected t expected) : CompilingLogged σ α) Q :=
  stop nofun nofun hp

/-- Without depth of recursion nothing is promised. -/
theorem shallow (hn : n = 0) : Orderly n m p (throw .outOfFuel : CompilingLogged σ α) Q where
  ok := nofun
  error _ h := by
    cases h
    exact .inl ⟨rfl, by omega⟩

theorem internal_then (hx : Internal x) (hp : p.IsClear) (hf : ∀ a, Orderly n m p (f a) R) :
    Orderly n m p (x >>= f) R :=
  bind (Q := fun _ q => q = p) (internal hx hp fun _ => rfl) fun a _ hq => hq ▸ hf a

theorem expect_then {c : Symbol} {t : Token} (hp : p.IsClear) (hg : Orderly n m p (g ()) R) :
    Orderly n m p (Compiling.expect c t >>= g) R :=
  internal_then (.expect c t) hp fun _ => hg

theorem nameOf_then {t : Token} {f : String → CompilingLogged σ β} (hp : p.IsClear)
    (hf : ∀ name, t.lexeme = .identifier name → Orderly n m p (f name) R) :
    Orderly n m p (Compiling.nameOf t >>= f) R := by
  obtain ⟨x, a⟩ := t
  cases x with
  | identifier name => exact hf name rfl
  | _ => exact unexpected hp

theorem next? : Orderly n 0 p (Compiling.next? : CompilingLogged σ (Option Token))
    fun t? q => q = .behind (.ok t?) where
  ok {s s' t?} hs h := by
    obtain ⟨τ, hnext, rfl⟩ := Compiling.logged_next? h
    refine ⟨?_, _, rfl, TokenLog.delivers_next hs hnext⟩
    cases t? with
    | none =>
      have hend : (s.answered τ (.read (.ok none))).tokens.stream.upcoming = [] :=
        (TokenStream.after_end hnext).2
      rw [hend]
      exact Nat.zero_le _
    | some t =>
      rw [(TokenStream.upcoming_of_next hnext).1]
      exact Nat.le_succ _
  error {s s' e} hs h := by
    obtain ⟨e, τ, hnext, rfl, rfl⟩ := Compiling.logged_next?_error h
    exact .inr ⟨nofun, TokenStream.error_ne_nothingToUnread hnext, .clear, trivial,
      TokenLog.delivers_next_error hs hnext⟩

/-- With a token, there is one less to come. -/
theorem next :
    Orderly n 1 p (Compiling.next : CompilingLogged σ Token) fun t q => q = .after t := by
  have hx : Orderly n 0 p (Compiling.next : CompilingLogged σ Token) fun t q => q = .after t := by
    refine next?.bind fun t? _ hq => ?_
    subst hq
    cases t? with
    | none => exact stop nofun nofun trivial
    | some t => exact done rfl
  refine ⟨fun {s s' t} hs h => ⟨?_, (hx.ok hs h).2⟩, hx.error⟩
  obtain ⟨τ, hnext, rfl⟩ := Compiling.logged_next h
  rw [(TokenStream.upcoming_of_next hnext).1]
  exact Nat.le_refl _

theorem next_then {f : Token → CompilingLogged σ β}
    (hf : ∀ t, Orderly (n - 1) (m - 1) (.after t) (f t) R) :
    Orderly n m p (Compiling.next >>= f) R :=
  next.bind fun t _ hq => hq ▸ hf t

theorem expectNext_then {c : Symbol}
    (hg : ∀ t, Orderly (n - 1) (m - 1) (.after t) (g ()) R) :
    Orderly n m p (Compiling.expectNext c >>= g) R := by
  unfold Compiling.expectNext
  rw [bind_assoc]
  exact next_then fun t => expect_then trivial (hg t)

/-- A term that starts with another token than a name. -/
theorem beginTerm_then {t : Token} (ht : t.lexeme.name? = none)
    (hg : Orderly n m (.after t) (g ()) R) :
    Orderly n m (.after t) (Compiling.beginTerm t >>= g) R := by
  have hbegin : Orderly n 0 (.after t) (Compiling.beginTerm t : CompilingLogged σ Unit)
      fun _ q => q = .after t := by
    refine ⟨fun hs h => ?_, nofun⟩
    cases h
    exact ⟨Nat.le_refl _, _, rfl, TokenLog.delivers_term hs ht⟩
  exact hbegin.bind fun _ _ hq => hq ▸ hg

variable [CodeSink σ]

theorem put_then {i : Instruction} (hp : p.IsClear) (hg : Orderly n m p (g ()) R) :
    Orderly n m p (Compiling.put i >>= g) R :=
  internal_then (.put i) hp fun _ => hg

end Orderly

end JackVM
