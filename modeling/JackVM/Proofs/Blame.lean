import JackVM.Proofs.Actions
import JackVM.Proofs.Prefixes

namespace JackVM

section Blame

variable {all : List (Except TokenError Token)} {goals goals' : List Goal}

/-- An error about the grammar is found at the first token that no sentence goes on with, or at the
end of what more tokens would make a sentence of. -/
def Blamed (all : List (Except TokenError Token)) : CompileError → Prop
  | .unexpected t _ => ∃ (before : List Token) (rest : List (Except TokenError Token)),
      all = before.map .ok ++ .ok t :: rest ∧
      BeginsSentence (before.map Token.lexeme) ∧
      ¬BeginsSentence (before.map Token.lexeme ++ [t.lexeme])
  | .unexpectedEnd => ∃ (tokens : List Token) (ys : List Lexeme), all = tokens.map .ok ∧ ys ≠ [] ∧
      IsSentence (tokens.map Token.lexeme ++ ys)
  | _ => True

/-- Up to a place in a source, the tokens leave these goals of a class, or others that the next token
does not tell from them. -/
def Reached (all : List (Except TokenError Token)) (goals : List Goal)
    (here : List (Except TokenError Token)) : Prop :=
  ∃ (before : List Token) (left : List Goal), all = before.map .ok ++ here ∧
    consume start (before.map Token.lexeme) = some left ∧ (left = [] ↔ goals = []) ∧
    ∀ t rest, here = .ok t :: rest → advance left t.lexeme = advance goals t.lexeme

variable {t : Token} {rest : List (Except TokenError Token)}

theorem Reached.token (h : Reached all goals (.ok t :: rest))
    (hg : advance goals t.lexeme = some goals') : Reached all goals' rest := by
  obtain ⟨before, left, hall, hleft, -, hnext⟩ := h
  have hadvance : advance left t.lexeme = some goals' := (hnext t rest rfl).trans hg
  refine ⟨before ++ [t], goals', by simp [hall], ?_, Iff.rfl, fun _ _ _ => rfl⟩
  rw [List.map_append, consume_append, hleft]
  simp [consume, hadvance]

theorem Reached.look (h : Reached all goals (.ok t :: rest)) (hend : goals = [] ↔ goals' = [])
    (hg : advance goals t.lexeme = advance goals' t.lexeme) :
    Reached all goals' (.ok t :: rest) := by
  obtain ⟨before, left, hall, hleft, hstop, hnext⟩ := h
  refine ⟨before, left, hall, hleft, hstop.trans hend, ?_⟩
  intro u more heq
  cases heq
  exact (hnext t rest rfl).trans hg

theorem Reached.blamed_token (h : Reached all goals (.ok t :: rest))
    (hg : advance goals t.lexeme = none) (expected : Expected) :
    Blamed all (.unexpected t expected) := by
  obtain ⟨before, left, hall, hleft, -, hnext⟩ := h
  have hadvance : advance left t.lexeme = none := (hnext t rest rfl).trans hg
  refine ⟨before, rest, hall, beginsSentence_iff.mpr (by simp [hleft]), ?_⟩
  rw [beginsSentence_iff, consume_append, hleft]
  simp [consume, hadvance]

theorem Reached.blamed_end (h : Reached all goals []) (hg : goals ≠ []) :
    Blamed all .unexpectedEnd := by
  obtain ⟨before, left, hall, hleft, hstop, -⟩ := h
  obtain ⟨ys, hys, hsentence⟩ := exists_sentence_of_consume hleft (mt hstop.mp hg)
  exact ⟨before, ys, by simpa using hall, hys, hsentence⟩

end Blame

/-- Errors that say nothing about the grammar. -/
def CompileError.isOther : CompileError → Bool
  | unexpected _ _ | unexpectedEnd => false
  | _ => true

theorem blamed_of_isOther {all : List (Except TokenError Token)} {e : CompileError}
    (h : e.isOther = true) : Blamed all e := by
  cases e with
  | unexpected | unexpectedEnd => cases h
  | _ => trivial

/-- What is still to be used of the source, where the token read last may be. -/
def Compilation.input {σ : Type} (s : Compilation σ) (pending : Option Token) :
    List (Except TokenError Token) :=
  (pending.map Except.ok).toList ++ s.tokens.upcoming

/-- Where compiling stands in a source: the goals still to be met, the token that was read last if it
is not used yet, and what is known of the subroutine being read. -/
structure Stands {σ : Type} (K : Option Routine → Prop) (all : List (Except TokenError Token))
    (goals : List Goal) (pending : Option Token) (s : Compilation σ) : Prop where
  reached : Reached all goals (s.input pending)
  canUnread (t : Token) : pending = some t → s.tokens.CanUnread t
  routine : K s.routine

/-- A part of compiling leads from goals to others with the tokens that it uses, and blames none
wrongly, where something is known of the subroutine being read. -/
structure Follows {σ α : Type} (K : Option Routine → Prop) (all : List (Except TokenError Token))
    (goals : List Goal) (pending : Option Token) (x : Compiling σ α) (left : List Goal)
    (pending' : α → Option Token) : Prop where
  ok {s s' : Compilation σ} {a : α} : Stands K all goals pending s → x s = .ok a s' →
    Stands K all left (pending' a) s'
  error {s s' : Compilation σ} {e : CompileError} : Stands K all goals pending s →
    x s = .error e s' → Blamed all e

/-- A part of compiling reads nothing and stays in the same subroutine. -/
structure Silent {σ α : Type} (x : Compiling σ α) : Prop where
  ok {s s' : Compilation σ} {a : α} : x s = .ok a s' →
    s'.tokens = s.tokens ∧ s'.routine = s.routine
  error {s s' : Compilation σ} {e : CompileError} : x s = .error e s' → e.isOther = true

namespace Silent

variable {σ α β : Type} {x : Compiling σ α} {f : α → Compiling σ β}

theorem pure {a : α} : Silent (Pure.pure a : Compiling σ α) where
  ok h := by
    cases h
    exact ⟨rfl, rfl⟩
  error h := by cases h

theorem throw {e : CompileError} (he : e.isOther = true) :
    Silent (MonadExcept.throw e : Compiling σ α) where
  ok h := by cases h
  error h := by
    cases h
    exact he

theorem bind (hx : Silent x) (hf : ∀ a, Silent (f a)) : Silent (x >>= f) where
  ok h := by
    obtain ⟨a, mid, h1, h2⟩ := Compiling.bind_ok h
    obtain ⟨htokens, hroutine⟩ := hx.ok h1
    obtain ⟨htokens', hroutine'⟩ := (hf a).ok h2
    exact ⟨htokens'.trans htokens, hroutine'.trans hroutine⟩
  error h := by
    rcases Compiling.bind_error h with h1 | ⟨a, mid, -, h2⟩
    · exact hx.error h1
    · exact (hf a).error h2

theorem names : Silent (Compiling.names : Compiling σ Declarations) where
  ok h := by
    cases h
    exact ⟨rfl, rfl⟩
  error h := by cases h

theorem setNames {d : Declarations} : Silent (Compiling.setNames d : Compiling σ Unit) where
  ok h := by
    cases h
    exact ⟨rfl, rfl⟩
  error h := by cases h

theorem className : Silent (Compiling.className : Compiling σ String) where
  ok h := by
    cases h
    exact ⟨rfl, rfl⟩
  error h := by cases h

theorem setClassName {name : String} :
    Silent (Compiling.setClassName name : Compiling σ Unit) where
  ok h := by
    cases h
    exact ⟨rfl, rfl⟩
  error h := by cases h

theorem currentRoutine : Silent (Compiling.currentRoutine : Compiling σ (Option Routine)) where
  ok h := by
    cases h
    exact ⟨rfl, rfl⟩
  error h := by cases h

theorem beginTerm {t : Token} : Silent (Compiling.beginTerm t : Compiling σ Unit) :=
  pure

theorem freshLabel {purpose : String} :
    Silent (Compiling.freshLabel purpose : Compiling σ Label) where
  ok h := by
    cases h
    exact ⟨rfl, rfl⟩
  error h := by cases h

variable [CodeSink σ]

theorem put {i : Instruction} : Silent (Compiling.put i : Compiling σ Unit) where
  ok h := by
    unfold Compiling.put at h
    split at h <;> cases h
    exact ⟨rfl, rfl⟩
  error h := by
    unfold Compiling.put at h
    split at h <;> cases h
    rfl

theorem putAll {code : List Instruction} : Silent (Compiling.putAll code : Compiling σ Unit) := by
  induction code with
  | nil => exact .pure
  | cons i code ih => exact put.bind fun _ => ih

theorem pushThis {line : Nat} : Silent (Compiling.pushThis line : Compiling σ Unit) := by
  refine currentRoutine.bind fun r? => ?_
  split
  · exact put
  · exact put
  · exact .throw rfl
  · exact .throw rfl

theorem pushObject {line : Nat} {name : String} :
    Silent (Compiling.pushObject line name : Compiling σ Unit) := by
  refine currentRoutine.bind fun r? => ?_
  split
  · exact put
  · exact put
  · exact .throw rfl

end Silent

namespace Stands

variable {σ : Type} {all : List (Except TokenError Token)} {goals goals' : List Goal} {t : Token}
  {s s' : Compilation σ} {p : Option Token} {K : Option Routine → Prop}

theorem of_tokens (h : Stands K all goals p s) (hs : s'.tokens = s.tokens)
    (hr : s'.routine = s.routine) : Stands K all goals p s' where
  reached := by
    rw [Compilation.input, hs]
    exact h.reached
  canUnread := hs ▸ h.canUnread
  routine := hr ▸ h.routine

theorem token (h : Stands K all goals (some t) s) (hg : advance goals t.lexeme = some goals') :
    Stands K all goals' none s where
  reached := Reached.token h.reached hg
  canUnread _ ht := by cases ht
  routine := h.routine

theorem look (h : Stands K all goals (some t) s) (hend : goals = [] ↔ goals' = [])
    (hg : advance goals t.lexeme = advance goals' t.lexeme) : Stands K all goals' (some t) s where
  reached := Reached.look h.reached hend hg
  canUnread := h.canUnread
  routine := h.routine

end Stands

namespace Follows

variable {σ α β : Type} {all : List (Except TokenError Token)} {goals left : List Goal}
  {p : Option Token} {p' : β → Option Token} {t : Token} {x : Compiling σ α}
  {f : α → Compiling σ β} {y : Compiling σ β} {K : Option Routine → Prop}

theorem pure {b : β} (h : p' b = p) :
    Follows K all goals p (Pure.pure b : Compiling σ β) goals p' where
  ok hs hx := by
    cases hx
    rwa [h]
  error _ hx := by cases hx

theorem throw {e : CompileError} (he : e.isOther = true) :
    Follows K all goals p (MonadExcept.throw e : Compiling σ β) left p' where
  ok _ hx := by cases hx
  error _ hx := by
    cases hx
    exact blamed_of_isOther he

theorem unexpected {expected : Expected} (h : advance goals t.lexeme = none) :
    Follows K all goals (some t) (MonadExcept.throw (.unexpected t expected) : Compiling σ β)
      left p' where
  ok _ hx := by cases hx
  error hs hx := by
    cases hx
    exact Reached.blamed_token hs.reached h expected

theorem bind {mid : List Goal} {pmid : α → Option Token} (hx : Follows K all goals p x mid pmid)
    (hf : ∀ a, Follows K all mid (pmid a) (f a) left p') :
    Follows K all goals p (x >>= f) left p' where
  ok hs h := by
    obtain ⟨a, s1, h1, h2⟩ := Compiling.bind_ok h
    exact (hf a).ok (hx.ok hs h1) h2
  error hs h := by
    rcases Compiling.bind_error h with h1 | ⟨a, s1, h1, h2⟩
    · exact hx.error hs h1
    · exact (hf a).error (hx.ok hs h1) h2

theorem of_silent (hx : Silent x) : Follows K all goals p x goals fun _ => p where
  ok hs h := hs.of_tokens (hx.ok h).1 (hx.ok h).2
  error _ h := blamed_of_isOther (hx.error h)

theorem silent_then (hx : Silent x) (hf : ∀ a, Follows K all goals p (f a) left p') :
    Follows K all goals p (x >>= f) left p' :=
  (of_silent hx).bind hf

theorem currentRoutine_then {r : Routine} {f : Option Routine → Compiling σ β}
    (hf : Follows (· = some r) all goals p (f (some r)) left p') :
    Follows (· = some r) all goals p (Compiling.currentRoutine >>= f) left p' where
  ok {s s' b} hs h := by
    have hr : s.routine = some r := hs.routine
    rw [Compiling.bind_of_ok (Compiling.currentRoutine_run hr)] at h
    exact hf.ok hs h
  error {s s' e} hs h := by
    have hr : s.routine = some r := hs.routine
    rw [Compiling.bind_of_ok (Compiling.currentRoutine_run hr)] at h
    exact hf.error hs h

/-- A part of compiling is done inside of a subroutine. -/
theorem inside_then {r : Routine} {mid : List Goal} {pmid : α → Option Token}
    (hx : Follows (· = some r) all goals p x mid pmid)
    (hf : ∀ a, Follows (fun _ => True) all mid (pmid a) (f a) left p') :
    Follows (fun _ => True) all goals p (Compiling.setRoutine (some r) >>= fun _ => x >>= f)
      left p' where
  ok {s s' b} hs h := by
    obtain ⟨a, s1, h1, h2⟩ := Compiling.bind_ok (x := x) h
    have hmid := hx.ok (s := { s with routine := some r }) ⟨hs.reached, hs.canUnread, rfl⟩ h1
    exact (hf a).ok ⟨hmid.reached, hmid.canUnread, trivial⟩ h2
  error {s s' e} hs h := by
    have hinside : Stands (· = some r) all goals p { s with routine := some r } :=
      ⟨hs.reached, hs.canUnread, rfl⟩
    rcases Compiling.bind_error (x := x) h with h1 | ⟨a, s1, h1, h2⟩
    · exact hx.error hinside h1
    · have hmid := hx.ok hinside h1
      exact (hf a).error ⟨hmid.reached, hmid.canUnread, trivial⟩ h2

theorem setRoutine {r? : Option Routine} :
    Follows (fun _ => True) all goals p (Compiling.setRoutine r? : Compiling σ Unit) goals
      fun _ => p where
  ok hs h := by
    cases h
    exact ⟨hs.reached, hs.canUnread, trivial⟩
  error _ h := by cases h

/-- Uses the token that was read last. -/
theorem token (goals' : List Goal) (h : advance goals t.lexeme = some goals')
    (hy : Follows K all goals' none y left p') : Follows K all goals (some t) y left p' where
  ok hs hx := hy.ok (hs.token h) hx
  error hs hx := hy.error (hs.token h) hx

/-- The token that was read last does not tell some goals from others. -/
theorem look (goals' : List Goal) (hend : goals = [] ↔ goals' = [])
    (h : advance goals t.lexeme = advance goals' t.lexeme)
    (hy : Follows K all goals' (some t) y left p') : Follows K all goals (some t) y left p' where
  ok hs hx := hy.ok (hs.look hend h) hx
  error hs hx := hy.error (hs.look hend h) hx

theorem of_next? {s s' : Compilation σ} {t? : Option Token} (h : Compiling.next? s = .ok t? s') :
    s.tokens.next = .ok t? s'.tokens ∧ s'.routine = s.routine := by
  unfold Compiling.next? at h
  split at h <;> cases h
  exact ⟨by assumption, rfl⟩

theorem next? :
    Follows K all goals none (Compiling.next? : Compiling σ (Option Token)) goals id where
  ok {s s' t?} hs h := by
    obtain ⟨hnext, hroutine⟩ := of_next? h
    cases t? with
    | none =>
      have hinput : s'.input none = s.input none := by
        simp [Compilation.input, TokenStream.upcoming_of_next_none hnext,
          (TokenStream.after_end hnext).2]
      exact ⟨hinput ▸ hs.reached, by simp, hroutine ▸ hs.routine⟩
    | some t =>
      obtain ⟨hup, hback⟩ := TokenStream.upcoming_of_next hnext
      have hinput : s'.input (some t) = s.input none := by simp [Compilation.input, hup]
      refine ⟨hinput ▸ hs.reached, ?_, hroutine ▸ hs.routine⟩
      intro u hu
      cases hu
      exact hback
  error _ h := by
    unfold Compiling.next? at h
    split at h <;> cases h
    trivial

/-- Where goals are left, the source must not end. -/
theorem next (hg : goals ≠ []) :
    Follows K all goals none (Compiling.next : Compiling σ Token) goals some where
  ok hs h := by
    obtain ⟨_ | t, mid, h1, h2⟩ := Compiling.bind_ok h
    · exact (Compiling.throw_ok h2).elim
    · obtain ⟨rfl, rfl⟩ := Compiling.pure_ok h2
      exact next?.ok hs h1
  error {s s' e} hs h := by
    rcases Compiling.bind_error h with h1 | ⟨_ | t, mid, h1, h2⟩
    · exact next?.error hs h1
    · cases h2
      have hend : s.input none = [] := by
        simp [Compilation.input, TokenStream.upcoming_of_next_none (of_next? h1).1]
      exact Reached.blamed_end (hend ▸ hs.reached) hg
    · cases h2

theorem next_then (hg : goals ≠ []) {f : Token → Compiling σ β}
    (hf : ∀ t, Follows K all goals (some t) (f t) left p') :
    Follows K all goals none (Compiling.next >>= f) left p' :=
  bind (next hg) hf

theorem unread : Follows K all goals (some t) (Compiling.unread : Compiling σ Unit) goals
    fun _ => none where
  ok {s s' u} hs h := by
    obtain ⟨after, hafter, hup⟩ := TokenStream.unread_of_canUnread (hs.canUnread t rfl)
    simp only [Compiling.unread, TokenSource.unread, hafter] at h
    cases h
    have hinput : ({ s with tokens := after } : Compilation σ).input none = s.input (some t) := by
      simp [Compilation.input, hup]
    exact ⟨hinput ▸ hs.reached, by simp, hs.routine⟩
  error _ h := by
    unfold Compiling.unread at h
    split at h <;> cases h
    trivial

/-- Checks that the token that was read last is a certain symbol, where nothing else can stand. -/
theorem expect {c : Symbol} {g : Goal} (hg : ∀ x, g.next x = if x = .symbol c then some [] else none) :
    Follows K all (g :: goals) (some t) (Compiling.expect c t : Compiling σ Unit) goals
      fun _ => none := by
  unfold Compiling.expect
  split
  next ht => exact .token _ (by simp [advance, hg, Token.isSymbol_iff.mp ht]) (.pure rfl)
  next ht =>
    have hne : t.lexeme ≠ .symbol c := mt Token.isSymbol_iff.mpr ht
    exact .unexpected (by simp [advance, hg, hne])

theorem expectNext {c : Symbol} : Follows K all (.one (.symbol c) :: goals) none
    (Compiling.expectNext c : Compiling σ Unit) goals fun _ => none :=
  .next_then (by simp) fun _ => expect fun _ => rfl

theorem expectBlockEnd : Follows K all (.one (.symbol .closeBrace) :: goals) (some t)
    (Compiling.expectBlockEnd t : Compiling σ Unit) goals fun _ => none := by
  unfold Compiling.expectBlockEnd
  split
  next ht =>
    exact .token _ (by simp [advance, Goal.next, Token.isSymbol_iff.mp ht]) (.pure rfl)
  next ht =>
    have hne : t.lexeme ≠ .symbol .closeBrace := mt Token.isSymbol_iff.mpr ht
    exact .unexpected (by simp [advance, Goal.next, hne])

theorem nameOf_then {f : String → Compiling σ β}
    (hf : ∀ name, t.lexeme = .identifier name → Follows K all goals none (f name) left p') :
    Follows K all (.name :: goals) (some t) (Compiling.nameOf t >>= f) left p' := by
  unfold Compiling.nameOf
  split
  next name hname =>
    have hl : t.lexeme = .identifier name := by
      cases hl : t.lexeme <;> simp_all [Lexeme.name?]
    exact .token _ (by simp [advance, Goal.next, hname]) (hf name hl)
  next hname =>
    have hnone : advance (.name :: goals) t.lexeme = none := by simp [advance, Goal.next, hname]
    exact .unexpected hnone

theorem variableOf : Follows K all (.name :: goals) (some t)
    (Compiling.variableOf t : Compiling σ Variable) goals fun _ => none := by
  refine nameOf_then fun name _ => silent_then .names fun d => ?_
  split
  · exact .pure rfl
  · exact .throw rfl

theorem declareName {typeName : String} {k : VariableKind} : Follows K all (.name :: goals) (some t)
    (Compiling.declareName t typeName k : Compiling σ Unit) goals fun _ => none := by
  refine nameOf_then fun name _ => silent_then .names fun d => ?_
  split
  · exact of_silent .setNames
  · exact .throw rfl

theorem typeOf : Follows K all (.type :: goals) (some t)
    (Compiling.typeOf t : Compiling σ String) goals fun _ => none := by
  have htype (h : nextOfType t.lexeme = some []) : advance (.type :: goals) t.lexeme = some goals := by
    simp [advance, Goal.next, h]
  unfold Compiling.typeOf
  split
  next h => exact .token _ (htype (by rw [h]; rfl)) (.pure rfl)
  next h => exact .token _ (htype (by rw [h]; rfl)) (.pure rfl)
  next h => exact .token _ (htype (by rw [h]; rfl)) (.pure rfl)
  next h => exact .token _ (htype (by rw [h]; rfl)) (.pure rfl)
  next =>
    have hnone : nextOfType t.lexeme = none := by
      unfold nextOfType
      split <;> simp_all
    exact .unexpected (by simp [advance, Goal.next, hnone])

theorem advance_routine (h : nextOfType t.lexeme = some []) :
    advance (.routine :: goals) t.lexeme = some (headGoals (t.isKeyword .kwVoid) ++ goals) := by
  obtain ⟨-, ty, hty⟩ := nextOfType_eq_some.mp h
  have hvoid : t.lexeme ≠ .keyword .kwVoid := by cases ty <;> simp [hty, TypeName.lexeme]
  have hkeyword : t.isKeyword .kwVoid = false := by simpa [Token.isKeyword] using hvoid
  simp [advance, Goal.next, h, hvoid, hkeyword]

/-- The type of a subroutine says what its statements may give back. -/
theorem checkReturnType : Follows K all (.routine :: goals) (some t)
    (Compiling.checkReturnType t : Compiling σ Unit)
    (headGoals (t.isKeyword .kwVoid) ++ goals) fun _ => none := by
  unfold Compiling.checkReturnType
  split
  next h => exact .token _ (advance_routine (by rw [h]; rfl)) (.pure rfl)
  next h => exact .token _ (advance_routine (by rw [h]; rfl)) (.pure rfl)
  next h => exact .token _ (advance_routine (by rw [h]; rfl)) (.pure rfl)
  next h => exact .token _ (by simp [advance, Goal.next, h, Token.isKeyword]) (.pure rfl)
  next h => exact .token _ (advance_routine (by rw [h]; rfl)) (.pure rfl)
  next =>
    have hnone : nextOfType t.lexeme = none := by
      unfold nextOfType
      split <;> simp_all
    have hvoid : t.lexeme ≠ .keyword .kwVoid := by simp_all
    exact .unexpected (by simp [advance, Goal.next, hnone, hvoid])

end Follows

/-- What a name stands for is looked up without reading. -/
theorem Silent.variableOf {σ : Type} {t : Token} {name : String} (h : t.lexeme = .identifier name) :
    Silent (Compiling.variableOf t : Compiling σ Variable) := by
  have hname : Silent (Compiling.nameOf t : Compiling σ String) := by
    simp only [Compiling.nameOf, h, Lexeme.name?]
    exact .pure
  refine hname.bind fun _ => Silent.names.bind fun _ => ?_
  split
  · exact .pure
  · exact .throw rfl

end JackVM
