import JackVM.Proofs.ExpressionReading
import JackVM.Proofs.RuleChecks

namespace JackVM

namespace Checks

variable {ms : List Mark} {here rest : List (Except TokenError Token)} {t' : Token}
  {fault : Option CompileError}

theorem head (h : Checks ms here (.ok t' :: rest) fault) : ∃ u mid, here = .ok u :: mid := by
  cases ms with
  | nil => exact ⟨t', rest, (checks_nil.mp h).1⟩
  | cons m ms =>
    obtain ⟨u, mid, -, -, hu, -⟩ := checks_cons.mp h
    exact ⟨u, mid, hu⟩

end Checks

namespace Compilation

variable {σ : Type}

section Ahead

variable {s : Compilation σ} {t : Token} {x : Lexeme} {m : Mark} {ms : List Mark}
  {there : List (Except TokenError Token)} {fault : Option CompileError}

theorem checks_free_ahead : Checks (.free x :: ms) (s.ahead t) there fault ↔
    t.lexeme = x ∧ Checks ms s.tokens.upcoming there fault := by
  rw [checks_free_cons]
  constructor
  · rintro ⟨u, mid, hx, hu, h⟩
    cases hu
    exact ⟨hx, h⟩
  · rintro ⟨hx, h⟩
    exact ⟨t, _, hx, rfl, h⟩

theorem checks_ahead (h : Checks (m :: ms) (s.ahead t) there fault) : t.lexeme = m.lexeme ∧
    ∃ rest, Checks ms s.tokens.upcoming there rest ∧ fault = (m.rule.fault? t).or rest := by
  obtain ⟨u, mid, rest, hx, hu, h, rfl⟩ := checks_cons.mp h
  cases hu
  exact ⟨hx, rest, h, rfl⟩

end Ahead

variable [CodeSink σ] [OpenSink σ] {α β : Type}

/-- A step succeeds with a result, puts some code and leaves what comes after. -/
def Passes (s : Compilation σ) (x : Compiling σ α) (code : List Instruction) (labels : Nat) (a : α)
    (rest : List (Except TokenError Token)) : Prop :=
  ∃ τ, x s = .ok a (s.after τ code labels) ∧ τ.upcoming = rest

/-- A step passes unless there is a fault, which is then its error. -/
def Settles (s : Compilation σ) (x : Compiling σ α) (fault : Option CompileError)
    (code : List Instruction) (labels : Nat) (a : α) (rest : List (Except TokenError Token)) : Prop :=
  match fault with
  | none => s.Passes x code labels a rest
  | some e => ∃ s', x s = .error e s'

namespace Passes

variable {s : Compilation σ} {a : α} {t' : Token} {rest : List (Except TokenError Token)}

theorem next_last (h : s.tokens.upcoming = .ok t' :: rest) :
    s.Passes Compiling.next [] 0 t' rest := by
  obtain ⟨τ, hn, hrest, -⟩ := Compiling.next_of_upcoming h
  exact ⟨τ, hn, hrest⟩

theorem expectNext_last {c : Symbol} (hc : t'.lexeme = .symbol c)
    (h : s.tokens.upcoming = .ok t' :: rest) : s.Passes (Compiling.expectNext c) [] 0 () rest :=
  Compiling.expectNext_of_upcoming (spans_cons.mpr ⟨t', rest, hc, h, spans_nil.mpr rfl⟩)

end Passes

namespace Settles

variable {s : Compilation σ} {x : Compiling σ α} {y : Compiling σ β} {f : α → Compiling σ β} {a : α}
  {b : β} {fault fault' : Option CompileError} {code code' : List Instruction} {n n' : Nat}
  {mid rest : List (Except TokenError Token)}

/-- What another step does after some code is put is done after that code. -/
theorem of_eq {x y : Compiling σ β} {τ : TokenStream} (hxy : y s = x (s.after τ code n))
    (h : (s.after τ code n).Settles x fault code' n' b rest) :
    s.Settles y fault (code ++ code') (n + n') b rest := by
  cases fault with
  | some e =>
    obtain ⟨s', hx⟩ := h
    exact ⟨s', hxy.trans hx⟩
  | none =>
    obtain ⟨τ1, hx, hrest⟩ := h
    exact ⟨τ1, by rw [hxy, hx, after_after], hrest⟩

theorem bind (h : s.Settles x fault code n a mid)
    (k : ∀ τ, τ.upcoming = mid → (s.after τ code n).Settles (f a) fault' code' n' b rest) :
    s.Settles (x >>= f) (fault.or fault') (code ++ code') (n + n') b rest := by
  cases fault with
  | some e =>
    obtain ⟨s', hx⟩ := h
    exact ⟨s', Compiling.bind_of_error hx⟩
  | none =>
    obtain ⟨τ, hx, hτ⟩ := h
    exact of_eq (Compiling.bind_of_ok hx) (k τ hτ)

/-- A step that needs no label. -/
theorem code_then (h : s.Settles x fault code 0 a mid)
    (k : ∀ τ, τ.upcoming = mid → (s.after τ code 0).Settles (f a) fault' code' n b rest) :
    s.Settles (x >>= f) (fault.or fault') (code ++ code') n b rest := by
  simpa using h.bind k

/-- A step that cannot fail. -/
theorem pass_then (h : s.Passes x code 0 a mid)
    (k : ∀ τ, τ.upcoming = mid → (s.after τ code 0).Settles (f a) fault code' n b rest) :
    s.Settles (x >>= f) fault (code ++ code') n b rest := by
  have hx : s.Settles x none code 0 a mid := h
  exact hx.code_then k

/-- A step that puts nothing. -/
theorem silent_then (h : s.Passes x [] 0 a mid)
    (k : ∀ τ, τ.upcoming = mid → (s.after τ [] 0).Settles (f a) fault code n b rest) :
    s.Settles (x >>= f) fault code n b rest :=
  pass_then h k

/-- A step that only checks. -/
theorem check_then (h : x s = .ok a s) (k : s.Settles (f a) fault code n b rest) :
    s.Settles (x >>= f) fault code n b rest := by
  have hrun : (x >>= f) s = f a (s.after s.tokens [] 0) := Compiling.bind_of_ok h
  simpa using of_eq hrun k

theorem put_then {i : Instruction} {f : Unit → Compiling σ β}
    (k : (s.after s.tokens [i] 0).Settles (f ()) fault code n b rest) :
    s.Settles (Compiling.put i >>= f) fault (i :: code) n b rest := by
  simpa using of_eq (Compiling.bind_of_ok (Compiling.put_run s i)) k

theorem next_then {f : Token → Compiling σ β} {ms : List Mark} {t' : Token}
    {rest' : List (Except TokenError Token)} (h : Checks ms s.tokens.upcoming (.ok t' :: rest') fault')
    (k : ∀ u τ, Checks ms ((s.after τ [] 0).ahead u) (.ok t' :: rest') fault' →
      (s.after τ [] 0).Settles (f u) fault code n b rest) :
    s.Settles (Compiling.next >>= f) fault code n b rest := by
  obtain ⟨u, mid, hu⟩ := h.head
  refine silent_then (.next_last hu) fun τ hτ => k u τ ?_
  rwa [hu, ← hτ] at h

theorem expectNext_then {f : Unit → Compiling σ β} {c : Symbol} {ms : List Mark}
    {there : List (Except TokenError Token)}
    (h : Checks (.free (.symbol c) :: ms) s.tokens.upcoming there fault')
    (k : ∀ τ, Checks ms τ.upcoming there fault' →
      (s.after τ [] 0).Settles (f ()) fault code n b rest) :
    s.Settles (Compiling.expectNext c >>= f) fault code n b rest := by
  obtain ⟨t, mid, hc, ht, h⟩ := checks_free_cons.mp h
  exact silent_then (.expectNext_last hc ht) fun τ hτ => k τ (by rwa [hτ])

theorem freshLabel_then {f : Label → Compiling σ β} {r : Routine} {purpose : String}
    (hs : s.routine = some r)
    (k : (s.after s.tokens [] 1).Settles (f ((s.scope r).label purpose s.labels.nextNumber)) fault
      code n b rest) :
    s.Settles (Compiling.freshLabel purpose >>= f) fault code (1 + n) b rest :=
  of_eq (Compiling.bind_of_ok (Compiling.freshLabel_run hs purpose)) k

theorem pure_last (h : s.tokens.upcoming = rest) : s.Settles (pure b) none [] 0 b rest :=
  ⟨s.tokens, rfl, h⟩

theorem next_last {t' : Token} (h : s.tokens.upcoming = .ok t' :: rest) :
    s.Settles Compiling.next none [] 0 t' rest :=
  Passes.next_last h

/-- Looks up the variable that a name stands for. -/
theorem variableOf_then {f : Variable → Compiling σ β} {r : Routine} {t : Token} {name : String}
    (hl : t.lexeme = .identifier name)
    (k : ∀ v, s.names.find? name = some v → s.Settles (f v) fault code n b rest) :
    s.Settles (Compiling.variableOf t >>= f) (((Rule.known (s.scope r)).fault? t).or fault) code n b
      rest := by
  have htext : t.lexeme.text = name := by rw [hl]; rfl
  cases hv : s.names.find? name with
  | none =>
    have hundeclared : ¬(s.scope r).Declares name := by simp [Scope.Declares, Compilation.scope, hv]
    have hfault : (Rule.known (s.scope r)).fault? t = some (.undeclared t.line name) := by
      simp [Rule.fault?, htext, hundeclared]
    rw [hfault]
    refine ⟨s, Compiling.bind_of_error ?_⟩
    unfold Compiling.variableOf
    rw [Compiling.bind_of_ok (Compiling.nameOf_of_lexeme hl),
      Compiling.bind_of_ok (Compiling.names_run s), hv]
    rfl
  | some v =>
    have hdeclared : (s.scope r).Declares name := by simp [Scope.Declares, Compilation.scope, hv]
    have hfault : (Rule.known (s.scope r)).fault? t = none := by
      simp [Rule.fault?, htext, hdeclared]
    rw [hfault]
    exact check_then (Compiling.variableOf_of_lexeme hl hv) (k v hv)

end Settles

end Compilation

end JackVM
