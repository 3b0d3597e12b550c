import JackVM.ClassCode
import JackVM.Proofs.Upcoming

namespace JackVM

/-- A sink that never refuses an instruction. -/
class OpenSink (σ : Type) [CodeSink σ] where
  add : σ → Instruction → σ
  put?_eq (k : σ) (i : Instruction) : CodeSink.put? k i = some (add k i)

instance : OpenSink (Array Instruction) where
  add := Array.push
  put?_eq _ _ := rfl

instance : OpenSink CodeText where
  add := CodeText.push
  put?_eq _ _ := rfl

/-- The sink after some code. -/
def OpenSink.addAll {σ : Type} [CodeSink σ] [OpenSink σ] (k : σ) (code : List Instruction) : σ :=
  code.foldl OpenSink.add k

theorem addAll_array (k : Array Instruction) (code : List Instruction) :
    (OpenSink.addAll k code).toList = k.toList ++ code := by
  induction code generalizing k with
  | nil => simp [OpenSink.addAll]
  | cons i code ih =>
    change (OpenSink.addAll (k.push i) code).toList = k.toList ++ i :: code
    rw [ih, Array.toList_push, List.append_assoc, List.singleton_append]

/-- A sink that shows what it took. It may still refuse an instruction. -/
class LoggedSink (σ : Type) [CodeSink σ] where
  log : σ → List Instruction
  log_put? {k k' : σ} {i : Instruction} : CodeSink.put? k i = some k' → log k' = log k ++ [i]

instance : LoggedSink (Array Instruction) where
  log := Array.toList
  log_put? h := by
    cases h
    exact Array.toList_push

instance {σ : Type} [CodeSink σ] [LoggedSink σ] : LoggedSink (Limited σ) where
  log k := LoggedSink.log k.inner
  log_put? {k k' i} h := by
    cases hroom : k.room with
    | zero => simp [CodeSink.put?, hroom] at h
    | succ room =>
      simp only [CodeSink.put?, hroom, Option.map_eq_some_iff] at h
      obtain ⟨inner, hinner, rfl⟩ := h
      exact LoggedSink.log_put? hinner

theorem LoggedSink.log_eq_append {σ : Type} [CodeSink σ] [LoggedSink σ] {k k' : σ}
    {i : Instruction} {before code : List Instruction} (hlog : LoggedSink.log k = before ++ code)
    (h : CodeSink.put? k i = some k') : LoggedSink.log k' = before ++ (code ++ [i]) := by
  rw [LoggedSink.log_put? h, hlog, List.append_assoc]

/-- The lines of code, each with its line end. -/
def linesOf (code : List Instruction) : String :=
  String.join (code.map fun i => i.text ++ "\n")

theorem addAll_text (k : CodeText) (code : List Instruction) :
    (OpenSink.addAll k code).text = k.text ++ linesOf code := by
  induction code generalizing k with
  | nil => simp [OpenSink.addAll, linesOf]
  | cons i code ih =>
    have h := ih (k.push i)
    simpa [OpenSink.addAll, OpenSink.add, linesOf, CodeText.push, String.append_assoc] using h

/-- Between two places of a source lie tokens with these lexemes. -/
def Spans (xs : List Lexeme) (here there : List (Except TokenError Token)) : Prop :=
  ∃ ts : List Token, ts.map Token.lexeme = xs ∧ here = ts.map .ok ++ there

section Spans

variable {xs ys : List Lexeme} {here there : List (Except TokenError Token)}

@[simp] theorem spans_nil : Spans [] here there ↔ here = there := by
  simp [Spans]

@[simp] theorem spans_cons {x : Lexeme} : Spans (x :: xs) here there ↔
    ∃ t mid, t.lexeme = x ∧ here = .ok t :: mid ∧ Spans xs mid there := by
  constructor
  · rintro ⟨ts, hts, rfl⟩
    obtain ⟨t, ts, rfl, hx, hxs⟩ := List.map_eq_cons_iff.mp hts
    exact ⟨t, _, hx, rfl, ts, hxs, rfl⟩
  · rintro ⟨t, mid, rfl, rfl, ts, rfl, rfl⟩
    exact ⟨t :: ts, rfl, rfl⟩

theorem spans_cons_cons {x : Lexeme} {t : Token} :
    Spans (x :: xs) (.ok t :: here) there ↔ t.lexeme = x ∧ Spans xs here there := by
  rw [spans_cons]
  constructor
  · rintro ⟨u, mid, hx, hu, h⟩
    cases hu
    exact ⟨hx, h⟩
  · rintro ⟨hx, h⟩
    exact ⟨t, here, hx, rfl, h⟩

theorem spans_append : Spans (xs ++ ys) here there ↔ ∃ mid, Spans xs here mid ∧ Spans ys mid there := by
  induction xs generalizing here with
  | nil => simp
  | cons x xs ih =>
    simp only [List.cons_append, spans_cons, ih]
    constructor
    · rintro ⟨t, a, hx, rfl, mid, h1, h2⟩
      exact ⟨mid, ⟨t, a, hx, rfl, h1⟩, h2⟩
    · rintro ⟨mid, ⟨t, a, hx, rfl, h1⟩, h2⟩
      exact ⟨t, a, hx, rfl, mid, h1, h2⟩

theorem Spans.trans {mid : List (Except TokenError Token)} (h : Spans xs here mid)
    (k : Spans ys mid there) : Spans (xs ++ ys) here there :=
  spans_append.mpr ⟨mid, h, k⟩

theorem Spans.cons {t : Token} {x : Lexeme} (hx : t.lexeme = x) (h : Spans xs here there) :
    Spans (x :: xs) (.ok t :: here) there :=
  spans_cons_cons.mpr ⟨hx, h⟩

end Spans

namespace Compilation

variable {σ : Type} [CodeSink σ] [OpenSink σ]

/-- The places before and after a token that is read but not yet used. -/
def ahead (s : Compilation σ) (t : Token) : List (Except TokenError Token) :=
  .ok t :: s.tokens.upcoming

/-- The state after reading up to other tokens, with more code put and more labels handed out. -/
def after (s : Compilation σ) (tokens : TokenStream) (code : List Instruction) (labels : Nat) :
    Compilation σ :=
  { s with
    tokens := tokens
    labels := ⟨s.labels.nextNumber + labels⟩
    sink := OpenSink.addAll s.sink code }

variable {s : Compilation σ} {tokens : TokenStream} {code : List Instruction} {labels : Nat}

@[simp] theorem after_tokens : (s.after tokens code labels).tokens = tokens := rfl

@[simp] theorem after_names : (s.after tokens code labels).names = s.names := rfl

@[simp] theorem after_className : (s.after tokens code labels).className = s.className := rfl

@[simp] theorem after_routine : (s.after tokens code labels).routine = s.routine := rfl

@[simp] theorem after_number :
    (s.after tokens code labels).labels.nextNumber = s.labels.nextNumber + labels := rfl

@[simp] theorem after_sink : (s.after tokens code labels).sink = OpenSink.addAll s.sink code := rfl

@[simp] theorem after_after (tokens' : TokenStream) (code' : List Instruction) (labels' : Nat) :
    (s.after tokens code labels).after tokens' code' labels' =
      s.after tokens' (code ++ code') (labels + labels') := by
  simp [after, OpenSink.addAll, Nat.add_assoc]

end Compilation

namespace Compiling

variable {σ α β : Type}

section Bind

variable {τ : Type} {x : CompilingFrom τ σ α} {f : α → CompilingFrom τ σ β} {s s' : Compilation σ τ}

theorem bind_ok {b : β} (h : (x >>= f) s = .ok b s') :
    ∃ a mid, x s = .ok a mid ∧ f a mid = .ok b s' := by
  change EStateM.bind x f s = .ok b s' at h
  unfold EStateM.bind at h
  split at h
  next a mid hx => exact ⟨a, mid, hx, h⟩
  next => cases h

theorem bind_of_ok {a : α} (h : x s = .ok a s') : (x >>= f) s = f a s' := by
  change EStateM.bind x f s = f a s'
  simp [EStateM.bind, h]

theorem bind_of_error {e : CompileError} (h : x s = .error e s') : (x >>= f) s = .error e s' := by
  change EStateM.bind x f s = .error e s'
  simp [EStateM.bind, h]

theorem bind_of_eq {y : CompilingFrom τ σ α} (h : x s = y s') : (x >>= f) s = (y >>= f) s' := by
  change EStateM.bind x f s = EStateM.bind y f s'
  simp [EStateM.bind, h]

theorem bind_error {e : CompileError} (h : (x >>= f) s = .error e s') :
    x s = .error e s' ∨ ∃ a mid, x s = .ok a mid ∧ f a mid = .error e s' := by
  change EStateM.bind x f s = .error e s' at h
  unfold EStateM.bind at h
  split at h
  next a mid hx => exact .inr ⟨a, mid, hx, h⟩
  next e' mid hx =>
    cases h
    exact .inl hx

/-- Sets apart what is run, so that it can be split into cases. -/
theorem of_run {z : EStateM.Result CompileError (Compilation σ τ) α} (h : x s = z) :
    ∃ y, y = x ∧ y s = z :=
  ⟨x, rfl, h⟩

theorem pure_ok {a b : α} (h : (pure a : CompilingFrom τ σ α) s = .ok b s') : a = b ∧ s = s' := by
  cases h
  exact ⟨rfl, rfl⟩

theorem throw_ok {e : CompileError} {a : α} (h : (throw e : CompilingFrom τ σ α) s = .ok a s') :
    False := by
  cases h

end Bind

section Checks

variable {s s' : Compilation σ} {t : Token}

theorem expect_ok {c : Symbol} {u : Unit} (h : expect c t s = .ok u s') :
    t.lexeme = .symbol c ∧ s = s' := by
  unfold expect at h
  split at h
  next hc => exact ⟨Token.isSymbol_iff.mp hc, (pure_ok h).2⟩
  next => exact (throw_ok h).elim

theorem expect_of_lexeme {c : Symbol} (h : t.lexeme = .symbol c) : expect c t s = .ok () s := by
  unfold expect
  rw [if_pos (Token.isSymbol_iff.mpr h)]
  rfl

theorem nameOf_ok {name : String} (h : nameOf t s = .ok name s') :
    t.lexeme = .identifier name ∧ s = s' := by
  cases hl : t.lexeme with
  | identifier x =>
    simp only [nameOf, hl, Lexeme.name?] at h
    obtain ⟨rfl, rfl⟩ := pure_ok h
    exact ⟨rfl, rfl⟩
  | _ =>
    simp only [nameOf, hl, Lexeme.name?] at h
    exact (throw_ok h).elim

theorem nameOf_of_lexeme {name : String} (h : t.lexeme = .identifier name) :
    nameOf t s = .ok name s := by
  simp only [nameOf, h, Lexeme.name?]
  rfl

theorem names_run (s : Compilation σ) : names s = .ok s.names s := rfl

theorem className_run (s : Compilation σ) : className s = .ok s.className s := rfl

theorem currentRoutine_run {r : Routine} (hs : s.routine = some r) :
    currentRoutine s = .ok (some r) s := by
  rw [← hs]
  rfl

/-- A stream takes no notice of terms. -/
theorem beginTerm_then (t : Token) (f : Unit → Compiling σ α) : (beginTerm t >>= f) = f () := rfl

theorem variableOf_ok {v : Variable} (h : variableOf t s = .ok v s') :
    ∃ name, t.lexeme = .identifier name ∧ s.names.find? name = some v ∧ s = s' := by
  unfold variableOf at h
  obtain ⟨name, mid, h1, h⟩ := bind_ok h
  obtain ⟨hl, rfl⟩ := nameOf_ok h1
  rw [bind_of_ok (names_run s)] at h
  cases hf : s.names.find? name with
  | none => simp only [hf] at h; exact (throw_ok h).elim
  | some w =>
    simp only [hf] at h
    obtain ⟨rfl, rfl⟩ := pure_ok h
    exact ⟨name, hl, hf, rfl⟩

theorem variableOf_of_lexeme {name : String} {v : Variable} (h : t.lexeme = .identifier name)
    (hv : s.names.find? name = some v) : variableOf t s = .ok v s := by
  unfold variableOf
  rw [bind_of_ok (nameOf_of_lexeme h), bind_of_ok (names_run s), hv]
  rfl

end Checks

section Tokens

variable [CodeSink σ] [OpenSink σ] {s s' : Compilation σ} {t : Token}

theorem next_ok (h : next s = .ok t s') :
    ∃ τ, s' = s.after τ [] 0 ∧ s.tokens.upcoming = .ok t :: τ.upcoming ∧ τ.CanUnread t := by
  obtain ⟨t?, mid, h1, h⟩ := bind_ok h
  unfold next? at h1
  split at h1
  next u τ hn =>
    cases h1
    cases t? with
    | none => exact (throw_ok h).elim
    | some u =>
      obtain ⟨rfl, rfl⟩ := pure_ok h
      obtain ⟨hu, hc⟩ := TokenStream.upcoming_of_next hn
      exact ⟨τ, rfl, hu, hc⟩
  next => cases h1

theorem next_of_upcoming {rest : List (Except TokenError Token)}
    (h : s.tokens.upcoming = .ok t :: rest) :
    ∃ τ, next s = .ok t (s.after τ [] 0) ∧ τ.upcoming = rest ∧ τ.CanUnread t := by
  obtain ⟨τ, hn, hu, hc⟩ := TokenStream.next_of_upcoming_cons h
  have h1 : next? s = .ok (some t) (s.after τ [] 0) := by
    simp only [next?, TokenSource.next, hn]
    rfl
  exact ⟨τ, bind_of_ok h1, hu, hc⟩

theorem next?_none_ok (h : next? s = .ok none s') :
    ∃ τ, s' = s.after τ [] 0 ∧ s.tokens.upcoming = [] := by
  unfold next? at h
  split at h
  next u τ hn =>
    cases h
    exact ⟨τ, rfl, TokenStream.upcoming_of_next_none hn⟩
  next => cases h

theorem next?_of_upcoming_nil (h : s.tokens.upcoming = []) :
    ∃ τ, next? s = .ok none (s.after τ [] 0) := by
  obtain ⟨τ, hn⟩ := TokenStream.next_of_upcoming_nil h
  refine ⟨τ, ?_⟩
  simp only [next?, TokenSource.next, hn]
  rfl

theorem unread_of_canUnread (h : s.tokens.CanUnread t) :
    ∃ τ, unread s = .ok () (s.after τ [] 0) ∧ τ.upcoming = .ok t :: s.tokens.upcoming := by
  obtain ⟨τ, hn, hu⟩ := TokenStream.unread_of_canUnread h
  refine ⟨τ, ?_, hu⟩
  simp only [unread, TokenSource.unread, hn]
  rfl

theorem expectNext_ok {c : Symbol} {u : Unit} (h : expectNext c s = .ok u s') :
    ∃ τ, s' = s.after τ [] 0 ∧ Spans [.symbol c] s.tokens.upcoming τ.upcoming := by
  obtain ⟨t, mid, h1, h⟩ := bind_ok h
  obtain ⟨τ, rfl, hu, -⟩ := next_ok h1
  obtain ⟨hc, rfl⟩ := expect_ok h
  exact ⟨τ, rfl, by simp [hu, hc]⟩

theorem expectNext_of_upcoming {c : Symbol} {rest : List (Except TokenError Token)}
    (h : Spans [.symbol c] s.tokens.upcoming rest) :
    ∃ τ, expectNext c s = .ok () (s.after τ [] 0) ∧ τ.upcoming = rest := by
  simp only [spans_cons, spans_nil] at h
  obtain ⟨t, mid, hc, hu, rfl⟩ := h
  obtain ⟨τ, hn, hrest, -⟩ := next_of_upcoming hu
  refine ⟨τ, ?_, hrest⟩
  unfold expectNext
  rw [bind_of_ok hn]
  exact expect_of_lexeme hc

end Tokens

section Code

variable [CodeSink σ] [OpenSink σ] (s : Compilation σ)

theorem put_run (i : Instruction) : put i s = .ok () (s.after s.tokens [i] 0) := by
  simp only [put, OpenSink.put?_eq]
  rfl

theorem put_ok {s s' : Compilation σ} {i : Instruction} {u : Unit} (h : put i s = .ok u s') :
    s' = s.after s.tokens [i] 0 := by
  rw [put_run] at h
  cases h
  rfl

theorem putAll_run (code : List Instruction) :
    putAll code s = .ok () (s.after s.tokens code 0) := by
  induction code generalizing s with
  | nil => rfl
  | cons i code ih =>
    unfold putAll
    rw [bind_of_ok (put_run s i), ih]
    simp

theorem putAll_ok {s s' : Compilation σ} {code : List Instruction} {u : Unit}
    (h : putAll code s = .ok u s') : s' = s.after s.tokens code 0 := by
  rw [putAll_run] at h
  cases h
  rfl

theorem freshLabel_run {s : Compilation σ} {r : Routine} (hs : s.routine = some r)
    (purpose : String) : freshLabel purpose s =
      .ok ⟨s.className, r.name, purpose, s.labels.nextNumber⟩ (s.after s.tokens [] 1) := by
  simp [freshLabel, hs, LabelSupply.fresh, Compilation.after, OpenSink.addAll]

end Code

-- The same for a step that other steps follow.
section Sequence

variable {s s' : Compilation σ} {b : β}

theorem expect_then {c : Symbol} {t : Token} {f : Unit → Compiling σ β}
    (h : (expect c t >>= f) s = .ok b s') : t.lexeme = .symbol c ∧ f () s = .ok b s' := by
  obtain ⟨_, mid, h1, h⟩ := bind_ok h
  obtain ⟨hc, rfl⟩ := expect_ok h1
  exact ⟨hc, h⟩

theorem currentRoutine_then {f : Option Routine → Compiling σ β} {r : Routine}
    (h : (currentRoutine >>= f) s = .ok b s') (hs : s.routine = some r) :
    f (some r) s = .ok b s' := by
  rwa [bind_of_ok (currentRoutine_run hs)] at h

variable [CodeSink σ] [OpenSink σ]

theorem freshLabel_then {purpose : String} {f : Label → Compiling σ β} {r : Routine}
    (h : (freshLabel purpose >>= f) s = .ok b s') (hs : s.routine = some r) :
    f ⟨s.className, r.name, purpose, s.labels.nextNumber⟩ (s.after s.tokens [] 1) = .ok b s' := by
  rwa [bind_of_ok (freshLabel_run hs purpose)] at h

theorem next_then {f : Token → Compiling σ β} (h : (next >>= f) s = .ok b s') :
    ∃ t τ, s.tokens.upcoming = .ok t :: τ.upcoming ∧ τ.CanUnread t ∧
      f t (s.after τ [] 0) = .ok b s' := by
  obtain ⟨t, mid, h1, h⟩ := bind_ok h
  obtain ⟨τ, rfl, hu, hc⟩ := next_ok h1
  exact ⟨t, τ, hu, hc, h⟩

theorem put_then {i : Instruction} {f : Unit → Compiling σ β} (h : (put i >>= f) s = .ok b s') :
    f () (s.after s.tokens [i] 0) = .ok b s' := by
  rwa [bind_of_ok (put_run s i)] at h

theorem expectNext_then {c : Symbol} {f : Unit → Compiling σ β}
    (h : (expectNext c >>= f) s = .ok b s') :
    ∃ τ, Spans [.symbol c] s.tokens.upcoming τ.upcoming ∧ f () (s.after τ [] 0) = .ok b s' := by
  obtain ⟨_, mid, h1, h⟩ := bind_ok h
  obtain ⟨τ, rfl, hspan⟩ := expectNext_ok h1
  exact ⟨τ, hspan, h⟩

end Sequence

end Compiling

end JackVM
