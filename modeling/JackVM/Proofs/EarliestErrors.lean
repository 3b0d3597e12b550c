import JackVM.Proofs.Following

namespace JackVM

variable {σ : Type}

theorem reached_start (all : List (Except TokenError Token)) : Reached all start all :=
  ⟨[], start, rfl, rfl, Iff.rfl, fun _ _ _ => rfl⟩

theorem stands_ofText (source : String) (sink : σ) :
    Stands (fun _ => True) (Cursor.ofText source).results start none
      (Compilation.ofText source sink) where
  reached := by
    have hinput : (Compilation.ofText source sink).input none = (Cursor.ofText source).results := by
      simp [Compilation.input, Compilation.ofText]
    rw [hinput]
    exact reached_start _
  canUnread _ h := by cases h
  routine := trivial

variable [CodeSink σ]

theorem blamed_of_compileTo {source : String} {sink : σ} {e : CompileError}
    (h : (compileTo source sink).1 = .error e) : Blamed (Cursor.ofText source).results e := by
  simp only [compileTo, Compilation.compileClass] at h
  split at h
  next => cases h
  next herror =>
    cases h
    exact follows_wholeSource.error (stands_ofText source sink) herror

/-- An error about the grammar names the first token that no class goes on with after the tokens
before it. Where the source ends too early instead, all of it was read and more tokens would make a
class of it. -/
theorem grammarErrors_earliest (source : String) (sink : σ) :
    (∀ t expected, (compileTo source sink).1 = .error (.unexpected t expected) →
      ∃ (before : List Token) (rest : List (Except TokenError Token)),
        (Cursor.ofText source).results = before.map .ok ++ .ok t :: rest ∧
        BeginsSentence (before.map Token.lexeme) ∧
        ¬BeginsSentence ((before ++ [t]).map Token.lexeme)) ∧
    ((compileTo source sink).1 = .error .unexpectedEnd →
      ∃ (tokens : List Token) (ys : List Lexeme),
        (Cursor.ofText source).results = tokens.map .ok ∧ ys ≠ [] ∧
        IsSentence (tokens.map Token.lexeme ++ ys)) := by
  constructor
  · intro t expected h
    obtain ⟨before, rest, hall, hbegins, hends⟩ := blamed_of_compileTo h
    exact ⟨before, rest, hall, hbegins, by simpa using hends⟩
  · intro h
    exact blamed_of_compileTo h

/-- A subroutine without a type gives back no value, and a class does not end before its brace. -/
theorem grammarErrors_valueInVoid :
    (∃ (before : List Token) (rest : List (Except TokenError Token)),
      (Cursor.ofText "class A { function void f() { return 1; } }").results =
        before.map .ok ++ .ok ⟨.integer "1", 1⟩ :: rest ∧
      BeginsSentence (before.map Token.lexeme) ∧
      ¬BeginsSentence ((before ++ [(⟨.integer "1", 1⟩ : Token)]).map Token.lexeme)) ∧
    ∃ (tokens : List Token) (ys : List Lexeme),
      (Cursor.ofText "class A \x7b field int x;").results = tokens.map .ok ∧ ys ≠ [] ∧
      IsSentence (tokens.map Token.lexeme ++ ys) :=
  ⟨(grammarErrors_earliest "class A { function void f() { return 1; } }"
      (#[] : Array Instruction)).1 ⟨.integer "1", 1⟩ .semicolonInVoid (by decide +kernel),
    (grammarErrors_earliest "class A \x7b field int x;" (#[] : Array Instruction)).2
      (by decide +kernel)⟩

end JackVM
