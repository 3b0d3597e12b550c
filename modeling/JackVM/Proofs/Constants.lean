import JackVM.Proofs.Productions
import JackVM.Proofs.ReferenceCompiler
import JackVM.Proofs.StringLengths

namespace JackVM

/-- The number of an integer and the codes of the characters of a string can be pushed. -/
def Lexeme.IsPushable : Lexeme → Prop
  | .integer digits => digitsValue digits.toList ≤ maxConstant
  | .string text => ∀ c ∈ text.toList, c.toNat ≤ maxConstant
  | _ => True

theorem isPushable_of_readWord {word : String} {line : Nat} {x : Lexeme}
    (h : readWord word line = .ok x) : x.IsPushable := by
  unfold readWord at h
  split at h
  next =>
    cases h
    trivial
  next =>
    split_ifs at h with _ hvalue
    · cases h
      exact hvalue
    · cases h
      trivial

theorem isPushable_of_stringConstant {text : List Char} {line : Nat} {x : Lexeme}
    (h : stringConstant text line = .ok x) : x.IsPushable := by
  unfold stringConstant at h
  split at h
  next => cases h
  next hnone =>
    cases h
    intro c hc
    rw [String.toList_ofList] at hc
    have hsmall := List.find?_eq_none.mp hnone c hc
    simpa [isOversized] using hsmall

theorem isPushable_of_deliver {found : Except TokenError Lexeme} {line : Nat}
    {t : Token} {after after' : Cursor} (hfound : ∀ x, found = .ok x → x.IsPushable)
    (h : deliver found line after = .ok (some t) after') : t.lexeme.IsPushable := by
  cases found with
  | ok x =>
    cases h
    exact hfound x rfl
  | error e => cases h

theorem isPushable_of_readToken {c : Char} {cs : List Char} {line : Nat} {t : Token}
    {after : Cursor} (h : readToken c cs line = .ok (some t) after) : t.lexeme.IsPushable := by
  unfold readToken at h
  split at h
  next =>
    cases h
    trivial
  next =>
    split at h
    next =>
      split at h
      next => exact isPushable_of_deliver (fun _ => isPushable_of_stringConstant) h
      next => cases h
    next => exact isPushable_of_deliver (fun _ => isPushable_of_readWord) h

theorem isPushable_of_read {c after : Cursor} {t : Token} (h : c.read = .ok (some t) after) :
    t.lexeme.IsPushable := by
  unfold Cursor.read at h
  split at h
  next => cases h
  next => cases h
  next => exact isPushable_of_readToken h

theorem isPushable_of_mem_results {c : Cursor} {t : Token} (h : .ok t ∈ c.results) :
    t.lexeme.IsPushable := by
  fun_induction Cursor.results c with
  | case1 => cases h
  | case2 c u after hread _ ih =>
    rcases List.mem_cons.mp h with hu | h
    · cases hu
      exact isPushable_of_read hread
    · exact ih h
  | case3 c e after hread _ ih =>
    rcases List.mem_cons.mp h with he | h
    · cases he
    · exact ih h

/-- A number is the length of a string constant of a source. -/
def IsStringLength (source : String) (n : Nat) : Prop :=
  ∃ t text, .ok t ∈ (Cursor.ofText source).results ∧ t.lexeme = .string text ∧ n = text.length

/-- If an instruction pushes a constant, then one that fits, or one of the two kinds of sizes that
nothing bounds: the length of a string constant, or at most a number of fields. -/
def Instruction.IsBounded (source : String) (fields : Nat) (i : Instruction) : Prop :=
  ∀ n, i = .push .constant n → n ≤ maxConstant ∨ IsStringLength source n ∨ n ≤ fields

section IsBounded

variable {source : String} {i : Instruction} {owed left : List Nat}

theorem Instruction.IsBounded.mono {fields fields' : Nat} (h : i.IsBounded source fields)
    (hle : fields ≤ fields') : i.IsBounded source fields' := by
  intro n hn
  rcases h n hn with hmax | hlength | hfields
  · exact .inl hmax
  · exact .inr (.inl hlength)
  · exact .inr (.inr (Nat.le_trans hfields hle))

theorem isBounded_stringCode {text : String} {fields : Nat}
    (hlength : IsStringLength source text.length) (htext : (Lexeme.string text).IsPushable)
    (h : i ∈ stringCode text) : i.IsBounded source fields := by
  rintro n rfl
  rcases mem_stringCode.mp h with hi | hi | ⟨c, hc, hi | hi⟩
  · cases hi
    exact .inr (.inl hlength)
  · cases hi
  · cases hi
    exact .inl (htext c hc)
  · cases hi

theorem MayPut.isBounded {d : Declarations}
    (h : MayPut (fun t => .ok t ∈ (Cursor.ofText source).results) d owed i left) :
    i.IsBounded source (d.count .field) := by
  cases h with
  | @integer t digits ht hlexeme =>
    rintro n ⟨⟩
    have hvalue := isPushable_of_mem_results ht
    rw [hlexeme] at hvalue
    exact .inl hvalue
  | @string t text _ ht hlexeme hi =>
    have hchars := isPushable_of_mem_results ht
    rw [hlexeme] at hchars
    exact isBounded_stringCode ⟨t, text, ht, hlexeme, rfl⟩ hchars hi
  | fixed hn =>
    rintro n ⟨⟩
    exact .inl (Nat.le_trans hn (by decide))
  | objectSize =>
    rintro n ⟨⟩
    exact .inr (.inr (Nat.le_refl _))
  | place => rintro n ⟨⟩
  | plain hi =>
    rintro n rfl
    cases hi

end IsBounded

namespace Declarations

theorem count_le_of_declare {d after : Declarations} {name typeName : String}
    {k l : VariableKind} (h : d.declare name typeName k = .ok after) :
    d.count l ≤ after.count l := by
  unfold declare at h
  split at h
  next => cases h
  next =>
    cases h
    rw [count_insert]
    split <;> omega

end Declarations

section Runs

variable {σ : Type} [CodeSink σ] [LoggedSink σ] {source : String} {before : List Instruction}
  {p q : Progress σ}

/-- The constants in what was put after some code are bounded, with the fields there are now. -/
def Progress.Bounded (source : String) (before : List Instruction) (p : Progress σ) : Prop :=
  ∃ code, LoggedSink.log p.state.sink = before ++ code ∧
    ∀ i ∈ code, i.IsBounded source (p.state.names.count .field)

theorem Act.bounded (h : Act (fun t => .ok t ∈ (Cursor.ofText source).results) p q)
    (hp : p.Bounded source before) : q.Bounded source before := by
  obtain ⟨code, hlog, hcode⟩ := hp
  cases h with
  -- a subroutine that is entered leaves the fields of the class as they are
  | read | misread | unread | enter | move | number => exact ⟨code, hlog, hcode⟩
  | declare hd =>
    have hle := Declarations.count_le_of_declare (l := .field) hd
    exact ⟨code, hlog, fun i hi => (hcode i hi).mono hle⟩
  | @put s _ _ i sink hi hsink =>
    refine ⟨code ++ [i], LoggedSink.log_eq_append hlog hsink, ?_⟩
    intro j hj
    rcases List.mem_append.mp hj with hj | hj
    · exact hcode j hj
    · rw [List.mem_singleton.mp hj]
      exact hi.isBounded

theorem Run.bounded (h : Run (fun t => .ok t ∈ (Cursor.ofText source).results) p q)
    (hp : p.Bounded source before) : q.Bounded source before := by
  induction h with
  | refl => exact hp
  | tail _ hact ih => exact hact.bounded ih

end Runs

section Sources

variable {source : String}

theorem bounded_compileClass {σ : Type} [CodeSink σ] [LoggedSink σ] (source : String) (sink : σ) :
    let (result, after) := (Compilation.ofText source sink).compileClass
    (∃ code, LoggedSink.log after.sink = LoggedSink.log sink ++ code ∧
      ∀ i ∈ code, i.IsBounded source (after.names.count .field)) ∧
    (result = .error .refused → ∃ i, CodeSink.put? after.sink i = none ∧
      i.IsBounded source (after.names.count .field)) := by
  have hoffers : (Compilation.ofText source sink).tokens.Offers
      fun t => .ok t ∈ (Cursor.ofText source).results := by
    refine ⟨fun t ht => ?_, by simp [Compilation.ofText, TokenStream.ofText]⟩
    simpa [Compilation.ofText] using ht
  have hstart : LoggedSink.log (Compilation.ofText source sink).sink = LoggedSink.log sink ++ [] :=
    (List.append_nil _).symm
  rcases compileClass_run hoffers with
    ⟨tokens, hafter, hresult⟩ | ⟨tokens, name, rest, -, hrun, hrefused⟩
  · dsimp only
    rw [hafter]
    exact ⟨⟨[], hstart, by simp⟩, fun hr => absurd hr hresult⟩
  · refine ⟨hrun.bounded ⟨[], hstart, by simp⟩, fun hr => ?_⟩
    obtain ⟨i, left, hi, hput⟩ := hrefused hr
    exact ⟨i, hput, hi.isBounded⟩

/-- The lengths of strings are pushed as they are. -/
theorem push_stringLength {code : List Instruction} (h : compileInstructions source = .ok code)
    {n : Nat} (hn : IsStringLength source n) : .push .constant n ∈ code := by
  obtain ⟨c, ⟨tokens, hresults, hlexemes⟩, -, rfl⟩ := reference_of_compileInstructions h
  obtain ⟨t, text, ht, hlexeme, rfl⟩ := hn
  have htoken : t ∈ tokens := by simpa [hresults] using ht
  have hstring : .string text ∈ c.lexemes := by
    rw [← hlexemes, ← hlexeme]
    exact List.mem_map_of_mem htoken
  exact ClassTree.push_length_code hstring

/-- The constants that a sink gets fit, but for lengths of strings and numbers of fields, and so
does one that it refuses. The length of a string is pushed however long the string is. -/
theorem constants_isBounded (source : String) :
    (∀ (σ : Type) [CodeSink σ] [LoggedSink σ] (sink : σ),
      let (result, after) := (Compilation.ofText source sink).compileClass
      (∃ code, LoggedSink.log after.sink = LoggedSink.log sink ++ code ∧
        ∀ i ∈ code, i.IsBounded source (after.names.count .field)) ∧
      (result = .error .refused → ∃ i, CodeSink.put? after.sink i = none ∧
        i.IsBounded source (after.names.count .field))) ∧
    ∀ code, compileInstructions source = .ok code →
      ∀ n, IsStringLength source n → .push .constant n ∈ code := by
  refine ⟨fun σ _ _ sink => ?_, fun code h n hn => push_stringLength h hn⟩
  exact bounded_compileClass source sink

end Sources

end JackVM
