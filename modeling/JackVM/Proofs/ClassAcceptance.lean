import JackVM.Proofs.ClassReading
import JackVM.Proofs.StatementAcceptance

namespace JackVM

theorem classVariableKind?_keyword (v : ClassVariables) :
    classVariableKind? (.keyword (if v.isField then .kwField else .kwStatic)) = some v.kind := by
  unfold ClassVariables.kind
  cases v.isField <;> rfl

theorem routineKind?_lexeme (k : RoutineKind) : routineKind? k.lexeme = some k := by
  cases k <;> rfl

theorem TypeName.lexeme_ne_symbol (type : TypeName) (s : Symbol) : type.lexeme ≠ .symbol s := by
  cases type <;> simp [TypeName.lexeme]

theorem begins_parameters (p : Parameter) (ps : List Parameter) (xs : List Lexeme) :
    Begins (· ≠ .symbol .closeParen) (parameterLexemes (p :: ps) ++ xs) := by
  cases ps <;> simp [parameterLexemes, Parameter.lexemes, TypeName.lexeme_ne_symbol]

/-- What follows the variables of a class declares no more of them. -/
theorem begins_routines {rs : List RoutineTree} {xs : List Lexeme} :
    Begins (classVariableKind? · = none)
      (rs.flatMap RoutineTree.lexemes ++ .symbol .closeBrace :: xs) := by
  cases rs with
  | nil => simp [classVariableKind?]
  | cons r rs =>
    cases hk : r.kind <;>
      simp [RoutineTree.lexemes, hk, RoutineKind.lexeme, classVariableKind?]

namespace Compilation

variable {σ α β : Type} [CodeSink σ] [OpenSink σ]

/-- A step passes and leaves other names in sight and another subroutine, unless there is a fault,
which is then its error. -/
def Compiles (s : Compilation σ) (x : Compiling σ α) (fault : Option CompileError)
    (d : Declarations) (r? : Option Routine) (code : List Instruction) (labels : Nat) (a : α)
    (rest : List (Except TokenError Token)) : Prop :=
  match fault with
  | none => ∃ τ, x s = .ok a (((s.within d).inside r?).after τ code labels) ∧ τ.upcoming = rest
  | some e => ∃ s', x s = .error e s'

variable {s : Compilation σ} {x : Compiling σ α} {f : α → Compiling σ β} {a : α} {b : β}
  {fault fault' : Option CompileError} {d d' : Declarations} {r? q? : Option Routine}
  {code code' : List Instruction} {n n' : Nat} {mid rest : List (Except TokenError Token)}

theorem Passes.compiles (h : s.Passes x code n a rest) :
    s.Compiles x none s.names s.routine code n a rest :=
  h

theorem Settles.compiles (h : s.Settles x fault code n a rest) :
    s.Compiles x fault s.names s.routine code n a rest := by
  cases fault <;> exact h

namespace Compiles

/-- What another step does after some code is put is done after that code. -/
theorem of_eq {x y : Compiling σ β} {τ : TokenStream} (hxy : y s = x (s.after τ code n))
    (h : (s.after τ code n).Compiles x fault d r? code' n' b rest) :
    s.Compiles y fault d r? (code ++ code') (n + n') b rest := by
  cases fault with
  | some e =>
    obtain ⟨s', hx⟩ := h
    exact ⟨s', hxy.trans hx⟩
  | none =>
    obtain ⟨τ1, hx, hrest⟩ := h
    exact ⟨τ1, by simp [hxy, hx], hrest⟩

/-- What comes after a step may rely on there being no fault so far. -/
theorem bind (h : s.Compiles x fault d r? code n a mid)
    (k : fault = none → ∀ τ, τ.upcoming = mid →
      (((s.within d).inside r?).after τ code n).Compiles (f a) fault' d' q? code' n' b rest) :
    s.Compiles (x >>= f) (fault.or fault') d' q? (code ++ code') (n + n') b rest := by
  cases fault with
  | some e =>
    obtain ⟨s', hx⟩ := h
    exact ⟨s', Compiling.bind_of_error hx⟩
  | none =>
    obtain ⟨τ, hx, hτ⟩ := h
    have hf := k rfl τ hτ
    cases fault' with
    | some e =>
      obtain ⟨s', hf⟩ := hf
      exact ⟨s', (Compiling.bind_of_ok hx).trans hf⟩
    | none =>
      obtain ⟨τ1, hf, hrest⟩ := hf
      refine ⟨τ1, ?_, hrest⟩
      simp [Compiling.bind_of_ok hx, hf]

/-- A step that cannot fail and needs no label. -/
theorem code_then (h : s.Compiles x none d r? code 0 a mid)
    (k : ∀ τ, τ.upcoming = mid →
      (((s.within d).inside r?).after τ code 0).Compiles (f a) fault d' q? code' n b rest) :
    s.Compiles (x >>= f) fault d' q? (code ++ code') n b rest := by
  simpa using h.bind fun _ => k

/-- A step that puts nothing. -/
theorem silent_then (h : s.Compiles x fault d r? [] 0 a mid)
    (k : fault = none → ∀ τ, τ.upcoming = mid →
      (((s.within d).inside r?).after τ [] 0).Compiles (f a) fault' d' q? code n b rest) :
    s.Compiles (x >>= f) (fault.or fault') d' q? code n b rest := by
  simpa using h.bind k

/-- A step that cannot fail and puts nothing. -/
theorem pass_then (h : s.Compiles x none d r? [] 0 a mid)
    (k : ∀ τ, τ.upcoming = mid →
      (((s.within d).inside r?).after τ [] 0).Compiles (f a) fault d' q? code n b rest) :
    s.Compiles (x >>= f) fault d' q? code n b rest :=
  h.silent_then fun _ => k

/-- What comes last cannot fail and puts nothing. -/
theorem then_pass (h : s.Compiles x fault d r? code n a mid)
    (k : ∀ τ, τ.upcoming = mid →
      (((s.within d).inside r?).after τ code n).Compiles (f a) none d' q? [] 0 b rest) :
    s.Compiles (x >>= f) fault d' q? code n b rest := by
  simpa using h.bind fun _ => k

theorem check_then (h : x s = .ok a s) (k : s.Compiles (f a) fault d r? code n b rest) :
    s.Compiles (x >>= f) fault d r? code n b rest := by
  unfold Compiles
  rw [Compiling.bind_of_ok h]
  exact k

theorem setRoutine_then {f : Unit → Compiling σ β}
    (k : (s.inside r?).Compiles (f ()) fault d q? code n b rest) :
    s.Compiles (Compiling.setRoutine r? >>= f) fault d q? code n b rest := by
  unfold Compiles at k ⊢
  rw [Compiling.bind_of_ok (Compiling.setRoutine_run s r?)]
  exact k

theorem put_then {i : Instruction} {f : Unit → Compiling σ β}
    (k : (s.after s.tokens [i] 0).Compiles (f ()) fault d r? code n b rest) :
    s.Compiles (Compiling.put i >>= f) fault d r? (i :: code) n b rest := by
  simpa using of_eq (Compiling.bind_of_ok (Compiling.put_run s i)) k

theorem expectNext_then {f : Unit → Compiling σ β} {c : Symbol} {ms : List Mark}
    {there : List (Except TokenError Token)}
    (h : Checks (.free (.symbol c) :: ms) s.tokens.upcoming there fault')
    (k : ∀ τ, Checks ms τ.upcoming there fault' →
      (s.after τ [] 0).Compiles (f ()) fault d r? code n b rest) :
    s.Compiles (Compiling.expectNext c >>= f) fault d r? code n b rest := by
  obtain ⟨t, mid, hc, ht, h⟩ := checks_free_cons.mp h
  exact pass_then (Passes.expectNext_last hc ht).compiles fun τ hτ => k τ (by rwa [hτ])

theorem next_then {f : Token → Compiling σ β} {ms : List Mark} {t' : Token}
    {rest' : List (Except TokenError Token)}
    (h : Checks ms s.tokens.upcoming (.ok t' :: rest') fault')
    (k : ∀ u τ, Checks ms ((s.after τ [] 0).ahead u) (.ok t' :: rest') fault' →
      (s.after τ [] 0).Compiles (f u) fault d r? code n b rest) :
    s.Compiles (Compiling.next >>= f) fault d r? code n b rest := by
  obtain ⟨u, mid, hu⟩ := h.head
  refine pass_then (Passes.next_last hu).compiles fun τ hτ => k u τ ?_
  rwa [hu, ← hτ] at h

end Compiles

/-- A step succeeds with a result and puts some code, unless there is a fault, which is then its
error. -/
def Puts (s : Compilation σ) (x : Compiling σ α) (fault : Option CompileError)
    (code : List Instruction) (a : α) : Prop :=
  match fault with
  | none => ∃ s', x s = .ok a s' ∧ s'.sink = OpenSink.addAll s.sink code
  | some e => ∃ s', x s = .error e s'

namespace Puts

theorem bind (h : s.Compiles x fault d r? code n a mid)
    (k : ∀ τ, τ.upcoming = mid →
      (((s.within d).inside r?).after τ code n).Puts (f a) fault' code' b) :
    s.Puts (x >>= f) (fault.or fault') (code ++ code') b := by
  cases fault with
  | some e =>
    obtain ⟨s', hx⟩ := h
    exact ⟨s', Compiling.bind_of_error hx⟩
  | none =>
    obtain ⟨τ, hx, hτ⟩ := h
    have hf := k τ hτ
    cases fault' with
    | some e =>
      obtain ⟨s', hf⟩ := hf
      exact ⟨s', (Compiling.bind_of_ok hx).trans hf⟩
    | none =>
      obtain ⟨s', hf, hsink⟩ := hf
      refine ⟨s', (Compiling.bind_of_ok hx).trans hf, ?_⟩
      simp [hsink, OpenSink.addAll]

/-- A step that puts nothing. -/
theorem silent_then (h : s.Compiles x fault d r? [] 0 a mid)
    (k : fault = none → ∀ τ, τ.upcoming = mid →
      (((s.within d).inside r?).after τ [] 0).Puts (f a) fault' code b) :
    s.Puts (x >>= f) (fault.or fault') code b := by
  cases fault with
  | some e =>
    obtain ⟨s', hx⟩ := h
    exact ⟨s', Compiling.bind_of_error hx⟩
  | none =>
    obtain ⟨τ, hx, hτ⟩ := h
    have hf := k rfl τ hτ
    unfold Puts
    rw [Compiling.bind_of_ok hx]
    exact hf

/-- A step that cannot fail and puts nothing. -/
theorem pass_then (h : s.Compiles x none d r? [] 0 a mid)
    (k : ∀ τ, τ.upcoming = mid → (((s.within d).inside r?).after τ [] 0).Puts (f a) fault code b) :
    s.Puts (x >>= f) fault code b :=
  silent_then h fun _ => k

theorem check_then (h : x s = .ok a s) (k : s.Puts (f a) fault code b) :
    s.Puts (x >>= f) fault code b := by
  unfold Puts
  rw [Compiling.bind_of_ok h]
  exact k

theorem setClassName_then {name : String} {f : Unit → Compiling σ β}
    (k : (s.inClass name).Puts (f ()) fault code b) :
    s.Puts (Compiling.setClassName name >>= f) fault code b := by
  unfold Puts at k ⊢
  rw [Compiling.bind_of_ok (Compiling.setClassName_run s name)]
  exact k

theorem next_last (h : s.tokens.upcoming = []) : s.Puts Compiling.next? none [] none := by
  obtain ⟨τ, hn⟩ := Compiling.next?_of_upcoming_nil h
  exact ⟨_, hn, rfl⟩

end Puts

end Compilation

namespace Compiling

variable {σ : Type} {s : Compilation σ} {t t' : Token} {fuel : Nat}
  {rest : List (Except TokenError Token)} {fault : Option CompileError}

theorem typeOf_of_lexeme {type : TypeName} (h : t.lexeme = type.lexeme) :
    typeOf t s = .ok type.lexeme.text s := by
  unfold typeOf
  rw [h]
  cases type <;> rfl

theorem checkReturnType_of_lexeme {returned : Option TypeName}
    (h : t.lexeme = returnedLexeme returned) : checkReturnType t s = .ok () s := by
  unfold checkReturnType
  rw [h]
  rcases returned with _ | _ | _ | _ | _ <;> rfl

theorem isKeyword_kwVoid {returned : Option TypeName} (h : t.lexeme = returnedLexeme returned) :
    t.isKeyword .kwVoid = returned.isNone := by
  unfold Token.isKeyword
  rw [h]
  rcases returned with _ | _ | _ | _ | _ <;> rfl

variable [CodeSink σ] [OpenSink σ] {k : VariableKind}

theorem setNames_compiles (d : Declarations) :
    s.Compiles (setNames d) none d s.routine [] 0 () s.tokens.upcoming :=
  ⟨s.tokens, setNames_run s d, rfl⟩

/-- A name that keeps to its rule is new at its level. -/
theorem accepts_of_new {d : Declarations} {text name : String} (hl : t.lexeme = .identifier name)
    (h : (Rule.new (d.declared k)).fault? t = none) : d.Accepts [⟨k, text, name⟩] := by
  have htext : t.lexeme.text = name := by rw [hl]; rfl
  refine ⟨?_, trivial⟩
  cases hknown : (d.level k).get? name with
  | some v => simp [Rule.fault?, htext, Declarations.find?_declared, hknown] at h
  | none => rfl

theorem accepts_of_group {d : Declarations} {g : NameGroup}
    (h : AllKept (g.marks k (d.declared k))) : d.Accepts (g.declarations k) := by
  rw [Declarations.accepts_iff fun x hx => congrArg _ (NameGroup.kind_of_mem hx)]
  exact NameGroup.keeps_marks.mp ⟨h, d.nodup_declared k⟩

theorem accepts_of_parameters {d : Declarations} {ps : List Parameter}
    (h : AllKept (parameterMarks (d.declared .argument) ps)) :
    d.Accepts (ps.map Parameter.declaration) := by
  rw [Declarations.accepts_iff (k := .argument) (by simp)]
  exact (keeps_parameterMarks _ ps).mp ⟨h, d.nodup_declared .argument⟩

/-- A name is declared unless its level has it already. -/
theorem declareName_compiles {text name : String} (hl : t.lexeme = .identifier name) :
    s.Compiles (declareName t text k) ((Rule.new (s.names.declared k)).fault? t)
      (s.names.addAll [⟨k, text, name⟩]) s.routine [] 0 () s.tokens.upcoming := by
  have htext : t.lexeme.text = name := by rw [hl]; rfl
  rw [Rule.fault?, htext, Declarations.find?_declared]
  cases hknown : (s.names.level k).get? name with
  | some v =>
    refine ⟨s, ?_⟩
    unfold declareName
    rw [bind_of_ok (nameOf_of_lexeme hl), bind_of_ok (names_run s), Declarations.declare, hknown]
    rfl
  | none =>
    refine ⟨s.tokens, ?_, rfl⟩
    unfold declareName
    rw [bind_of_ok (nameOf_of_lexeme hl), bind_of_ok (names_run s), Declarations.declare, hknown]
    rfl

theorem nameList_compiles {text first : String} {others : List String}
    (hfuel : (nameLexemes first others).length ≤ fuel)
    (h : Checks (nameMarks k text (s.names.declared k) first others) s.tokens.upcoming
      (.ok t' :: rest) fault) :
    s.Compiles (nameList text k fuel) fault
      (s.names.addAll ((first :: others).map fun name => ⟨k, text, name⟩)) s.routine [] 0 t'
      rest := by
  induction others generalizing s first fuel fault with
  | nil =>
    obtain ⟨fuel, rfl⟩ : ∃ m, fuel = m + 1 := ⟨fuel - 1, by simp [nameLexemes] at hfuel; omega⟩
    unfold nameList
    refine .next_then h fun u τ hu => ?_
    obtain ⟨hl, _, htail, rfl⟩ := Compilation.checks_ahead hu
    refine .silent_then (declareName_compiles hl) fun _ τ1 hτ1 => ?_
    rw [← hτ1] at htail
    refine .next_then htail fun v τ2 hv => ?_
    obtain ⟨hsemi, hend⟩ := Compilation.checks_free_ahead.mp hv
    obtain ⟨hrest, rfl⟩ := checks_nil.mp hend
    simp only [hsemi]
    exact (Compilation.Settles.next_last hrest).compiles
  | cons other others ih =>
    obtain ⟨fuel, rfl⟩ : ∃ m, fuel = m + 1 := ⟨fuel - 1, by simp [nameLexemes] at hfuel; omega⟩
    simp only [nameLexemes, List.length_cons] at hfuel
    unfold nameList
    refine .next_then h fun u τ hu => ?_
    obtain ⟨hl, _, htail, rfl⟩ := Compilation.checks_ahead hu
    refine .silent_then (declareName_compiles hl) fun hnew τ1 hτ1 => ?_
    rw [← hτ1] at htail
    refine .next_then htail fun v τ2 hv => ?_
    obtain ⟨hcomma, hothers⟩ := Compilation.checks_free_ahead.mp hv
    simp only [hcomma]
    have hdeclared : (s.names.addAll [⟨k, text, first⟩]).declared k =
        ⟨k, text, first⟩ :: s.names.declared k :=
      Declarations.declared_addAll (by simp) (accepts_of_new hl hnew)
    rw [← hdeclared] at hothers
    exact ih (by omega) hothers

theorem typedNames_compiles {g : NameGroup} (hfuel : g.lexemes.length ≤ fuel)
    (h : Checks (g.marks k (s.names.declared k)) s.tokens.upcoming (.ok t' :: rest) fault) :
    s.Compiles (typedNames k fuel) fault (s.names.addAll (g.declarations k)) s.routine [] 0 t'
      rest := by
  simp only [NameGroup.lexemes, List.length_cons] at hfuel
  unfold typedNames
  refine .next_then h fun u τ hu => ?_
  obtain ⟨hl, hnames⟩ := Compilation.checks_free_ahead.mp hu
  exact .check_then (typeOf_of_lexeme hl) (nameList_compiles (by omega) hnames)

theorem classVariables_compiles {vs : List ClassVariables}
    (hfuel : (vs.flatMap ClassVariables.lexemes).length < fuel)
    (hend : classVariableKind? t'.lexeme = none)
    (h : Checks (groupMarks (s.names.declared .field) (vs.map ClassVariables.entry)) (s.ahead t)
      (.ok t' :: rest) fault) :
    s.Compiles (classVariables fuel t) fault
      (s.names.addAll (vs.flatMap fun v => v.group.declarations v.kind)) s.routine [] 0 t'
      rest := by
  induction vs generalizing s t fuel fault with
  | nil =>
    obtain ⟨fuel, rfl⟩ : ∃ m, fuel = m + 1 := ⟨fuel - 1, by omega⟩
    obtain ⟨hhere, rfl⟩ := checks_nil.mp h
    obtain ⟨rfl, hrest⟩ : t = t' ∧ s.tokens.upcoming = rest := by
      simpa [Compilation.ahead] using hhere
    simp only [classVariables, hend]
    exact (Compilation.Settles.pure_last hrest).compiles
  | cons v vs ih =>
    obtain ⟨fuel, rfl⟩ : ∃ m, fuel = m + 1 := ⟨fuel - 1, by omega⟩
    simp only [List.flatMap_cons, ClassVariables.lexemes, List.length_append, List.length_cons]
      at hfuel
    rw [List.flatMap_cons, Declarations.addAll_append]
    obtain ⟨hl, hgroups⟩ := Compilation.checks_free_ahead.mp h
    obtain ⟨mid, _, _, hone, hmore, rfl⟩ := checks_append.mp hgroups
    obtain ⟨u, mid, rfl⟩ := hmore.head
    have hkind : v.kind.isClassLevel = VariableKind.field.isClassLevel := by
      unfold ClassVariables.kind
      cases v.isField <;> rfl
    rw [← Declarations.declared_congr hkind] at hone
    simp only [classVariables, hl, classVariableKind?_keyword]
    refine .silent_then (typedNames_compiles (by omega) hone) fun hnew τ hτ => ?_
    rw [← Declarations.declared_addAll (fun x hx => NameGroup.kind_of_mem hx ▸ hkind)
      (accepts_of_group (hone.fault_eq_none_iff.mp hnew)), ← hτ] at hmore
    exact ih (by omega) hmore

theorem localVariables_compiles {gs : List NameGroup}
    (hfuel : (gs.flatMap fun g => .keyword .kwVar :: g.lexemes).length < fuel)
    (hend : t'.lexeme ≠ .keyword .kwVar)
    (h : Checks (groupMarks (s.names.declared .localVar) (gs.map NameGroup.localEntry)) (s.ahead t)
      (.ok t' :: rest) fault) :
    s.Compiles (localVariables fuel t) fault
      (s.names.addAll (gs.flatMap fun g => g.declarations .localVar)) s.routine [] 0 t' rest := by
  induction gs generalizing s t fuel fault with
  | nil =>
    obtain ⟨fuel, rfl⟩ : ∃ m, fuel = m + 1 := ⟨fuel - 1, by omega⟩
    obtain ⟨hhere, rfl⟩ := checks_nil.mp h
    obtain ⟨rfl, hrest⟩ : t = t' ∧ s.tokens.upcoming = rest := by
      simpa [Compilation.ahead] using hhere
    unfold localVariables
    rw [if_neg fun hk => hend (Token.isKeyword_iff.mp hk)]
    exact (Compilation.Settles.pure_last hrest).compiles
  | cons g gs ih =>
    obtain ⟨fuel, rfl⟩ : ∃ m, fuel = m + 1 := ⟨fuel - 1, by omega⟩
    simp only [List.flatMap_cons, List.length_append, List.length_cons] at hfuel
    rw [List.flatMap_cons, Declarations.addAll_append]
    obtain ⟨hl, hgroups⟩ := Compilation.checks_free_ahead.mp h
    obtain ⟨mid, _, _, hone, hmore, rfl⟩ := checks_append.mp hgroups
    obtain ⟨u, mid, rfl⟩ := hmore.head
    unfold localVariables
    rw [if_pos (Token.isKeyword_iff.mpr hl)]
    refine .silent_then (typedNames_compiles (by omega) hone) fun hnew τ hτ => ?_
    rw [← Declarations.declared_addAll (fun x hx => NameGroup.kind_of_mem hx ▸ rfl)
      (accepts_of_group (hone.fault_eq_none_iff.mp hnew)), ← hτ] at hmore
    exact ih (by omega) hmore

theorem parameters_compiles {p : Parameter} {ps : List Parameter}
    (hfuel : (parameterLexemes (p :: ps)).length < fuel) (hend : t'.lexeme = .symbol .closeParen)
    (h : Checks (parameterMarks (s.names.declared .argument) (p :: ps)) (s.ahead t)
      (.ok t' :: rest) fault) :
    s.Compiles (parameters fuel t) fault (s.names.addAll ((p :: ps).map Parameter.declaration))
      s.routine [] 0 t' rest := by
  induction ps generalizing s t p fuel fault with
  | nil =>
    obtain ⟨fuel, rfl⟩ : ∃ m, fuel = m + 1 := ⟨fuel - 1, by omega⟩
    obtain ⟨hl, hnamed⟩ := Compilation.checks_free_ahead.mp h
    unfold parameters
    refine .check_then (typeOf_of_lexeme hl) (.next_then hnamed fun u τ hu => ?_)
    obtain ⟨hname, _, hlast, rfl⟩ := Compilation.checks_ahead hu
    obtain ⟨hrest, rfl⟩ := checks_nil.mp hlast
    refine .silent_then (declareName_compiles hname) fun _ τ1 hτ1 => ?_
    refine .pass_then (Compilation.Passes.next_last (hτ1.trans hrest)).compiles fun τ2 hτ2 => ?_
    have hcomma : ¬t'.isSymbol .comma = true := by simp [Token.isSymbol, hend]
    rw [if_neg hcomma]
    exact (Compilation.Settles.pure_last hτ2).compiles
  | cons q ps ih =>
    obtain ⟨fuel, rfl⟩ : ∃ m, fuel = m + 1 := ⟨fuel - 1, by omega⟩
    simp only [parameterLexemes, List.length_append, List.length_cons] at hfuel
    obtain ⟨hl, hnamed⟩ := Compilation.checks_free_ahead.mp h
    unfold parameters
    refine .check_then (typeOf_of_lexeme hl) (.next_then hnamed fun u τ hu => ?_)
    obtain ⟨hname, _, htail, rfl⟩ := Compilation.checks_ahead hu
    refine .silent_then (declareName_compiles hname) fun hnew τ1 hτ1 => ?_
    rw [← hτ1] at htail
    refine .next_then htail fun v τ2 hv => ?_
    obtain ⟨hcomma, hmore⟩ := Compilation.checks_free_ahead.mp hv
    rw [if_pos (Token.isSymbol_iff.mpr hcomma)]
    have hdeclared : (s.names.addAll [p.declaration]).declared .argument =
        p.declaration :: s.names.declared .argument :=
      Declarations.declared_addAll (by simp) (accepts_of_new hname hnew)
    rw [← hdeclared] at hmore
    refine .next_then hmore fun w τ3 hw => ?_
    exact ih (by omega) hw

theorem parameterList_compiles {ps : List Parameter} (hfuel : (parameterLexemes ps).length < fuel)
    (h : Checks (.free (.symbol .openParen) :: (parameterMarks (s.names.declared .argument) ps ++
      [Mark.free (.symbol .closeParen)])) s.tokens.upcoming (.ok t' :: rest) fault) :
    s.Compiles (parameterList fuel) fault (s.names.addAll (ps.map Parameter.declaration)) s.routine
      [] 0 () (.ok t' :: rest) := by
  unfold parameterList
  refine .expectNext_then h fun τ h => .next_then h fun u τ1 hu => ?_
  cases ps with
  | nil =>
    obtain ⟨hclose, hend⟩ := Compilation.checks_free_ahead.mp hu
    obtain ⟨hrest, rfl⟩ := checks_nil.mp hend
    rw [if_pos (Token.isSymbol_iff.mpr hclose)]
    exact .check_then rfl ⟨τ1, expect_of_lexeme hclose, hrest⟩
  | cons p ps =>
    obtain ⟨mid, _, _, hps, hlast, rfl⟩ := checks_append.mp hu
    obtain ⟨v, mid1, hclose, rfl, hend⟩ := checks_free_cons.mp hlast
    obtain ⟨rfl, rfl⟩ := checks_nil.mp hend
    obtain ⟨_, _, hahead, hstarts⟩ := hps.begins (by simpa using begins_parameters p ps [v.lexeme])
    cases hahead
    rw [if_neg fun hu => hstarts (Token.isSymbol_iff.mp hu)]
    refine .silent_then (parameters_compiles hfuel hclose hps) fun _ τ2 hτ2 => ?_
    exact ⟨τ2, expect_of_lexeme hclose, hτ2⟩

/-- Where the names of a subroutine are new, its statements are read with them in sight. -/
theorem routineBody_compiles {r : Routine} {gs : List NameGroup} {ss : List Statement} {ρ : Scope}
    {d : Declarations} (hd : d = s.names.addAll (gs.flatMap fun g => g.declarations .localVar))
    (hfuel : 4 * ((gs.flatMap fun g => .keyword .kwVar :: g.lexemes) ++
      statementLexemes ss).length + 1 ≤ fuel)
    (hscope : AllKept (groupMarks (s.names.declared .localVar) (gs.map NameGroup.localEntry)) →
      ρ = ⟨s.className, r, d.find?⟩)
    (hss : StatementsReturn r.returnsVoid ss)
    (h : Checks (bracedMarks (groupMarks (s.names.declared .localVar)
      (gs.map NameGroup.localEntry) ++ statementMarks ρ ss)) s.tokens.upcoming (.ok t' :: rest)
      fault)
    (hs : s.routine = some r) :
    s.Compiles (routineBody r.name r.kind fuel) fault d s.routine
      (.function s!"{s.className}.{r.name}" (d.count .localVar) ::
        (prologue r.kind (d.count .field) ++ statementCode ρ ss s.labels.nextNumber))
      (labelCount ss) () (.ok t' :: rest) := by
  rw [List.length_append] at hfuel
  unfold routineBody
  refine .expectNext_then h fun τ h => .next_then h fun u τ1 hu => ?_
  obtain ⟨mid, _, _, hinner, hlast, rfl⟩ := checks_append.mp hu
  obtain ⟨mid1, _, _, hlocals, hbody, rfl⟩ := checks_append.mp hinner
  obtain ⟨w, mid2, hclose, rfl, hend⟩ := checks_free_cons.mp hlast
  obtain ⟨rfl, rfl⟩ := checks_nil.mp hend
  obtain ⟨v, mid3, rfl, -, hv⟩ := statements_head hbody hclose
  rw [Option.or_assoc]
  refine .silent_then (localVariables_compiles (by omega) hv hlocals) fun hnew τ2 hτ2 => ?_
  obtain rfl := hscope (hlocals.fault_eq_none_iff.mp hnew)
  subst hd
  rw [← List.append_nil (statementCode _ _ _), ← Nat.add_zero (labelCount ss)]
  refine .check_then (names_run _) (.check_then (className_run _) (.put_then ?_))
  refine .code_then (putAll_passes _).compiles fun τ3 hτ3 => ?_
  rw [← hτ3.trans hτ2] at hbody
  refine .bind (Compilation.Settles.compiles
    ((followsStatements r fuel).statements (by omega) hss hclose hbody hs)) fun _ τ4 hτ4 => ?_
  exact ⟨τ4, expectBlockEnd_of_lexeme hclose, hτ4⟩

section Routines

variable {c : ClassHead}

/-- Where all names are new, those in sight inside a subroutine are those of its scope. -/
theorem scope_inRoutine {d : Declarations} {r : RoutineTree} (hclass : d.OfClass c)
    (hnames : (c.declarations.map Declaration.name).Nodup)
    (hr : (r.declarations.map Declaration.name).Nodup) :
    c.scope r = ⟨c.name, ⟨r.name, r.kind, r.returned.isNone⟩, (d.inRoutine r).find?⟩ := by
  rw [Declarations.find?_inRoutine hclass hnames hr]
  rfl

/-- The names in sight inside a subroutine are left in sight after it. -/
theorem routine_compiles {r : RoutineTree} (hfuel : 4 * r.lexemes.length ≤ fuel)
    (hclass : s.names.OfClass c) (hnames : (c.declarations.map Declaration.name).Nodup)
    (hr : r.Grammatical) (h : Checks (r.marks c) (s.ahead t) (.ok t' :: rest) fault)
    (hname : s.className = c.name) :
    s.Compiles (routine r.kind fuel) fault (s.names.inRoutine r) none
      (c.routineCode r s.labels.nextNumber) (labelCount r.body) t' rest := by
  simp only [RoutineTree.lexemes, braced, List.length_cons, List.length_append, List.length_nil]
    at hfuel
  obtain ⟨-, h⟩ := Compilation.checks_free_ahead.mp h
  unfold routine
  refine .next_then h fun u τ hu => ?_
  obtain ⟨hreturned, h⟩ := Compilation.checks_free_ahead.mp hu
  refine .check_then (checkReturnType_of_lexeme hreturned) (.next_then h fun v τ1 hv => ?_)
  obtain ⟨hrname, h⟩ := Compilation.checks_free_ahead.mp hv
  rw [← List.singleton_append (l := bracedMarks _), ← List.append_assoc, ← List.cons_append] at h
  obtain ⟨mid, _, _, hlist, hbraced, rfl⟩ := checks_append.mp h
  obtain ⟨w, mid, rfl⟩ := hbraced.head
  refine .check_then (nameOf_of_lexeme hrname) (.check_then (names_run _) ?_)
  refine .pass_then (setNames_compiles _) fun τ2 hτ2 => .setRoutine_then ?_
  rw [← hτ2] at hlist
  have hentered : (s.names.enterSubroutine (r.kind = .method)).declared .argument = [] := rfl
  rw [← hentered] at hlist
  refine .silent_then (parameterList_compiles (by omega) hlist) fun hnew τ3 hτ3 => ?_
  have hparameters : AllKept (parameterMarks [] r.parameters) := by
    simpa [hentered] using hlist.fault_eq_none_iff.mp hnew
  have hdeclared : ((s.names.enterSubroutine (r.kind = .method)).addAll
      (r.parameters.map Parameter.declaration)).declared .localVar =
        (r.parameters.map Parameter.declaration).reverse := by
    rw [Declarations.declared_addAll (by simp [VariableKind.isClassLevel])
      (accepts_of_parameters (hentered ▸ hparameters))]
    exact List.append_nil _
  rw [← hτ3, ← hdeclared] at hbraced
  rw [isKeyword_kwVoid hreturned, ClassHead.routineCode, ClassHead.bodyCode,
    ← Declarations.count_localVar_inRoutine (d := s.names) (r := r),
    ← Declarations.count_field_inRoutine (r := r) hclass, ← hname]
  refine .then_pass (routineBody_compiles (r := ⟨r.name, r.kind, r.returned.isNone⟩)
    Declarations.addAll_append (by simp only [List.length_append]; omega) (fun hlocals => ?_) hr
    hbraced rfl) fun τ4 hτ4 => .setRoutine_then (Compilation.Settles.next_last hτ4).compiles
  have hkept : AllKept (groupMarks (r.parameters.map Parameter.declaration).reverse
      (r.locals.map NameGroup.localEntry)) := by
    rw [← hdeclared]
    exact hlocals
  have hown := RoutineTree.keeps_declarations.mp ⟨hparameters, hkept⟩
  rw [scope_inRoutine hclass hnames hown, ← hname]
  rfl

theorem routines_compiles {rs : List RoutineTree}
    (hfuel : 4 * (rs.flatMap RoutineTree.lexemes).length + 1 ≤ fuel)
    (hclass : s.names.OfClass c) (hnames : (c.declarations.map Declaration.name).Nodup)
    (hrs : ∀ r ∈ rs, r.Grammatical) (hend : t'.lexeme = .symbol .closeBrace)
    (h : Checks (rs.flatMap (RoutineTree.marks c)) (s.ahead t) (.ok t' :: rest) fault)
    (hname : s.className = c.name) :
    s.Compiles (routines fuel t) fault (rs.foldl Declarations.inRoutine s.names)
      (rs.foldl (fun _ _ => none) s.routine) (c.routinesCode rs s.labels.nextNumber)
      (routineLabels rs) t' rest := by
  induction rs generalizing s t fuel fault with
  | nil =>
    obtain ⟨fuel, rfl⟩ : ∃ m, fuel = m + 1 := ⟨fuel - 1, by omega⟩
    obtain ⟨hhere, rfl⟩ := checks_nil.mp h
    obtain ⟨rfl, hrest⟩ : t = t' ∧ s.tokens.upcoming = rest := by
      simpa [Compilation.ahead] using hhere
    simp only [routines, hend, routineKind?]
    exact (Compilation.Settles.pure_last hrest).compiles
  | cons r rs ih =>
    obtain ⟨fuel, rfl⟩ : ∃ m, fuel = m + 1 := ⟨fuel - 1, by omega⟩
    have hpos : 0 < r.lexemes.length := by simp [RoutineTree.lexemes]
    simp only [List.flatMap_cons, List.length_append] at hfuel
    obtain ⟨mid, _, _, hone, hmore, rfl⟩ := checks_append.mp h
    obtain ⟨u, mid, rfl⟩ := hmore.head
    have hl : t.lexeme = r.kind.lexeme := (Compilation.checks_free_ahead.mp hone).1
    simp only [routines, hl, routineKind?_lexeme]
    refine .bind (routine_compiles (by omega) hclass hnames (hrs r (by simp)) hone hname)
      fun _ τ hτ => ?_
    rw [← hτ] at hmore
    exact ih (by omega) (Declarations.ofClass_inRoutine hclass) (fun q hq => hrs q (by simp [hq]))
      hmore hname

theorem routines_head {rs : List RoutineTree} {here : List (Except TokenError Token)}
    (h : Checks (rs.flatMap (RoutineTree.marks c)) here (.ok t' :: rest) fault)
    (hend : t'.lexeme = .symbol .closeBrace) :
    ∃ u mid, here = .ok u :: mid ∧ classVariableKind? u.lexeme = none :=
  h.begins (by simpa [hend, List.map_flatMap] using begins_routines)

/-- A class by the grammar is compiled to its code up to the first token that breaks its rule. -/
theorem classDeclaration_puts {c : ClassTree} (hfuel : 4 * c.lexemes.length ≤ fuel)
    (hc : c.Grammatical) (h : Checks c.marks (s.ahead t) [] fault) :
    s.Puts (classDeclaration fuel t) fault (c.routinesCode c.routines s.labels.nextNumber) none := by
  simp only [ClassTree.lexemes, braced, List.length_cons, List.length_append, List.length_nil]
    at hfuel
  obtain ⟨hk, h⟩ := Compilation.checks_free_ahead.mp h
  obtain ⟨v, mid, hname, hv, hbraced⟩ := checks_free_cons.mp h
  obtain ⟨b, mid1, hb, rfl, hinner⟩ := checks_free_cons.mp hbraced
  obtain ⟨mid2, _, _, hmembers, hlast, rfl⟩ := checks_append.mp hinner
  obtain ⟨w, mid3, hclose, rfl, hend⟩ := checks_free_cons.mp hlast
  obtain ⟨rfl, rfl⟩ := checks_nil.mp hend
  obtain ⟨mid4, _, _, hvariables, hroutines, rfl⟩ := checks_append.mp hmembers
  obtain ⟨y, mid5, rfl, hy⟩ := routines_head hroutines hclose
  obtain ⟨x, mid6, rfl⟩ := hvariables.head
  unfold classDeclaration
  rw [if_pos (Token.isKeyword_iff.mpr hk)]
  refine .pass_then (Compilation.Passes.next_last hv).compiles fun τ hτ => ?_
  refine .check_then (nameOf_of_lexeme hname) (.setClassName_then (.check_then (names_run _) ?_))
  refine .pass_then (setNames_compiles _) fun τ1 hτ1 => ?_
  have hopen := hτ1.trans hτ
  refine .pass_then (Compilation.Passes.expectNext_last hb hopen).compiles fun τ2 hτ2 => ?_
  refine .pass_then (Compilation.Passes.next_last hτ2).compiles fun τ3 hτ3 => ?_
  have hentered : s.names.enterClass.declared .field = [] := rfl
  rw [← hτ3, ← hentered] at hvariables
  rw [Option.or_assoc]
  refine .silent_then (classVariables_compiles (by omega) hy hvariables) fun hnew τ4 hτ4 => ?_
  have hnames := ClassHead.keeps_declarations.mp (hvariables.fault_eq_none_iff.mp hnew)
  have hclass := Declarations.ofClass_classVariables hnames
  rw [← hτ4] at hroutines
  rw [← List.append_nil (c.routinesCode _ _)]
  refine .bind (routines_compiles (by omega) hclass hnames hc hclose hroutines rfl) fun τ5 hτ5 => ?_
  rw [if_pos (Token.isSymbol_iff.mpr hclose)]
  exact .next_last hτ5

theorem wholeSource_puts {c : ClassTree} (hfuel : 4 * c.lexemes.length ≤ fuel)
    (hc : c.Grammatical) (h : Checks c.marks s.tokens.upcoming [] fault) :
    s.Puts (wholeSource fuel) fault (c.routinesCode c.routines s.labels.nextNumber) () := by
  obtain ⟨t, mid, -, ht, -⟩ := checks_free_cons.mp h
  unfold wholeSource
  refine .pass_then (Compilation.Passes.next_last ht).compiles fun τ hτ => ?_
  rw [ht, ← hτ] at h
  have hdone := classDeclaration_puts (s := s.after τ [] 0) hfuel hc h
  cases fault with
  | some e =>
    obtain ⟨s', hrun⟩ := hdone
    exact ⟨s', bind_of_error hrun⟩
  | none =>
    obtain ⟨s', hrun, hsink⟩ := hdone
    exact ⟨s', bind_of_ok hrun, hsink⟩

end Routines

end Compiling

end JackVM
