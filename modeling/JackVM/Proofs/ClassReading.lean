import JackVM.Proofs.DeclaredNames
import JackVM.Proofs.StatementReading

namespace JackVM

namespace Compilation

variable {σ : Type} {s s' mid : Compilation σ} {d : Declarations} {r? : Option Routine}
  {name : String}

/-- The same in a class of another name. -/
def inClass (s : Compilation σ) (name : String) : Compilation σ :=
  { s with className := name }

/-- The same with other names in sight. -/
def within (s : Compilation σ) (d : Declarations) : Compilation σ :=
  { s with names := d }

/-- The same inside of another subroutine, or outside of all. -/
def inside (s : Compilation σ) (r? : Option Routine) : Compilation σ :=
  { s with routine := r? }

@[simp] theorem inClass_tokens : (s.inClass name).tokens = s.tokens := rfl

@[simp] theorem inClass_names : (s.inClass name).names = s.names := rfl

@[simp] theorem inClass_labels : (s.inClass name).labels = s.labels := rfl

@[simp] theorem inClass_className : (s.inClass name).className = name := rfl

@[simp] theorem inClass_sink : (s.inClass name).sink = s.sink := rfl

@[simp] theorem within_tokens : (s.within d).tokens = s.tokens := rfl

@[simp] theorem within_names : (s.within d).names = d := rfl

@[simp] theorem within_labels : (s.within d).labels = s.labels := rfl

@[simp] theorem within_className : (s.within d).className = s.className := rfl

@[simp] theorem within_routine : (s.within d).routine = s.routine := rfl

@[simp] theorem within_sink : (s.within d).sink = s.sink := rfl

@[simp] theorem inside_tokens : (s.inside r?).tokens = s.tokens := rfl

@[simp] theorem inside_names : (s.inside r?).names = s.names := rfl

@[simp] theorem inside_labels : (s.inside r?).labels = s.labels := rfl

@[simp] theorem inside_className : (s.inside r?).className = s.className := rfl

@[simp] theorem inside_routine : (s.inside r?).routine = r? := rfl

@[simp] theorem inside_sink : (s.inside r?).sink = s.sink := rfl

@[simp] theorem within_within (d' : Declarations) : (s.within d).within d' = s.within d' := rfl

@[simp] theorem inside_inside (q? : Option Routine) : (s.inside r?).inside q? = s.inside q? := rfl

@[simp] theorem within_inside : (s.inside r?).within d = (s.within d).inside r? := rfl

@[simp] theorem ahead_within (t : Token) : (s.within d).ahead t = s.ahead t := rfl

@[simp] theorem ahead_inside (t : Token) : (s.inside r?).ahead t = s.ahead t := rfl

variable [CodeSink σ] [OpenSink σ]

@[simp] theorem after_inClass (τ : TokenStream) (code : List Instruction) (n : Nat) :
    (s.after τ code n).inClass name = (s.inClass name).after τ code n := rfl

@[simp] theorem after_within (τ : TokenStream) (code : List Instruction) (n : Nat) :
    (s.after τ code n).within d = (s.within d).after τ code n := rfl

@[simp] theorem after_inside (τ : TokenStream) (code : List Instruction) (n : Nat) :
    (s.after τ code n).inside r? = (s.inside r?).after τ code n := rfl

/-- From one state to another lie declarations with these lexemes, and they are made. -/
def Introduces (s : Compilation σ) (here : List (Except TokenError Token)) (xs : List Lexeme)
    (declared : List Declaration) (t' : Token) (s' : Compilation σ) : Prop :=
  s.names.Accepts declared ∧ ∃ τ, s' = (s.within (s.names.addAll declared)).after τ [] 0 ∧
    Spans xs here (.ok t' :: τ.upcoming)

variable {here : List (Except TokenError Token)} {xs ys : List Lexeme}
  {as bs : List Declaration} {t t' : Token}

theorem introduces_nil : s.Introduces (s.ahead t) [] [] t s :=
  ⟨trivial, s.tokens, rfl, spans_nil.mpr rfl⟩

theorem Introduces.trans (h : s.Introduces here xs as t mid)
    (k : mid.Introduces (mid.ahead t) ys bs t' s') :
    s.Introduces here (xs ++ ys) (as ++ bs) t' s' := by
  obtain ⟨has, τ, rfl, hxs⟩ := h
  obtain ⟨hbs, τ1, rfl, hys⟩ := k
  refine ⟨Declarations.accepts_append.mpr ⟨has, hbs⟩, τ1, ?_, hxs.trans hys⟩
  simp [Declarations.addAll_append]

theorem Introduces.cons {x : Lexeme} (ht : t.lexeme = x)
    (h : s.Introduces here xs as t' s') : s.Introduces (.ok t :: here) (x :: xs) as t' s' := by
  obtain ⟨has, τ, rfl, hxs⟩ := h
  exact ⟨has, τ, rfl, hxs.cons ht⟩

/-- The token that was read last is passed too. -/
theorem Introduces.pass {x : Lexeme} {τ : TokenStream} (h : s.Introduces here xs as t mid)
    (ht : t.lexeme = x) (hu : mid.tokens.upcoming = .ok t' :: τ.upcoming) :
    s.Introduces here (xs ++ [x]) as t' (mid.after τ [] 0) := by
  obtain ⟨has, τ1, rfl, hxs⟩ := h
  refine ⟨has, τ, by simp, hxs.trans ?_⟩
  exact .cons ht (spans_nil.mpr hu)

end Compilation

theorem classVariableKind?_ok {x : Lexeme} {k : VariableKind} (h : classVariableKind? x = some k) :
    ∃ isField : Bool, x = .keyword (if isField then .kwField else .kwStatic) ∧
      k = if isField then .field else .staticVar := by
  unfold classVariableKind? at h
  split at h <;> cases h
  · exact ⟨false, rfl, rfl⟩
  · exact ⟨true, rfl, rfl⟩

theorem routineKind?_ok {x : Lexeme} {k : RoutineKind} (h : routineKind? x = some k) :
    x = k.lexeme := by
  unfold routineKind? at h
  split at h <;> cases h <;> rfl

namespace Compiling

variable {σ : Type} {s s' : Compilation σ} {t t' : Token} {u : Unit}

theorem typeOf_ok {text : String} (h : typeOf t s = .ok text s') :
    ∃ type : TypeName, t.lexeme = type.lexeme ∧ text = type.lexeme.text ∧ s = s' := by
  unfold typeOf at h
  obtain ⟨y, hy, h⟩ := of_run h
  split at hy <;> subst hy
  next hl =>
    obtain ⟨rfl, rfl⟩ := pure_ok h
    exact ⟨.int, hl, by rw [hl]; rfl, rfl⟩
  next hl =>
    obtain ⟨rfl, rfl⟩ := pure_ok h
    exact ⟨.char, hl, by rw [hl]; rfl, rfl⟩
  next hl =>
    obtain ⟨rfl, rfl⟩ := pure_ok h
    exact ⟨.boolean, hl, by rw [hl]; rfl, rfl⟩
  next name hl =>
    obtain ⟨rfl, rfl⟩ := pure_ok h
    exact ⟨.ofClass name, hl, by rw [hl]; rfl, rfl⟩
  next => exact (throw_ok h).elim

theorem checkReturnType_ok (h : checkReturnType t s = .ok u s') :
    ∃ returned, t.lexeme = returnedLexeme returned ∧ t.isKeyword .kwVoid = returned.isNone ∧
      s = s' := by
  unfold checkReturnType at h
  obtain ⟨y, hy, h⟩ := of_run h
  split at hy <;> subst hy
  next hl => exact ⟨some .int, hl, by simp [Token.isKeyword, hl], (pure_ok h).2⟩
  next hl => exact ⟨some .char, hl, by simp [Token.isKeyword, hl], (pure_ok h).2⟩
  next hl => exact ⟨some .boolean, hl, by simp [Token.isKeyword, hl], (pure_ok h).2⟩
  next hl => exact ⟨none, hl, by simp [Token.isKeyword, hl], (pure_ok h).2⟩
  next name hl => exact ⟨some (.ofClass name), hl, by simp [Token.isKeyword, hl], (pure_ok h).2⟩
  next => exact (throw_ok h).elim

theorem setNames_run (s : Compilation σ) (d : Declarations) :
    setNames d s = .ok () (s.within d) := rfl

theorem setClassName_run (s : Compilation σ) (name : String) :
    setClassName name s = .ok () (s.inClass name) := rfl

theorem setRoutine_run (s : Compilation σ) (r? : Option Routine) :
    setRoutine r? s = .ok () (s.inside r?) := rfl

theorem declareName_ok {text : String} {k : VariableKind}
    (h : declareName t text k s = .ok u s') :
    ∃ name, t.lexeme = .identifier name ∧ s.names.Accepts [⟨k, text, name⟩] ∧
      s' = s.within (s.names.addAll [⟨k, text, name⟩]) := by
  unfold declareName at h
  obtain ⟨name, mid, h1, h⟩ := bind_ok h
  obtain ⟨hl, rfl⟩ := nameOf_ok h1
  rw [bind_of_ok (names_run s)] at h
  unfold Declarations.declare at h
  cases hn : (s.names.level k).get? name with
  | some v =>
    simp only [hn] at h
    exact (throw_ok h).elim
  | none =>
    simp only [hn] at h
    cases h
    exact ⟨name, hl, ⟨hn, trivial⟩, rfl⟩

section Declarations

variable [CodeSink σ] [OpenSink σ] {fuel : Nat} {k : VariableKind}

/-- A name is read and declared, and the token after it is read. -/
theorem declareNext_then {α : Type} {b : α} {text : String} {f : Token → Compiling σ α}
    (h : (do declareName (← next) text k; let t ← next; f t : Compiling σ α) s = .ok b s') :
    ∃ name t' mid, s.Introduces s.tokens.upcoming [.identifier name] [⟨k, text, name⟩] t' mid ∧
      f t' mid = .ok b s' := by
  obtain ⟨t, τ, hu, -, h⟩ := next_then h
  obtain ⟨_, mid, h1, h⟩ := bind_ok h
  obtain ⟨name, hl, hnew, rfl⟩ := declareName_ok h1
  obtain ⟨t', τ1, hu1, -, h⟩ := next_then h
  refine ⟨name, t', _, ⟨hnew, τ1, rfl, ?_⟩, h⟩
  rw [hu]
  exact .cons hl (spans_nil.mpr hu1)

theorem nameList_ok {text : String} (h : nameList text k fuel s = .ok t' s') :
    ∃ first others, s.Introduces s.tokens.upcoming (nameLexemes first others)
      ((first :: others).map fun name => ⟨k, text, name⟩) t' s' := by
  induction fuel generalizing s with
  | zero => exact (throw_ok h).elim
  | succ fuel ih =>
    unfold nameList at h
    obtain ⟨name, v, mid, hone, h⟩ := declareNext_then h
    obtain ⟨y, hy, h⟩ := of_run h
    split at hy <;> subst hy
    next hcomma =>
      obtain ⟨first, others, hrest⟩ := ih h
      exact ⟨name, first :: others, hone.trans (hrest.cons hcomma)⟩
    next hsemi =>
      obtain ⟨τ, rfl, hu, -⟩ := next_ok h
      exact ⟨name, [], hone.pass hsemi hu⟩
    next => exact (throw_ok h).elim

theorem typedNames_ok (h : typedNames k fuel s = .ok t' s') :
    ∃ g : NameGroup, s.Introduces s.tokens.upcoming g.lexemes (g.declarations k) t' s' := by
  unfold typedNames at h
  obtain ⟨t, τ, hu, -, h⟩ := next_then h
  obtain ⟨text, mid, h1, h⟩ := bind_ok h
  obtain ⟨type, hl, rfl, rfl⟩ := typeOf_ok h1
  obtain ⟨first, others, hrest⟩ := nameList_ok h
  refine ⟨⟨type, first, others⟩, ?_⟩
  rw [hu]
  exact Compilation.Introduces.cons hl hrest

theorem classVariables_ok (h : classVariables fuel t s = .ok t' s') :
    ∃ vs : List ClassVariables, s.Introduces (s.ahead t) (vs.flatMap ClassVariables.lexemes)
      (vs.flatMap fun v => v.group.declarations v.kind) t' s' := by
  induction fuel generalizing s t with
  | zero => exact (throw_ok h).elim
  | succ fuel ih =>
    unfold classVariables at h
    obtain ⟨y, hy, h⟩ := of_run h
    split at hy <;> subst hy
    next k hk =>
      obtain ⟨isField, hl, rfl⟩ := classVariableKind?_ok hk
      obtain ⟨v, mid, h1, h⟩ := bind_ok h
      obtain ⟨g, hone⟩ := typedNames_ok h1
      obtain ⟨vs, hrest⟩ := ih h
      exact ⟨⟨isField, g⟩ :: vs, (hone.cons hl).trans hrest⟩
    next =>
      obtain ⟨rfl, rfl⟩ := pure_ok h
      exact ⟨[], Compilation.introduces_nil⟩

theorem localVariables_ok (h : localVariables fuel t s = .ok t' s') :
    ∃ gs : List NameGroup, s.Introduces (s.ahead t)
      (gs.flatMap fun g => .keyword .kwVar :: g.lexemes)
      (gs.flatMap fun g => g.declarations .localVar) t' s' := by
  induction fuel generalizing s t with
  | zero => exact (throw_ok h).elim
  | succ fuel ih =>
    unfold localVariables at h
    obtain ⟨y, hy, h⟩ := of_run h
    split at hy <;> subst hy
    next hk =>
      obtain ⟨v, mid, h1, h⟩ := bind_ok h
      obtain ⟨g, hone⟩ := typedNames_ok h1
      obtain ⟨gs, hrest⟩ := ih h
      exact ⟨g :: gs, (hone.cons (Token.isKeyword_iff.mp hk)).trans hrest⟩
    next =>
      obtain ⟨rfl, rfl⟩ := pure_ok h
      exact ⟨[], Compilation.introduces_nil⟩

theorem parameters_ok (h : parameters fuel t s = .ok t' s') :
    ∃ p ps, s.Introduces (s.ahead t) (parameterLexemes (p :: ps))
      ((p :: ps).map Parameter.declaration) t' s' := by
  induction fuel generalizing s t with
  | zero => exact (throw_ok h).elim
  | succ fuel ih =>
    unfold parameters at h
    obtain ⟨text, mid, h1, h⟩ := bind_ok h
    obtain ⟨type, hl, rfl, rfl⟩ := typeOf_ok h1
    obtain ⟨name, v, mid, hname, h⟩ := declareNext_then h
    have hone := hname.cons hl
    obtain ⟨y, hy, h⟩ := of_run h
    split at hy <;> subst hy
    next hcomma =>
      obtain ⟨x, τ, hx, -, h⟩ := next_then h
      obtain ⟨p, ps, hrest⟩ := ih h
      have hboth := (hone.pass (Token.isSymbol_iff.mp hcomma) hx).trans hrest
      exact ⟨⟨type, name⟩, p :: ps, hboth⟩
    next =>
      obtain ⟨rfl, rfl⟩ := pure_ok h
      exact ⟨⟨type, name⟩, [], hone⟩

theorem parameterList_ok (h : parameterList fuel s = .ok u s') :
    ∃ ps τ, s.names.Accepts (ps.map Parameter.declaration) ∧
      s' = (s.within (s.names.addAll (ps.map Parameter.declaration))).after τ [] 0 ∧
      Spans (.symbol .openParen :: (parameterLexemes ps ++ [Lexeme.symbol .closeParen]))
        s.tokens.upcoming τ.upcoming := by
  unfold parameterList at h
  obtain ⟨τ, hopen, h⟩ := expectNext_then h
  obtain ⟨t, τ1, hu, -, h⟩ := next_then h
  simp only [Compilation.after_tokens] at hu
  rw [hu] at hopen
  obtain ⟨y, hy, h⟩ := of_run h
  split at hy <;> subst hy
  next =>
    obtain ⟨v, mid, h1, h⟩ := bind_ok h
    obtain ⟨rfl, rfl⟩ := pure_ok h1
    obtain ⟨hclose, rfl⟩ := expect_ok h
    exact ⟨[], τ1, trivial, rfl, hopen.trans (.cons hclose (spans_nil.mpr rfl))⟩
  next =>
    obtain ⟨v, mid, h1, h⟩ := bind_ok h
    obtain ⟨p, ps, hnew, τ2, rfl, hspan⟩ := parameters_ok h1
    obtain ⟨hclose, rfl⟩ := expect_ok h
    refine ⟨p :: ps, τ2, hnew, rfl, ?_⟩
    exact hopen.trans (hspan.trans (.cons hclose (spans_nil.mpr rfl)))

/-- A subroutine's body, with the names that it declares. -/
theorem routineBody_ok {r : Routine} (h : routineBody r.name r.kind fuel s = .ok u s')
    (hs : s.routine = some r) :
    ∃ (gs : List NameGroup) (ss : List Statement) (d : Declarations) (τ : TokenStream),
      d = s.names.addAll (gs.flatMap fun g => g.declarations .localVar) ∧
      s.names.Accepts (gs.flatMap fun g => g.declarations .localVar) ∧
      StatementsScoped ⟨s.className, r, d.find?⟩ ss ∧
      s' = (s.within d).after τ
        (.function s!"{s.className}.{r.name}" (d.count .localVar) ::
          (prologue r.kind (d.count .field) ++
            statementCode ⟨s.className, r, d.find?⟩ ss s.labels.nextNumber)) (labelCount ss) ∧
      Spans (braced (gs.flatMap (fun g => .keyword .kwVar :: g.lexemes) ++ statementLexemes ss))
        s.tokens.upcoming τ.upcoming := by
  unfold routineBody at h
  obtain ⟨τ, hopen, h⟩ := expectNext_then h
  obtain ⟨t, τ1, hu, -, h⟩ := next_then h
  simp only [Compilation.after_tokens] at hu
  rw [hu] at hopen
  obtain ⟨v, mid, h1, h⟩ := bind_ok h
  obtain ⟨gs, hnew, τ2, rfl, hlocals⟩ := localVariables_ok h1
  rw [bind_of_ok (names_run _), bind_of_ok (className_run _)] at h
  replace h := put_then h
  obtain ⟨_, mid, h1, h⟩ := bind_ok h
  obtain rfl := putAll_ok h1
  obtain ⟨w, mid, h1, h⟩ := bind_ok h
  obtain ⟨ss, hss, τ3, rfl, hbody⟩ := (readsStatements r fuel).statements h1 hs
  obtain ⟨hclose, rfl⟩ := expectBlockEnd_ok h
  refine ⟨gs, ss, _, τ3, rfl, hnew, hss, ?_, ?_⟩
  · simp [Compilation.scope]
  · have hall := hopen.trans (hlocals.trans (hbody.trans (.cons hclose (spans_nil.mpr rfl))))
    simpa [braced] using hall

end Declarations

section Routines

variable [CodeSink σ] [OpenSink σ] {fuel : Nat} {c : ClassHead}

theorem routine_ok {kind : RoutineKind} (ht : t.lexeme = kind.lexeme)
    (hclass : s.names.OfClass c) (hnames : (c.declarations.map Declaration.name).Nodup)
    (h : routine kind fuel s = .ok t' s') (hname : s.className = c.name) :
    ∃ r τ d, c.Admits r ∧ d.OfClass c ∧
      s' = ((s.within d).inside none).after τ (c.routineCode r s.labels.nextNumber)
        (labelCount r.body) ∧
      Spans r.lexemes (s.ahead t) (.ok t' :: τ.upcoming) := by
  unfold routine at h
  obtain ⟨v, τ, hv, -, h⟩ := next_then h
  obtain ⟨_, mid, h1, h⟩ := bind_ok h
  obtain ⟨returned, hreturned, hvoid, rfl⟩ := checkReturnType_ok h1
  obtain ⟨w, τ1, hw, -, h⟩ := next_then h
  obtain ⟨name, mid, h1, h⟩ := bind_ok h
  obtain ⟨hrname, rfl⟩ := nameOf_ok h1
  rw [bind_of_ok (names_run _), bind_of_ok (setNames_run _ _), bind_of_ok (setRoutine_run _ _)] at h
  simp only [Compilation.after_after, Compilation.after_names, Compilation.after_within,
    Compilation.after_inside] at h
  obtain ⟨_, mid, h1, h⟩ := bind_ok h
  obtain ⟨ps, τ2, hps, rfl, hlist⟩ := parameterList_ok h1
  obtain ⟨_, mid, h1, h⟩ := bind_ok h
  obtain ⟨gs, ss, d, τ3, rfl, hgs, hss, rfl, hbody⟩ :=
    routineBody_ok (r := ⟨name, kind, v.isKeyword .kwVoid⟩) h1 rfl
  rw [bind_of_ok (setRoutine_run _ _)] at h
  obtain ⟨τ4, rfl, hlast, -⟩ := next_ok h
  obtain ⟨r, hr⟩ : ∃ r : RoutineTree, r = ⟨kind, returned, name, ps, gs, ss⟩ := ⟨_, rfl⟩
  have hown : (s.names.enterSubroutine (r.kind = .method)).Accepts r.declarations := by
    rw [hr]
    exact Declarations.accepts_append.mpr ⟨hps, hgs⟩
  have hd : s.names.inRoutine r = ((s.names.enterSubroutine (kind = .method)).addAll
      (ps.map Parameter.declaration)).addAll (gs.flatMap fun g => g.declarations .localVar) := by
    rw [hr]
    exact Declarations.addAll_append
  have hdistinct := Declarations.accepts_inRoutine.mp hown
  have hscope : c.scope r =
      ⟨c.name, ⟨name, kind, v.isKeyword .kwVoid⟩, (s.names.inRoutine r).find?⟩ := by
    rw [Declarations.find?_inRoutine hclass hnames hdistinct, hvoid, hr]
    rfl
  have hlocals := Declarations.count_localVar_inRoutine (d := s.names) (r := r)
  have hfields := Declarations.count_field_inRoutine (r := r) hclass
  rw [hd] at hscope hlocals hfields
  refine ⟨r, τ4, s.names.inRoutine r, ⟨hdistinct, ?_⟩, Declarations.ofClass_inRoutine hclass,
    ?_, ?_⟩
  · rw [hscope]
    simpa [hr, hname] using hss
  · rw [ClassHead.routineCode, ClassHead.bodyCode, ← hlocals, ← hfields, hscope, hd]
    simp [hr, hname]
  · simp only [Compilation.after_tokens, Compilation.inside_tokens] at hw hlist hbody hlast
    rw [Compilation.ahead, hv, hw, RoutineTree.lexemes, hr]
    rw [hlast] at hbody
    have hall := Spans.cons ht (.cons hreturned (.cons hrname (hlist.trans hbody)))
    simpa using hall

/-- The subroutines of a class, in order. -/
theorem routines_ok (hclass : s.names.OfClass c)
    (hnames : (c.declarations.map Declaration.name).Nodup)
    (h : routines fuel t s = .ok t' s') (hname : s.className = c.name) :
    ∃ rs τ d r? n, (∀ r ∈ rs, c.Admits r) ∧
      s' = ((s.within d).inside r?).after τ (c.routinesCode rs s.labels.nextNumber) n ∧
      Spans (rs.flatMap RoutineTree.lexemes) (s.ahead t) (.ok t' :: τ.upcoming) := by
  induction fuel generalizing s t with
  | zero => exact (throw_ok h).elim
  | succ fuel ih =>
    unfold routines at h
    obtain ⟨y, hy, h⟩ := of_run h
    split at hy <;> subst hy
    next kind hk =>
      obtain ⟨v, mid, h1, h⟩ := bind_ok h
      obtain ⟨r, τ, d, hr, hd, rfl, hone⟩ := routine_ok (routineKind?_ok hk) hclass hnames h1 hname
      obtain ⟨rs, τ1, d', r?, n, hrs, rfl, hrest⟩ := ih hd h hname
      refine ⟨r :: rs, τ1, d', r?, labelCount r.body + n, ?_, by simp [ClassHead.routinesCode],
        hone.trans hrest⟩
      intro q hq
      rcases List.mem_cons.mp hq with rfl | hq
      · exact hr
      · exact hrs q hq
    next =>
      obtain ⟨rfl, rfl⟩ := pure_ok h
      exact ⟨[], s.tokens, s.names, s.routine, 0, by simp, rfl, spans_nil.mpr rfl⟩

theorem classDeclaration_ok (h : classDeclaration fuel t s = .ok none s') :
    ∃ c : ClassTree, c.Valid ∧
      s'.sink = OpenSink.addAll s.sink (c.routinesCode c.routines s.labels.nextNumber) ∧
      Spans c.lexemes (s.ahead t) [] := by
  unfold classDeclaration at h
  obtain ⟨y, hy, h⟩ := of_run h
  split at hy <;> subst hy
  next hk =>
    obtain ⟨v, τ, hv, -, h⟩ := next_then h
    obtain ⟨name, mid, h1, h⟩ := bind_ok h
    obtain ⟨hname, rfl⟩ := nameOf_ok h1
    rw [bind_of_ok (setClassName_run _ _), bind_of_ok (names_run _),
      bind_of_ok (setNames_run _ _)] at h
    simp only [Compilation.after_inClass, Compilation.after_within, Declarations.enterClass] at h
    obtain ⟨τ1, hopen, h⟩ := expectNext_then h
    obtain ⟨w, τ2, hw, -, h⟩ := next_then h
    simp only [Compilation.after_tokens] at hopen hw
    rw [hw] at hopen
    obtain ⟨x, mid, h1, h⟩ := bind_ok h
    obtain ⟨vs, hvs, τ3, rfl, hvariables⟩ := classVariables_ok h1
    obtain ⟨z, mid, h1, h⟩ := bind_ok h
    have hnames := Declarations.accepts_classVariables (c := ⟨name, vs⟩) |>.mp hvs
    have hclass := Declarations.ofClass_classVariables hnames
    obtain ⟨rs, τ4, d, r?, n, hrs, rfl, hroutines⟩ :=
      routines_ok (c := ⟨name, vs⟩) hclass hnames h1 rfl
    obtain ⟨y, hy, h⟩ := of_run h
    split at hy <;> subst hy
    next hclose =>
      obtain ⟨τ5, rfl, hend⟩ := next?_none_ok h
      refine ⟨⟨⟨name, vs⟩, rs⟩, ⟨hnames, hrs⟩, by simp, ?_⟩
      have hlast : Spans [.symbol .closeBrace] (.ok z :: τ4.upcoming) [] :=
        .cons (Token.isSymbol_iff.mp hclose) (spans_nil.mpr hend)
      have hbody := hopen.trans (hvariables.trans (hroutines.trans hlast))
      rw [Compilation.ahead, hv]
      exact .cons (Token.isKeyword_iff.mp hk) (.cons hname
        (by simpa [ClassTree.lexemes, braced] using hbody))
    next => exact (throw_ok h).elim
  next => exact (throw_ok h).elim

/-- Only a class that keeps to the rules is compiled, and what is put is its code. -/
theorem wholeSource_ok (h : wholeSource fuel s = .ok u s') :
    ∃ c : ClassTree, c.Valid ∧
      s'.sink = OpenSink.addAll s.sink (c.routinesCode c.routines s.labels.nextNumber) ∧
      Spans c.lexemes s.tokens.upcoming [] := by
  unfold wholeSource at h
  obtain ⟨t, τ, ht, -, h⟩ := next_then h
  obtain ⟨t?, mid, h1, h⟩ := bind_ok h
  cases t? with
  | some v => exact (throw_ok h).elim
  | none =>
    obtain ⟨-, rfl⟩ := pure_ok h
    obtain ⟨c, hc, hsink, hspan⟩ := classDeclaration_ok h1
    refine ⟨c, hc, hsink, ?_⟩
    rwa [ht]

end Routines

end Compiling

end JackVM
