import JackVM.Proofs.ProductionsInStep

namespace JackVM

/-- What reading on from a place gives, at most up to the first result that is not a token. -/
inductive Reading : TokenStream → List (Except TokenError (Option Token)) → TokenStream → Prop
  | nothing (s : TokenStream) : Reading s [] s
  | token {s mid after : TokenStream} {t : Token} {rs : List (Except TokenError (Option Token))} :
    s.next = .ok (some t) mid → Reading mid rs after → Reading s (.ok (some t) :: rs) after
  | atEnd {s after : TokenStream} : s.next = .ok none after → Reading s [.ok none] after
  | error {s after : TokenStream} {e : TokenError} : s.next = .error e after →
    Reading s [.error e] after

/-- The same result of reading, at lines that may differ. -/
inductive SameResult (δ : Drift) :
    Except TokenError (Option Token) → Except TokenError (Option Token) → Prop
  | token {t u : Token} : SameToken δ t u → SameResult δ (.ok (some t)) (.ok (some u))
  | atEnd : SameResult δ (.ok none) (.ok none)
  | error {e e' : TokenError} : e.mapLines δ.line = e'.mapLines δ.line' →
    SameResult δ (.error e) (.error e')

/-- A token on the first side could be read at some line on the second. -/
theorem exists_sameToken (δ : Drift) (t : Token) : ∃ u, SameToken δ t u := by
  obtain ⟨b, hb⟩ := δ.exists_line t.line
  exact ⟨⟨t.lexeme, b⟩, rfl, hb⟩

/-- What two runs have besides the tokens to come, with sinks that are related in a certain way. -/
structure Matched {σ σ' : Type} (δ : Drift) (K : σ → σ' → Prop) (s : Compilation σ)
    (s' : Compilation σ') : Prop where
  names : s.names = s'.names
  labels : s'.labels.nextNumber = s.labels.nextNumber + δ.labels
  className : s.className = s'.className
  routine : s.routine = s'.routine
  sink : K s.sink s'.sink

/-- Two runs end alike, the second at a certain place in its source. -/
inductive SameEnd {σ σ' : Type} (δ : Drift) (K : σ → σ' → Prop) (τ' : TokenStream) :
    EStateM.Result CompileError (Compilation σ) Unit →
      EStateM.Result CompileError (Compilation σ') Unit → Prop
  | ok {s : Compilation σ} {s' : Compilation σ'} : Matched δ K s s' → s'.tokens = τ' →
    SameEnd δ K τ' (.ok () s) (.ok () s')
  | error {s : Compilation σ} {s' : Compilation σ'} {e e' : CompileError} :
    e.mapLines δ.line = e'.mapLines δ.line' → Matched δ K s s' → s'.tokens = τ' →
    SameEnd δ K τ' (.error e s) (.error e' s')

/-- Related sinks take the same instructions, up to the numbers of labels, and stay related. -/
def TakeAlike {σ σ' : Type} [CodeSink σ] [CodeSink σ'] (δ : Drift) (K : σ → σ' → Prop) : Prop :=
  ∀ k k' i, K k k' → Option.Rel K (CodeSink.put? k i) (CodeSink.put? k' (i.raise δ.labels))

section After

variable {τ σ α β : Type} {x : CompilingFrom τ σ α} {f : α → CompilingFrom τ σ β}
  {s mid : Compilation σ τ}

/-- What there is after a part of compiling, also if it stopped with an error. -/
def CompilingFrom.after (x : CompilingFrom τ σ α) (s : Compilation σ τ) : Compilation σ τ :=
  match x s with
  | .ok _ s' => s'
  | .error _ s' => s'

theorem Compiling.after_of_ok {a : α} (h : x s = .ok a mid) :
    (x >>= f).after s = (f a).after mid := by
  rw [CompilingFrom.after, CompilingFrom.after, bind_of_ok h]

theorem Compiling.after_of_error {e : CompileError} (h : x s = .error e mid) :
    (x >>= f).after s = mid := by
  rw [CompilingFrom.after, bind_of_error h]

end After

section Runs

variable {σ σ' : Type} {δ : Drift} {K : σ → σ' → Prop} {s : Compilation σ} {s' : Compilation σ'}
  {n : Nat}

theorem Compiling.next?_of_ok {t? : Option Token} {mid : TokenStream}
    (h : s.tokens.next = .ok t? mid) : Compiling.next? s = .ok t? { s with tokens := mid } := by
  simp only [next?, TokenSource.next, h]

theorem Compiling.next?_of_error {e : TokenError} {mid : TokenStream}
    (h : s.tokens.next = .error e mid) :
    Compiling.next? s = .error (.token e) { s with tokens := mid } := by
  simp only [next?, TokenSource.next, h]

theorem Matched.tokens (h : Matched δ K s s') (τ τ' : TokenStream) :
    Matched δ K { s with tokens := τ } { s' with tokens := τ' } :=
  ⟨h.names, h.labels, h.className, h.routine, h.sink⟩

/-- The first run reads just these results, and a second one that can read the same does so and ends
alike. -/
structure EndsAlike (δ : Drift) (K : σ → σ' → Prop) (x : Compiling σ Unit) (x' : Compiling σ' Unit)
    (s : Compilation σ) (s' : Compilation σ') (rs : List (Except TokenError (Option Token))) :
    Prop where
  reads : Reading s.tokens rs (x.after s).tokens
  ends {rs' : List (Except TokenError (Option Token))} {τ' : TokenStream} :
    Reading s'.tokens rs' τ' → List.Forall₂ (SameResult δ) rs rs' → SameEnd δ K τ' (x s) (x' s')

/-- Runs of two parts end alike when at most a number of tokens may come. -/
def Together (δ : Drift) (K : σ → σ' → Prop) (n : Nat) (x : Compiling σ Unit)
    (x' : Compiling σ' Unit) : Prop :=
  ∀ s s', Matched δ K s s' → s.tokens.upcoming.length ≤ n → ∃ rs, EndsAlike δ K x x' s s' rs

section First

variable {f : Option Token → Compiling σ Unit} {f' : Option Token → Compiling σ' Unit}
  {mid : TokenStream}

theorem EndsAlike.error {e : TokenError} (h : Matched δ K s s')
    (hs : s.tokens.next = .error e mid) :
    EndsAlike δ K (Compiling.next? >>= f) (Compiling.next? >>= f') s s' [.error e] where
  reads := by
    rw [Compiling.after_of_error (Compiling.next?_of_error hs)]
    exact .error hs
  ends := by
    intro rs' τ' hr hsame
    obtain _ | ⟨hresult, hrest⟩ := hsame
    cases hrest
    cases hresult with
    | error he =>
      cases hr with
      | error hs' =>
        rw [Compiling.bind_of_error (Compiling.next?_of_error hs),
          Compiling.bind_of_error (Compiling.next?_of_error hs')]
        exact .error (congrArg CompileError.token he) (h.tokens _ _) rfl

theorem EndsAlike.atEnd (h : Matched δ K s s') (hs : s.tokens.next = .ok none mid)
    (hstop : ∀ s, ((f none).after s).tokens = s.tokens)
    (hend : ∀ s s', Matched δ K s s' → SameEnd δ K s'.tokens (f none s) (f' none s')) :
    EndsAlike δ K (Compiling.next? >>= f) (Compiling.next? >>= f') s s' [.ok none] where
  reads := by
    rw [Compiling.after_of_ok (Compiling.next?_of_ok hs), hstop]
    exact .atEnd hs
  ends := by
    intro rs' τ' hr hsame
    obtain _ | ⟨hresult, hrest⟩ := hsame
    cases hrest
    cases hresult with
    | atEnd =>
      cases hr with
      | atEnd hs' =>
        rw [Compiling.bind_of_ok (Compiling.next?_of_ok hs),
          Compiling.bind_of_ok (Compiling.next?_of_ok hs')]
        exact hend _ _ (h.tokens mid τ')

/-- After a token, what is read does not depend on whether the second side can read it too. -/
theorem EndsAlike.token {t : Token} (h : Matched δ K s s') (hs : s.tokens.next = .ok (some t) mid)
    (hf : ∀ u, SameToken δ t u → Together δ K mid.upcoming.length (f (some t)) (f' (some u))) :
    ∃ rs, EndsAlike δ K (Compiling.next? >>= f) (Compiling.next? >>= f') s s'
      (.ok (some t) :: rs) := by
  have hafter := Compiling.after_of_ok (f := f) (Compiling.next?_of_ok hs)
  by_cases hmatch : ∃ u mid', s'.tokens.next = .ok (some u) mid' ∧ SameToken δ t u
  · obtain ⟨u, mid', hs', htu⟩ := hmatch
    obtain ⟨rs, halike⟩ := hf u htu _ _ (h.tokens mid mid') (Nat.le_refl _)
    refine ⟨rs, hafter ▸ .token hs halike.reads, ?_⟩
    intro rs' τ' hr hsame
    rw [Compiling.bind_of_ok (Compiling.next?_of_ok hs),
      Compiling.bind_of_ok (Compiling.next?_of_ok hs')]
    obtain _ | ⟨hresult, hsame⟩ := hsame
    cases hresult with
    | token =>
      cases hr with
      | token hs'' hr =>
        rw [hs'] at hs''
        cases hs''
        exact halike.ends hr hsame
  · obtain ⟨u, htu⟩ := exists_sameToken δ t
    obtain ⟨rs, halike⟩ := hf u htu _ _ (h.tokens mid s'.tokens) (Nat.le_refl _)
    refine ⟨rs, hafter ▸ .token hs halike.reads, ?_⟩
    intro rs' τ' hr hsame
    obtain _ | ⟨hresult, -⟩ := hsame
    cases hresult with
    | token htu =>
      cases hr with
      | token hs' => exact absurd ⟨_, _, hs', htu⟩ hmatch

theorem EndsAlike.next? (h : Matched δ K s s') (hn : s.tokens.upcoming.length ≤ n)
    (hstop : ∀ s, ((f none).after s).tokens = s.tokens)
    (hend : ∀ s s', Matched δ K s s' → SameEnd δ K s'.tokens (f none s) (f' none s'))
    (hf : ∀ k t u, n = k + 1 → SameToken δ t u → Together δ K k (f (some t)) (f' (some u))) :
    ∃ r rs, EndsAlike δ K (Compiling.next? >>= f) (Compiling.next? >>= f') s s' (r :: rs) := by
  cases hs : s.tokens.next with
  | error e mid => exact ⟨_, _, .error h hs⟩
  | ok t? mid =>
    cases t? with
    | none => exact ⟨_, _, .atEnd h hs hstop hend⟩
    | some t =>
      have hcoming := congrArg List.length (TokenStream.upcoming_of_next hs).1
      rw [List.length_cons] at hcoming
      obtain ⟨k, rfl⟩ : ∃ k, n = k + 1 := ⟨n - 1, by omega⟩
      have hrest : mid.upcoming.length ≤ k := by omega
      exact ⟨_, EndsAlike.token h hs fun u htu r r' hr hle =>
        hf k t u rfl htu r r' hr (Nat.le_trans hle hrest)⟩

end First

namespace Together

theorem stop {e e' : CompileError} (he : e.mapLines δ.line = e'.mapLines δ.line') :
    Together δ K n (throw e) (throw e') := by
  intro s s' h _
  refine ⟨[], .nothing _, fun hr hsame => ?_⟩
  cases hsame
  cases hr
  exact .error he h rfl

theorem sourceEnd : Together δ K n Compiling.sourceEnd Compiling.sourceEnd := by
  intro s s' h hn
  unfold Compiling.sourceEnd
  suffices hnext : ∃ r rs, EndsAlike δ K _ _ s s' (r :: rs) by
    obtain ⟨r, rs, halike⟩ := hnext
    exact ⟨r :: rs, halike⟩
  refine EndsAlike.next? h hn (fun s => rfl) (fun s s' h => .ok h rfl) fun k t u _ htu => ?_
  exact .stop (htu.unexpected .endOfSource)

end Together

theorem EndsAlike.next {f : Token → Compiling σ Unit} {f' : Token → Compiling σ' Unit}
    (h : Matched δ K s s') (hn : s.tokens.upcoming.length ≤ n)
    (hf : ∀ k t u, n = k + 1 → SameToken δ t u → Together δ K k (f t) (f' u)) :
    ∃ r rs, EndsAlike δ K (Compiling.next >>= f) (Compiling.next >>= f') s s' (r :: rs) := by
  unfold Compiling.next
  rw [bind_assoc, bind_assoc]
  exact EndsAlike.next? h hn (fun s => rfl) (fun s s' h => .error rfl h rfl) hf

variable {α β : Type} {rs : List (Except TokenError (Option Token))}

/-- Steps that read nothing can be made before. -/
theorem EndsAlike.step {x : Compiling σ α} {x' : Compiling σ' β} {f : α → Compiling σ Unit}
    {f' : β → Compiling σ' Unit} {a : α} {b : β} {mid : Compilation σ} {mid' : Compilation σ'}
    (h : EndsAlike δ K (f a) (f' b) mid mid' rs) (hx : x s = .ok a mid) (hx' : x' s' = .ok b mid')
    (hs : mid.tokens = s.tokens) (hs' : mid'.tokens = s'.tokens) :
    EndsAlike δ K (x >>= f) (x' >>= f') s s' rs where
  reads := by
    rw [Compiling.after_of_ok hx, ← hs]
    exact h.reads
  ends := by
    intro rs' τ' hr hsame
    rw [Compiling.bind_of_ok hx, Compiling.bind_of_ok hx']
    exact h.ends (hs' ▸ hr) hsame

variable [CodeSink σ] [CodeSink σ'] {Q : α → β → Prop} {m : Nat}

/-- An instruction is taken by both sinks or by none. -/
theorem Together.put_then {i : Instruction} {f : Unit → Compiling σ Unit}
    {f' : Unit → Compiling σ' Unit} (hK : TakeAlike δ K) (hf : Together δ K n (f ()) (f' ())) :
    Together δ K n (Compiling.put i >>= f) (Compiling.put (i.raise δ.labels) >>= f') := by
  intro s s' h hn
  have htake := hK _ _ i h.sink
  cases hk : CodeSink.put? s.sink i with
  | none =>
    cases hk' : CodeSink.put? s'.sink (i.raise δ.labels) with
    | some k' => simp [hk, hk'] at htake
    | none =>
      have hput : Compiling.put i s = .error .refused s := by simp [Compiling.put, hk]
      have hput' : Compiling.put (i.raise δ.labels) s' = .error .refused s' := by
        simp [Compiling.put, hk']
      refine ⟨[], by rw [Compiling.after_of_error hput]; exact .nothing _, fun hr hsame => ?_⟩
      cases hsame
      cases hr
      rw [Compiling.bind_of_error hput, Compiling.bind_of_error hput']
      exact .error rfl h rfl
  | some k =>
    cases hk' : CodeSink.put? s'.sink (i.raise δ.labels) with
    | none => simp [hk, hk'] at htake
    | some k' =>
      have hput : Compiling.put i s = .ok () { s with sink := k } := by simp [Compiling.put, hk]
      have hput' : Compiling.put (i.raise δ.labels) s' = .ok () { s' with sink := k' } := by
        simp [Compiling.put, hk']
      have hsink : K k k' := by simpa [hk, hk'] using htake
      obtain ⟨rs, halike⟩ := hf { s with sink := k } { s' with sink := k' }
        ⟨h.names, h.labels, h.className, h.routine, hsink⟩ hn
      exact ⟨rs, halike.step hput hput' rfl rfl⟩

/-- Parts of compiling that are in step take runs with them to the same end. -/
theorem InStep.together (hK : TakeAlike δ K) {x : Compiling σ α} {x' : Compiling σ' β}
    {f : α → Compiling σ Unit} {f' : β → Compiling σ' Unit} (hx : InStep δ Q n m x x')
    (hf : ∀ k a b, k + m ≤ n → Q a b → Together δ K k (f a) (f' b)) :
    Together δ K n (x >>= f) (x' >>= f') := by
  induction hx with
  | done h => exact hf _ _ _ (Nat.le_refl _) h
  | stop h => exact .stop h
  | next_then _ ih =>
    intro s s' h hn
    rw [bind_assoc, bind_assoc]
    obtain ⟨r, rs, halike⟩ := EndsAlike.next h hn fun k t u hk htu =>
      ih k t u hk htu fun l a b hl => hf l a b (by omega)
    exact ⟨r :: rs, halike⟩
  | names _ ih =>
    intro s s' h hn
    rw [bind_assoc, bind_assoc]
    have hnames : Compiling.names s' = .ok s.names s' := by simp [Compiling.names, h.names]
    obtain ⟨rs, halike⟩ := ih s.names hf s s' h hn
    refine ⟨rs, .step ?_ rfl hnames rfl rfl⟩
    exact halike
  | @setNames _ _ d _ _ _ ih =>
    intro s s' h hn
    rw [bind_assoc, bind_assoc]
    obtain ⟨rs, halike⟩ := ih hf { s with names := d } { s' with names := d }
      ⟨rfl, h.labels, h.className, h.routine, h.sink⟩ hn
    refine ⟨rs, .step ?_ rfl rfl rfl rfl⟩
    exact halike
  | className _ ih =>
    intro s s' h hn
    rw [bind_assoc, bind_assoc]
    have hname : Compiling.className s' = .ok s.className s' := by
      simp [Compiling.className, h.className]
    obtain ⟨rs, halike⟩ := ih s.className hf s s' h hn
    refine ⟨rs, .step ?_ rfl hname rfl rfl⟩
    exact halike
  | @setClassName _ _ name _ _ _ ih =>
    intro s s' h hn
    rw [bind_assoc, bind_assoc]
    obtain ⟨rs, halike⟩ := ih hf { s with className := name } { s' with className := name }
      ⟨h.names, h.labels, rfl, h.routine, h.sink⟩ hn
    refine ⟨rs, .step ?_ rfl rfl rfl rfl⟩
    exact halike
  | currentRoutine _ ih =>
    intro s s' h hn
    rw [bind_assoc, bind_assoc]
    have hroutine : Compiling.currentRoutine s' = .ok s.routine s' := by
      simp [Compiling.currentRoutine, h.routine]
    obtain ⟨rs, halike⟩ := ih s.routine hf s s' h hn
    refine ⟨rs, .step ?_ rfl hroutine rfl rfl⟩
    exact halike
  | @setRoutine _ _ r? _ _ _ ih =>
    intro s s' h hn
    rw [bind_assoc, bind_assoc]
    obtain ⟨rs, halike⟩ := ih hf { s with routine := r? } { s' with routine := r? }
      ⟨h.names, h.labels, h.className, rfl, h.sink⟩ hn
    refine ⟨rs, .step ?_ rfl rfl rfl rfl⟩
    exact halike
  | @label _ _ purpose _ _ _ ih =>
    intro s s' h hn
    rw [bind_assoc, bind_assoc]
    obtain ⟨l, hl⟩ : ∃ l : Label, Compiling.freshLabel purpose s =
        .ok l { s with labels := ⟨s.labels.nextNumber + 1⟩ } := ⟨_, rfl⟩
    have hl' : Compiling.freshLabel purpose s' =
        .ok (l.raise δ.labels) { s' with labels := ⟨s'.labels.nextNumber + 1⟩ } := by
      cases hl
      simp [Compiling.freshLabel, LabelSupply.fresh, Label.raise, h.labels, h.className, h.routine]
    obtain ⟨rs, halike⟩ := ih l hf { s with labels := ⟨s.labels.nextNumber + 1⟩ }
      { s' with labels := ⟨s'.labels.nextNumber + 1⟩ }
      ⟨h.names, by simp [h.labels, Nat.add_right_comm], h.className, h.routine, h.sink⟩ hn
    refine ⟨rs, .step ?_ hl hl' rfl rfl⟩
    exact halike
  | put _ ih =>
    rw [bind_assoc, bind_assoc]
    exact .put_then hK (ih hf)

theorem wholeSource_endsAlike {fuel : Nat} (hK : TakeAlike δ K) (h : Matched δ K s s')
    (hfuel : 2 * s.tokens.upcoming.length + 1 ≤ fuel) (extra : Nat) :
    ∃ r rs, EndsAlike δ K (Compiling.wholeSource fuel) (Compiling.wholeSource (extra + fuel)) s s'
      (r :: rs) := by
  rw [wholeSource_eq, wholeSource_eq, bind_assoc, bind_assoc]
  refine EndsAlike.next h (Nat.le_refl _) fun k t u hk htu => ?_
  exact (classText_inStep (by omega) htu).together hK fun _ _ _ _ _ => .sourceEnd

end Runs

section Still

/-- Two runs of the same on the same. -/
def Drift.still : Drift :=
  ⟨id, id, fun a => ⟨a, rfl⟩, 0⟩

@[simp] theorem TokenError.mapLines_id (e : TokenError) : e.mapLines id = e := by
  cases e <;> rfl

@[simp] theorem CompileError.mapLines_id (e : CompileError) : e.mapLines id = e := by
  cases e with
  | token => simp [mapLines]
  | _ => rfl

theorem mapError_mapLines_id (x : Except CompileError Unit) : x.mapError (·.mapLines id) = x := by
  cases x with
  | ok => rfl
  | error e => exact congrArg Except.error e.mapLines_id

@[simp] theorem Instruction.raise_zero (i : Instruction) : i.raise 0 = i := by
  cases i <;> rfl

theorem SameResult.refl {δ : Drift} (h : δ.line = δ.line') (r : Except TokenError (Option Token)) :
    SameResult δ r r := by
  cases r with
  | error e => exact .error (by rw [h])
  | ok t? =>
    cases t? with
    | none => exact .atEnd
    | some t => exact .token ⟨rfl, by rw [h]⟩

variable {σ : Type}

theorem Matched.eq {s s' : Compilation σ} (h : Matched .still Eq s s') (ht : s.tokens = s'.tokens) :
    s = s' := by
  obtain ⟨τ, d, ⟨n⟩, name, r?, k⟩ := s
  obtain ⟨τ', d', ⟨n'⟩, name', r?', k'⟩ := s'
  obtain ⟨rfl, hn, rfl, rfl, rfl⟩ := h
  obtain rfl : τ = τ' := ht
  obtain rfl : n' = n := hn
  rfl

variable [CodeSink σ]

theorem takeAlike_eq {δ : Drift} (h : δ.labels = 0) : TakeAlike δ (Eq (α := σ)) := by
  rintro k _ i rfl
  rw [h, Instruction.raise_zero]
  cases CodeSink.put? k i with
  | none => exact .none
  | some k' => exact .some rfl

/-- More than enough depth of recursion changes nothing. -/
theorem wholeSource_extra {fuel : Nat} {s : Compilation σ}
    (hfuel : 2 * s.tokens.upcoming.length + 1 ≤ fuel) (extra : Nat) :
    Compiling.wholeSource (extra + fuel) s = Compiling.wholeSource fuel s := by
  have hself : Matched .still Eq s s := ⟨rfl, rfl, rfl, rfl, rfl⟩
  obtain ⟨r, rs, halike⟩ := wholeSource_endsAlike (takeAlike_eq rfl) hself hfuel extra
  have hsame := halike.ends halike.reads (List.forall₂_same.mpr fun _ _ => SameResult.refl rfl _)
  unfold CompilingFrom.after at hsame
  generalize Compiling.wholeSource (extra + fuel) s = more at hsame ⊢
  generalize Compiling.wholeSource fuel s = enough at hsame ⊢
  cases hsame with
  | ok h hs => rw [h.eq hs.symm]
  | error he h hs =>
    obtain rfl := (CompileError.mapLines_id _).symm.trans (he.trans (CompileError.mapLines_id _))
    rw [h.eq hs.symm]

end Still

section Classes

variable {σ σ' : Type} {δ : Drift} {K : σ → σ' → Prop}

/-- What there is after two classes alike. -/
structure SameClass (δ : Drift) (K : σ → σ' → Prop) (τ' : TokenStream)
    (x : Except CompileError Unit × Compilation σ)
    (x' : Except CompileError Unit × Compilation σ') : Prop where
  result : x.1.mapError (·.mapLines δ.line) = x'.1.mapError (·.mapLines δ.line')
  matched : Matched δ K x.2 x'.2
  tokens : x'.2.tokens = τ'

variable [CodeSink σ] [CodeSink σ'] {s : Compilation σ} {s' : Compilation σ'}

theorem upcoming_le_depthBound (s : TokenStream) :
    2 * s.upcoming.length + 1 ≤ TokenSource.depthBound s := by
  have hresults := s.cursor.results_length_le
  have hback : (s.unreadToken.map (Except.ok (ε := TokenError))).toList.length ≤ 1 := by
    cases s.unreadToken <;> simp
  simp only [TokenStream.upcoming, List.length_append, TokenSource.depthBound]
  omega

theorem compileClass_after {τ : Type} [TokenSource τ] (s : Compilation σ τ) :
    (Compiling.wholeSource (TokenSource.depthBound s.tokens)).after s = s.compileClass.2 := by
  unfold CompilingFrom.after Compilation.compileClass
  cases Compiling.wholeSource (TokenSource.depthBound s.tokens) s <;> rfl

/-- Compiling a class reads at least one result, and where the same can be read it does so and ends
alike. -/
theorem compileClass_endsAlike (hK : TakeAlike δ K) (h : Matched δ K s s') :
    ∃ rs, rs ≠ [] ∧ Reading s.tokens rs s.compileClass.2.tokens ∧
      ∀ rs' τ', Reading s'.tokens rs' τ' → List.Forall₂ (SameResult δ) rs rs' →
        SameClass δ K τ' s.compileClass s'.compileClass := by
  -- Both depths are brought to their sum.
  obtain ⟨r, rs, halike⟩ := wholeSource_endsAlike hK h (upcoming_le_depthBound s.tokens)
    (TokenSource.depthBound s'.tokens)
  refine ⟨r :: rs, List.cons_ne_nil _ _, compileClass_after s ▸ halike.reads, ?_⟩
  intro rs' τ' hr' hsame
  have hsame := halike.ends hr' hsame
  rw [Nat.add_comm, wholeSource_extra (upcoming_le_depthBound s'.tokens)] at hsame
  unfold Compilation.compileClass
  generalize Compiling.wholeSource (TokenSource.depthBound s.tokens) s = x at hsame ⊢
  generalize Compiling.wholeSource (TokenSource.depthBound s'.tokens) s' = x' at hsame ⊢
  cases hsame with
  | ok h hs => exact ⟨rfl, h, hs⟩
  | error he h hs => exact ⟨congrArg Except.error he, h, hs⟩

end Classes

end JackVM
