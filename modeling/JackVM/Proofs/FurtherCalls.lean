import JackVM.Proofs.AgreeingRuns
import JackVM.Proofs.HandingOver
import JackVM.Proofs.Positions

namespace JackVM

section Places

variable {s s' τ : TokenStream} {rs : List (Except TokenError (Option Token))}

theorem TokenStream.passes_of_next {t? : Option Token} (hs : s.unreadToken = none)
    (h : s.next = .ok t? τ) : τ.unreadToken = none ∧ ∃ text, s.cursor.Passes text τ.cursor := by
  obtain ⟨hread, hτ⟩ := read_of_next hs h
  obtain ⟨text, htext⟩ := s.cursor.read_passes
  rw [hread] at htext
  exact ⟨hτ, text, htext⟩

theorem TokenStream.passes_of_next_error {e : TokenError} (h : s.next = .error e τ) :
    τ.unreadToken = none ∧ ∃ text, s.cursor.Passes text τ.cursor := by
  obtain ⟨-, c, hread, rfl⟩ := next_error_cases h
  obtain ⟨text, htext⟩ := s.cursor.read_passes
  rw [hread] at htext
  exact ⟨rfl, text, htext⟩

/-- While no token is taken back, reading passes over text of the source. -/
theorem Reading.passes (h : Reading s rs τ) (hs : s.unreadToken = none) :
    τ.unreadToken = none ∧ ∃ text, s.cursor.Passes text τ.cursor := by
  induction h with
  | nothing s => exact ⟨hs, [], .refl _⟩
  | token hnext _ ih =>
    obtain ⟨hmid, text, htext⟩ := TokenStream.passes_of_next hs hnext
    obtain ⟨hτ, more, hmore⟩ := ih hmid
    exact ⟨hτ, _, htext.trans hmore⟩
  | atEnd hnext => exact TokenStream.passes_of_next hs hnext
  | error hnext => exact TokenStream.passes_of_next_error hnext

/-- The second run is further down in its source, and has labels with higher numbers. -/
def Drift.further (lines labels : Nat) : Drift :=
  ⟨(· + lines), id, fun a => ⟨a + lines, rfl⟩, labels⟩

/-- The same text comes on both sides, on the second one further down. -/
structure TokenStream.Later (lines : Nat) (s s' : TokenStream) : Prop where
  unread : s.unreadToken = none
  unread' : s'.unreadToken = none
  cursor : s'.cursor = s.cursor.later lines

namespace TokenStream.Later

variable {lines : Nat}

theorem read (h : s.Later lines s') : s'.cursor.read = laterResult lines s.cursor.read := by
  rw [h.cursor, Cursor.read_later]

theorem next {t? : Option Token} (h : s.Later lines s') (hs : s.next = .ok t? τ) :
    ∃ τ', s'.next = .ok (t?.map (Token.mapLine (· + lines))) τ' ∧ τ.Later lines τ' := by
  obtain ⟨hread, hτ⟩ := read_of_next h.unread hs
  have hread' := h.read
  rw [hread] at hread'
  exact ⟨_, next_of_read h.unread' hread', hτ, rfl, rfl⟩

theorem next_error {e : TokenError} (h : s.Later lines s') (hs : s.next = .error e τ) :
    ∃ τ', s'.next = .error (e.mapLines (· + lines)) τ' := by
  obtain ⟨-, c, hread, -⟩ := next_error_cases hs
  have hread' := h.read
  rw [hread] at hread'
  exact ⟨_, next_of_read_error h.unread' hread'⟩

end TokenStream.Later

/-- The same can be read further down. -/
theorem Reading.later {lines : Nat} (h : Reading s rs τ) (hs : s.Later lines s') (labels : Nat) :
    ∃ rs' τ', Reading s' rs' τ' ∧ List.Forall₂ (SameResult (.further lines labels)) rs rs' := by
  induction h generalizing s' with
  | nothing s => exact ⟨[], s', .nothing s', .nil⟩
  | token hnext _ ih =>
    obtain ⟨mid', hnext', hmid⟩ := hs.next hnext
    obtain ⟨rs', τ', hrest, hsame⟩ := ih hmid
    exact ⟨_, τ', .token hnext' hrest, .cons (.token ⟨rfl, rfl⟩) hsame⟩
  | atEnd hnext =>
    obtain ⟨τ', hnext', -⟩ := hs.next hnext
    exact ⟨_, τ', .atEnd hnext', .cons .atEnd .nil⟩
  | error hnext =>
    obtain ⟨τ', hnext'⟩ := hs.next_error hnext
    refine ⟨_, τ', .error hnext', .cons (.error ?_) .nil⟩
    exact (TokenError.mapLines_id _).symm

end Places

section Past

variable {σ α : Type}

namespace Compilation

/-- What is left when the subroutine being read is left out of account. -/
def withoutRoutine (s : Compilation σ) : Compilation σ :=
  { s with routine := none }

/-- What is left when all that is known of classes read before is left out of account. -/
def withoutPast (s : Compilation σ) : Compilation σ :=
  { s with names := .empty, className := "", routine := none }

end Compilation

/-- What is left out of account at the start has no part in a step, except that it may be left as it
is. -/
abbrev Ignores (e : Compilation σ → Compilation σ) (x : Compiling σ α) : Prop :=
  Agree (fun s s' => e s = e s') x x

/-- The tokens to come are not left out of account. -/
theorem ignores_next? {e : Compilation σ → Compilation σ} (htokens : ∀ s, (e s).tokens = s.tokens)
    (hread : ∀ s τ, e { s with tokens := τ } = { e s with tokens := τ }) :
    Ignores e (Compiling.next? : Compiling σ (Option Token)) := by
  intro s s' hs
  have hsame : s.tokens = s'.tokens := by rw [← htokens s, hs, htokens s']
  have hafter (τ : TokenStream) : e { s with tokens := τ } = e { s' with tokens := τ } := by
    rw [hread s τ, hread s' τ, hs]
  unfold Compiling.next?
  rw [hsame]
  cases TokenSource.next s'.tokens with
  | ok t? τ => exact .ok (hafter τ)
  | error error τ => exact .error (hafter τ)

/-- Declarations do not depend on the subroutine that they are read inside of. -/
theorem declaringAgrees_withoutRoutine :
    DeclaringAgrees fun s s' : Compilation σ => s.withoutRoutine = s'.withoutRoutine where
  next? := ignores_next? (fun _ => rfl) fun _ _ => rfl
  names := by
    intro s s' hs
    have hwithout := congrArg Compilation.names hs
    have hnames : s.names = s'.names := hwithout
    unfold Compiling.names
    rw [hnames]
    exact .ok hs
  setNames d := by
    intro s s' hs
    have hset := congrArg (Compilation.within · d) hs
    exact .ok hset

/-- A subroutine takes the place of one that was not left. -/
theorem ignores_setRoutine_then (r? : Option Routine) (f : Unit → Compiling σ α) :
    Ignores Compilation.withoutRoutine (Compiling.setRoutine r? >>= f) := by
  intro s s' hs
  have hset := congrArg (Compilation.inside · r?) hs
  have hsame : s.inside r? = s'.inside r? := hset
  rw [Compiling.bind_of_ok (Compiling.setRoutine_run s r?),
    Compiling.bind_of_ok (Compiling.setRoutine_run s' r?), hsame]
  refine .refl ?_ _
  exact fun _ => rfl

/-- Once a class has its own name and no names in sight, only the subroutine is left of what was
before. -/
theorem ignores_enterClass {name : String} {x : Compiling σ α}
    (hx : Ignores Compilation.withoutRoutine x) : Ignores Compilation.withoutPast (do
      Compiling.setClassName name
      Compiling.setNames (← Compiling.names).enterClass
      x) := by
  intro s s' hs
  -- Entering a class forgets the names in sight, whatever they are.
  have hentered := congrArg (fun s => (s.inClass name).within s.names.enterClass) hs
  have hends := hx ((s.inClass name).within s.names.enterClass)
    ((s'.inClass name).within s'.names.enterClass) hentered
  refine hends.imp fun after after' h => ?_
  have hpast := congrArg Compilation.withoutPast h
  exact hpast

variable [CodeSink σ]

theorem ignores_routine (kind : RoutineKind) (fuel : Nat) :
    Ignores Compilation.withoutRoutine (Compiling.routine kind fuel : Compiling σ Token) := by
  have h := declaringAgrees_withoutRoutine (σ := σ)
  refine h.next.bind fun t => (Agree.checkReturnType t).bind fun _ => h.next.bind fun u => ?_
  refine (Agree.nameOf u).bind fun name => h.names.bind fun d => (h.setNames _).bind fun _ => ?_
  exact ignores_setRoutine_then _ _

theorem ignores_routines (fuel : Nat) (t : Token) :
    Ignores Compilation.withoutRoutine (Compiling.routines fuel t : Compiling σ Token) := by
  induction fuel generalizing t with
  | zero => exact .throw _
  | succ fuel ih =>
    unfold Compiling.routines
    split
    · exact (ignores_routine _ fuel).bind ih
    · exact .pure t

/-- What is left of classes read before, whether they were read to their end or not, has no part in
compiling the next one. -/
theorem ignores_wholeSource (fuel : Nat) :
    Ignores Compilation.withoutPast (Compiling.wholeSource fuel : Compiling σ Unit) := by
  have hnext : Ignores Compilation.withoutPast (Compiling.next : Compiling σ Token) :=
    .next (ignores_next? (fun _ => rfl) fun _ _ => rfl)
  have h := declaringAgrees_withoutRoutine (σ := σ)
  unfold Compiling.wholeSource Compiling.classDeclaration
  refine hnext.bind fun t => .bind ?_ fun trailing => ?_
  · split
    · refine hnext.bind fun u => (Agree.nameOf u).bind fun name => ignores_enterClass ?_
      refine (h.expectNext _).bind fun _ => h.next.bind fun v => ?_
      refine (h.classVariables fuel v).bind fun w => (ignores_routines fuel w).bind fun y => ?_
      split
      · exact h.next?
      · exact .throw _
    · exact .throw _
  · split
    · exact .throw _
    · exact .pure ()

theorem compileClass_of_past (s : Compilation σ) :
    s.withoutPast.compileClass.1 = s.compileClass.1 ∧
      s.withoutPast.compileClass.2.sink = s.compileClass.2.sink := by
  have hends := ignores_wholeSource (TokenSource.depthBound s.tokens) s.withoutPast s rfl
  have hdepth : TokenSource.depthBound s.withoutPast.tokens = TokenSource.depthBound s.tokens := rfl
  unfold Compilation.compileClass
  rw [hdepth]
  generalize Compiling.wholeSource (TokenSource.depthBound s.tokens) s.withoutPast = y' at hends ⊢
  generalize Compiling.wholeSource (TokenSource.depthBound s.tokens) s = y at hends ⊢
  cases hends with
  | ok h =>
    have hsink := congrArg Compilation.sink h
    exact ⟨rfl, hsink⟩
  | error h =>
    have hsink := congrArg Compilation.sink h
    exact ⟨rfl, hsink⟩

end Past

section Calls

variable {σ : Type} [CodeSink σ]

/-- The text that is not read yet. -/
def Compilation.restOfSource (s : Compilation σ) : String :=
  String.ofList s.tokens.cursor.rest

/-- What compiling a text alone comes to for a sink, where lines and labels are counted on. -/
def resume (text : String) (lines labels : Nat) (k : σ) : Except CompileError Unit × σ :=
  cutBy ((compileAll text).1.mapError (·.mapLines (· + lines)))
    (handOver k ((compileAll text).2.map (Instruction.raise labels)))

theorem takeAlike_map_raise (lines labels : Nat) : TakeAlike (.further lines labels)
    fun a b : Array Instruction => b.toList = a.toList.map (Instruction.raise labels) := by
  intro a b i h
  refine .some ?_
  simp [h, Drift.further]

/-- When no token was taken back, the next class is compiled as from a new start at the place that
was come to, with the lines and labels before it counted. -/
theorem compileClass_eq_fresh {s : Compilation σ} (hs : s.tokens.unreadToken = none) {lines : Nat}
    (hline : s.tokens.cursor.line = 1 + lines) :
    (s.compileClass.1, s.compileClass.2.sink) =
      resume s.restOfSource lines s.labels.nextNumber s.sink := by
  have hlater : (TokenStream.ofText s.restOfSource).Later lines s.tokens := by
    refine ⟨rfl, hs, ?_⟩
    simp [Compilation.restOfSource, TokenStream.ofText, Cursor.ofText, Cursor.later, ← hline]
  have hmatched : Matched (.further lines s.labels.nextNumber)
      (fun a b : Array Instruction =>
        b.toList = a.toList.map (Instruction.raise s.labels.nextNumber))
      (Compilation.ofText s.restOfSource #[])
      s.collecting.withoutPast :=
    ⟨rfl, (Nat.zero_add _).symm, rfl, rfl, rfl⟩
  obtain ⟨rs, -, hreads, halike⟩ := compileClass_endsAlike (takeAlike_map_raise _ _) hmatched
  obtain ⟨rs', τ', hreads', hsame⟩ := hreads.later hlater s.labels.nextNumber
  have hclass := halike rs' τ' hreads' hsame
  obtain ⟨hresult, hsink⟩ := compileClass_of_past s.collecting
  have hcode := hclass.matched.sink
  have herror := hclass.result
  rw [hresult] at herror
  rw [hsink] at hcode
  rw [compileClass_handsOver s, hcode]
  exact congrArg (fun result => cutBy result (handOver s.sink _))
    (herror.trans (mapError_mapLines_id _)).symm

/-- A call stops where it has read to. -/
theorem compileClass_reading (s : Compilation σ) :
    ∃ rs, Reading s.tokens rs s.compileClass.2.tokens := by
  have hself : Matched .still Eq s s := ⟨rfl, rfl, rfl, rfl, rfl⟩
  obtain ⟨rs, -, hreads, -⟩ := compileClass_endsAlike (takeAlike_eq rfl) hself
  exact ⟨rs, hreads⟩

theorem afterCalls_passes (source : String) (sink : σ) (calls : Nat) :
    let s := (Compilation.ofText source sink).afterCalls calls
    s.tokens.unreadToken = none ∧
      ∃ before, (Cursor.ofText source).Passes before s.tokens.cursor := by
  induction calls with
  | zero => exact ⟨rfl, [], .refl _⟩
  | succ calls ih =>
    obtain ⟨hs, before, hbefore⟩ := ih
    obtain ⟨rs, hreads⟩ := compileClass_reading ((Compilation.ofText source sink).afterCalls calls)
    obtain ⟨hτ, text, htext⟩ := hreads.passes hs
    exact ⟨hτ, _, hbefore.trans htext⟩

/-- After any calls, failed or not, nothing is taken back, and the next one is like one for the rest
of the source alone, with the lines and the labels before it counted. What is known by then of
classes and subroutines, also of one that was not read to its end, has no part in it. -/
theorem afterCalls_resume (source : String) (sink : σ) (calls : Nat) :
    let s := (Compilation.ofText source sink).afterCalls calls
    s.tokens.unreadToken = none ∧ (∃ before, source = before ++ s.restOfSource ∧
      (s.compileClass.1, s.compileClass.2.sink) =
        resume s.restOfSource (before.toList.count '\n') s.labels.nextNumber s.sink) ∧
      ∀ names className routine,
        let other := { s with names := names, className := className, routine := routine }
        other.compileClass.1 = s.compileClass.1 ∧
          other.compileClass.2.sink = s.compileClass.2.sink := by
  intro s
  obtain ⟨hs, before, hbefore⟩ := afterCalls_passes source sink calls
  refine ⟨hs, ⟨String.ofList before, ?_, ?_⟩, fun names className routine => ?_⟩
  · rw [Compilation.restOfSource, ← String.ofList_append, ← hbefore.rest]
    exact String.ofList_toList.symm
  · rw [String.toList_ofList]
    exact compileClass_eq_fresh hs hbefore.line
  · obtain ⟨hresult, hsink⟩ := compileClass_of_past s
    obtain ⟨hresult', hsink'⟩ := compileClass_of_past
      { s with names := names, className := className, routine := routine }
    exact ⟨hresult'.symm.trans hresult, hsink'.symm.trans hsink⟩

/-- The first call stops inside of a method, and the second one at the brace left of it. The state
is still inside of the method when the third one compiles a function of another class. -/
example :
    let rest := " class B { function int g() { return 1; } }"
    let s := (Compilation.ofText ("class A { method int f() { return } }" ++ rest)
      (#[] : Array Instruction)).afterCalls 2
    s.restOfSource = rest ∧ s.className = "A" ∧ s.routine = some ⟨"f", .method, false⟩ ∧
      s.compileClass.1 = .ok () := by
  decide +kernel

end Calls

end JackVM
