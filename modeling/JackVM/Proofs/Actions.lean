import Mathlib.Logic.Relation
import JackVM.Proofs.LabelNumbers
import JackVM.Proofs.Steps

namespace JackVM

namespace TokenStream

/-- All tokens that can still be read are of a kind, also if the last one is taken back. -/
structure Offers (s : TokenStream) (T : Token → Prop) : Prop where
  upcoming (t : Token) : .ok t ∈ s.upcoming → T t
  last (t : Token) : s.last = some t → T t

variable {s after : TokenStream} {T : Token → Prop}

theorem after_end (h : s.next = .ok none after) : after.last = none ∧ after.upcoming = [] := by
  unfold next at h
  split at h
  next => cases h
  next hunread =>
    split at h
    next t? c hread =>
      cases h
      have hend := Cursor.results_after_end hread
      exact ⟨rfl, by simp [TokenStream.upcoming, hunread, hend]⟩
    next => cases h

theorem Offers.next_ok {t? : Option Token} (h : s.Offers T) (hnext : s.next = .ok t? after) :
    after.Offers T ∧ ∀ t, t? = some t → T t := by
  cases t? with
  | some t =>
    obtain ⟨hup, hlast, -⟩ := upcoming_of_next hnext
    have ht : T t := h.upcoming t (by simp [hup])
    refine ⟨⟨fun u hu => h.upcoming u (by simp [hup, hu]), ?_⟩, ?_⟩
    · intro u hu
      rw [hlast] at hu
      cases hu
      exact ht
    · intro u hu
      cases hu
      exact ht
  | none =>
    obtain ⟨hlast, hend⟩ := after_end hnext
    exact ⟨⟨by simp [hend], by simp [hlast]⟩, by simp⟩

theorem Offers.next_error {e : TokenError} (h : s.Offers T) (hnext : s.next = .error e after) :
    after.Offers T := by
  unfold next at hnext
  split at hnext
  next => cases hnext
  next hunread =>
    split at hnext
    next => cases hnext
    next e c hread =>
      cases hnext
      refine ⟨?_, h.last⟩
      intro t ht
      have hrest : .ok t ∈ c.results := by simpa [TokenStream.upcoming, hunread] using ht
      exact h.upcoming t (by simp [TokenStream.upcoming, Cursor.results_of_error hread, hrest])

theorem Offers.unread {u : Unit} (h : s.Offers T) (hunread : s.unread = .ok u after) :
    after.Offers T := by
  unfold TokenStream.unread at hunread
  split at hunread
  next t hlast =>
    cases hunread
    refine ⟨?_, by simp⟩
    intro u hu
    rcases List.mem_cons.mp hu with hu | hu
    · cases hu
      exact h.last t hlast
    · exact h.upcoming u (List.mem_append_right _ hu)
  next => cases hunread

end TokenStream

/-- Where compiling stands, with the numbers of the labels that were handed out and whose places are
not put yet. -/
structure Progress (σ : Type) where
  state : Compilation σ
  owed : List Nat

/-- The instructions that are neither constants nor the places of labels. -/
def Instruction.isPlain : Instruction → Bool
  | .push .constant _ | .label _ => false
  | _ => true

/-- What may be put when tokens of a kind are read, and the labels that are owed then. A constant
comes from a token, is the size of an object, or is one of two fixed numbers. -/
inductive MayPut (T : Token → Prop) (d : Declarations) :
    List Nat → Instruction → List Nat → Prop
  | integer {owed : List Nat} {t : Token} {digits : String} : T t → t.lexeme = .integer digits →
    MayPut T d owed (.push .constant (digitsValue digits.toList)) owed
  | string {owed : List Nat} {t : Token} {text : String} {i : Instruction} : T t →
    t.lexeme = .string text → i ∈ stringCode text → MayPut T d owed i owed
  | fixed {owed : List Nat} {n : Nat} : n ≤ 1 → MayPut T d owed (.push .constant n) owed
  | objectSize {owed : List Nat} : MayPut T d owed (.push .constant (d.count .field)) owed
  | place {owed left : List Nat} {l : Label} : owed.Perm (l.number :: left) →
    MayPut T d owed (.label l) left
  | plain {owed : List Nat} {i : Instruction} : i.isPlain = true → MayPut T d owed i owed

/-- What compiling does at a time, inside of a class. -/
inductive Act {σ : Type} [CodeSink σ] (T : Token → Prop) : Progress σ → Progress σ → Prop
  | read {s : Compilation σ} {owed : List Nat} {t? : Option Token} {tokens : TokenStream} :
    s.tokens.next = .ok t? tokens → Act T ⟨s, owed⟩ ⟨{ s with tokens := tokens }, owed⟩
  | misread {s : Compilation σ} {owed : List Nat} {e : TokenError} {tokens : TokenStream} :
    s.tokens.next = .error e tokens → Act T ⟨s, owed⟩ ⟨{ s with tokens := tokens }, owed⟩
  | unread {s : Compilation σ} {owed : List Nat} {u : Unit} {tokens : TokenStream} :
    s.tokens.unread = .ok u tokens → Act T ⟨s, owed⟩ ⟨{ s with tokens := tokens }, owed⟩
  | declare {s : Compilation σ} {owed : List Nat} {name typeName : String} {k : VariableKind}
      {d : Declarations} : s.names.declare name typeName k = .ok d →
    Act T ⟨s, owed⟩ ⟨{ s with names := d }, owed⟩
  | enter {s : Compilation σ} {owed : List Nat} (isMethod : Bool) :
    Act T ⟨s, owed⟩ ⟨{ s with names := s.names.enterSubroutine isMethod }, owed⟩
  | move {s : Compilation σ} {owed : List Nat} (r? : Option Routine) :
    Act T ⟨s, owed⟩ ⟨{ s with routine := r? }, owed⟩
  | number {s : Compilation σ} {owed : List Nat} :
    Act T ⟨s, owed⟩
      ⟨{ s with labels := ⟨s.labels.nextNumber + 1⟩ }, s.labels.nextNumber :: owed⟩
  | put {s : Compilation σ} {owed left : List Nat} {i : Instruction} {sink : σ} :
    MayPut T s.names owed i left → CodeSink.put? s.sink i = some sink →
    Act T ⟨s, owed⟩ ⟨{ s with sink := sink }, left⟩

/-- Any number of acts. -/
abbrev Run {σ : Type} [CodeSink σ] (T : Token → Prop) : Progress σ → Progress σ → Prop :=
  Relation.ReflTransGen (Act T)

/-- The sink does not take what is put next. -/
def Progress.Refused {σ : Type} [CodeSink σ] (T : Token → Prop) (p : Progress σ) : Prop :=
  ∃ i left, MayPut T p.state.names p.owed i left ∧ CodeSink.put? p.state.sink i = none

/-- A part of compiling is done by acts, whether it fails or not. With its result, labels with
certain numbers are owed. -/
structure Acts {σ α : Type} [CodeSink σ] (T : Token → Prop) (owed : List Nat)
    (x : Compiling σ α) (left : List Nat) (Q : α → Prop) : Prop where
  ok {s s' : Compilation σ} {a : α} : s.tokens.Offers T → x s = .ok a s' →
    Run T ⟨s, owed⟩ ⟨s', left⟩ ∧ Q a
  error {s s' : Compilation σ} {e : CompileError} : s.tokens.Offers T → x s = .error e s' →
    ∃ rest, Run T ⟨s, owed⟩ ⟨s', rest⟩ ∧ (e = .refused → Progress.Refused T ⟨s', rest⟩)

section Run

variable {σ : Type} [CodeSink σ] {T : Token → Prop} {p q : Progress σ}

theorem Act.offers (h : Act T p q) (hp : p.state.tokens.Offers T) : q.state.tokens.Offers T := by
  cases h with
  | read hnext => exact (hp.next_ok hnext).1
  | misread hnext => exact hp.next_error hnext
  | unread hunread => exact hp.unread hunread
  | declare | enter | move | number | put => exact hp

theorem Run.offers (h : Run T p q) (hp : p.state.tokens.Offers T) : q.state.tokens.Offers T := by
  induction h with
  | refl => exact hp
  | tail _ hact ih => exact hact.offers ih

end Run

theorem Compiling.className_first {σ α : Type} {f : Declarations → String → Compiling σ α} :
    (names >>= fun d => className >>= f d) = className >>= fun object => names >>= (f · object) :=
  rfl

namespace Acts

open Compiling

variable {σ α β : Type} [CodeSink σ] {T : Token → Prop} {owed mid left : List Nat}
  {Q : α → Prop} {R : β → Prop}

theorem bind {x : Compiling σ α} {f : α → Compiling σ β} (hx : Acts T owed x mid Q)
    (hf : ∀ a, Q a → Acts T mid (f a) left R) : Acts T owed (x >>= f) left R := by
  constructor
  · intro s s' b hs h
    obtain ⟨a, s1, h1, h2⟩ := bind_ok h
    obtain ⟨hrun, ha⟩ := hx.ok hs h1
    obtain ⟨hrun', hb⟩ := (hf a ha).ok (hrun.offers hs) h2
    exact ⟨hrun.trans hrun', hb⟩
  · intro s s' e hs h
    rcases bind_error h with h1 | ⟨a, s1, h1, h2⟩
    · exact hx.error hs h1
    · obtain ⟨hrun, ha⟩ := hx.ok hs h1
      obtain ⟨rest, hrun', hrefused⟩ := (hf a ha).error (hrun.offers hs) h2
      exact ⟨rest, hrun.trans hrun', hrefused⟩

theorem imp {Q' : α → Prop} {x : Compiling σ α} (hx : Acts T owed x left Q)
    (h : ∀ a, Q a → Q' a) : Acts T owed x left Q' := by
  constructor
  · intro s s' a hs hok
    obtain ⟨hrun, ha⟩ := hx.ok hs hok
    exact ⟨hrun, h a ha⟩
  · exact hx.error

theorem pure {a : α} (ha : Q a) : Acts T owed (Pure.pure a : Compiling σ α) owed Q := by
  constructor
  · intro s s' b _ h
    obtain ⟨rfl, rfl⟩ := pure_ok h
    exact ⟨.refl, ha⟩
  · intro s s' e _ h
    cases h

theorem throw {e : CompileError} (he : e ≠ .refused) :
    Acts T owed (MonadExcept.throw e : Compiling σ α) left Q := by
  constructor
  · intro s s' a _ h
    exact (throw_ok h).elim
  · intro s s' e' _ h
    cases h
    exact ⟨owed, .refl, fun h => absurd h he⟩

theorem next? : Acts T owed (Compiling.next? : Compiling σ (Option Token)) owed
    fun t? => ∀ t, t? = some t → T t := by
  constructor
  · intro s s' t? hs h
    unfold Compiling.next? at h
    split at h
    next u tokens hnext =>
      cases h
      exact ⟨.single (.read hnext), (hs.next_ok hnext).2⟩
    next => cases h
  · intro s s' e hs h
    unfold Compiling.next? at h
    split at h
    next => cases h
    next e' tokens hnext =>
      cases h
      exact ⟨owed, .single (.misread hnext), fun h => by cases h⟩

theorem next : Acts T owed (Compiling.next : Compiling σ Token) owed T := by
  unfold Compiling.next
  refine next?.bind fun t? ht => ?_
  cases t? with
  | none => exact throw (by simp)
  | some t => exact pure (ht t rfl)

theorem next_then {f : Token → Compiling σ β} (hf : ∀ t, T t → Acts T owed (f t) left R) :
    Acts T owed (Compiling.next >>= f) left R :=
  next.bind hf

theorem unread : Acts T owed (Compiling.unread : Compiling σ Unit) owed fun _ => True := by
  constructor
  · intro s s' u hs h
    unfold Compiling.unread at h
    split at h
    next hunread =>
      cases h
      exact ⟨.single (.unread hunread), trivial⟩
    next => cases h
  · intro s s' e hs h
    unfold Compiling.unread at h
    split at h
    next => cases h
    next e' tokens hunread =>
      cases h
      have htokens : tokens = s.tokens := by
        change s.tokens.unread = .error e' tokens at hunread
        unfold TokenStream.unread at hunread
        split at hunread <;> cases hunread
        rfl
      subst htokens
      exact ⟨owed, .refl, fun h => by cases h⟩

theorem beginTerm {t : Token} :
    Acts T owed (Compiling.beginTerm t : Compiling σ Unit) owed fun _ => True :=
  pure trivial

theorem expect {c : Symbol} {t : Token} :
    Acts T owed (Compiling.expect c t : Compiling σ Unit) owed fun _ => True := by
  unfold Compiling.expect
  split
  · exact pure trivial
  · exact throw (by simp)

theorem expectNext {c : Symbol} :
    Acts T owed (Compiling.expectNext c : Compiling σ Unit) owed fun _ => True := by
  unfold Compiling.expectNext
  exact next_then fun t _ => expect

theorem nameOf {t : Token} :
    Acts T owed (Compiling.nameOf t : Compiling σ String) owed fun _ => True := by
  unfold Compiling.nameOf
  split
  · exact pure trivial
  · exact throw (by simp)

theorem names : Acts T owed (Compiling.names : Compiling σ Declarations) owed fun _ => True := by
  constructor
  · intro s s' d _ h
    cases h
    exact ⟨.refl, trivial⟩
  · intro s s' e _ h
    cases h

theorem className : Acts T owed (Compiling.className : Compiling σ String) owed fun _ => True := by
  constructor
  · intro s s' name _ h
    cases h
    exact ⟨.refl, trivial⟩
  · intro s s' e _ h
    cases h

theorem currentRoutine :
    Acts T owed (Compiling.currentRoutine : Compiling σ (Option Routine)) owed fun _ => True := by
  constructor
  · intro s s' r? _ h
    cases h
    exact ⟨.refl, trivial⟩
  · intro s s' e _ h
    cases h

theorem setRoutine {r? : Option Routine} :
    Acts T owed (Compiling.setRoutine r? : Compiling σ Unit) owed fun _ => True := by
  constructor
  · intro s s' u _ h
    cases h
    exact ⟨.single (.move r?), trivial⟩
  · intro s s' e _ h
    cases h

theorem variableOf {t : Token} :
    Acts T owed (Compiling.variableOf t : Compiling σ Variable) owed fun _ => True := by
  unfold Compiling.variableOf
  refine nameOf.bind fun name _ => names.bind fun d _ => ?_
  split
  · exact pure trivial
  · exact throw (by simp)

theorem declareName {t : Token} {typeName : String} {k : VariableKind} :
    Acts T owed (Compiling.declareName t typeName k : Compiling σ Unit) owed fun _ => True := by
  unfold Compiling.declareName
  refine nameOf.bind fun name _ => ?_
  constructor
  · intro s s' u _ h
    rw [bind_of_ok (names_run s)] at h
    cases hd : s.names.declare name typeName k with
    | ok d =>
      simp only [hd] at h
      cases h
      exact ⟨.single (.declare hd), trivial⟩
    | error e =>
      simp only [hd] at h
      exact (throw_ok h).elim
  · intro s s' e _ h
    rw [bind_of_ok (names_run s)] at h
    cases hd : s.names.declare name typeName k with
    | ok d =>
      simp only [hd] at h
      cases h
    | error e =>
      simp only [hd] at h
      cases h
      exact ⟨owed, .refl, fun h => by cases h⟩

/-- What is put depends on the names in sight. -/
theorem put_of_names {f : Declarations → Instruction}
    (h : ∀ d, MayPut T d owed (f d) left) :
    Acts T owed (Compiling.names >>= fun d => put (f d) : Compiling σ Unit) left
      fun _ => True := by
  constructor
  · intro s s' u _ hput
    rw [bind_of_ok (names_run s)] at hput
    unfold put at hput
    split at hput
    next sink hsink =>
      cases hput
      exact ⟨.single (.put (h s.names) hsink), trivial⟩
    next => cases hput
  · intro s s' e _ hput
    rw [bind_of_ok (names_run s)] at hput
    unfold put at hput
    split at hput
    next => cases hput
    next hsink =>
      cases hput
      exact ⟨owed, .refl, fun _ => ⟨f s.names, left, h s.names, hsink⟩⟩

theorem put {i : Instruction} (h : ∀ d, MayPut T d owed i left) :
    Acts T owed (Compiling.put i : Compiling σ Unit) left fun _ => True :=
  put_of_names h

theorem put_then {i : Instruction} {f : Unit → Compiling σ β}
    (h : ∀ d, MayPut T d owed i mid) (hf : Acts T mid (f ()) left R) :
    Acts T owed (Compiling.put i >>= f) left R :=
  (put h).bind fun _ _ => hf

/-- Most instructions ask for nothing. -/
theorem plain_then {i : Instruction} {f : Unit → Compiling σ β} (hi : i.isPlain = true)
    (hf : Acts T owed (f ()) left R) : Acts T owed (Compiling.put i >>= f) left R :=
  put_then (fun _ => .plain hi) hf

theorem putAll {code : List Instruction} (h : ∀ i ∈ code, ∀ d, MayPut T d owed i owed) :
    Acts T owed (Compiling.putAll code : Compiling σ Unit) owed fun _ => True := by
  induction code with
  | nil => exact pure trivial
  | cons i code ih =>
    unfold Compiling.putAll
    exact put_then (h i (by simp)) (ih fun j hj => h j (by simp [hj]))

theorem pushVariable {v : Variable} :
    Acts T owed (Compiling.pushVariable v : Compiling σ Unit) owed fun _ => True := by
  unfold Compiling.pushVariable Variable.segment
  refine put fun d => .plain ?_
  cases v.kind <;> rfl

theorem popVariable {v : Variable} :
    Acts T owed (Compiling.popVariable v : Compiling σ Unit) owed fun _ => True := by
  unfold Compiling.popVariable
  exact put fun d => .plain rfl

theorem freshLabel_then {purpose : String} {f : Label → Compiling σ β}
    (hf : ∀ l : Label, Acts T (l.number :: owed) (f l) left R) :
    Acts T owed (freshLabel purpose >>= f) left R := by
  have hnumbered (s : Compilation σ) : (freshLabel purpose >>= f) s =
      f ⟨s.className, (s.routine.map Routine.name).getD "", purpose, s.labels.nextNumber⟩
        { s with labels := ⟨s.labels.nextNumber + 1⟩ } := rfl
  constructor
  · intro s s' b hs h
    rw [hnumbered] at h
    obtain ⟨hrun, hb⟩ := (hf _).ok (by exact hs) h
    exact ⟨.head .number hrun, hb⟩
  · intro s s' e hs h
    rw [hnumbered] at h
    obtain ⟨rest, hrun, hrefused⟩ := (hf _).error (by exact hs) h
    exact ⟨rest, .head .number hrun, hrefused⟩

/-- The names of a subroutine are forgotten when the next one is entered. -/
theorem enter_then {isMethod : Bool} {f : Unit → Compiling σ β} (hf : Acts T owed (f ()) left R) :
    Acts T owed (Compiling.names >>= fun d => setNames (d.enterSubroutine isMethod) >>= f)
      left R := by
  constructor
  · intro s s' b hs h
    obtain ⟨hrun, hb⟩ := hf.ok (s := { s with names := s.names.enterSubroutine isMethod }) hs h
    exact ⟨.head (.enter isMethod) hrun, hb⟩
  · intro s s' e hs h
    obtain ⟨rest, hrun, hrefused⟩ :=
      hf.error (s := { s with names := s.names.enterSubroutine isMethod }) hs h
    exact ⟨rest, .head (.enter isMethod) hrun, hrefused⟩

/-- Names stay in sight when an instruction is put. -/
theorem names_after_put {f : Declarations → Instruction} {g : Declarations → Compiling σ β} :
    (Compiling.names >>= fun d => Compiling.put (f d) >>= fun _ => g d) =
      (Compiling.names >>= fun d => Compiling.put (f d)) >>= fun _ => Compiling.names >>= g := by
  funext s
  rw [bind_of_ok (names_run s)]
  have hnames : (Compiling.names >>= fun d => Compiling.put (f d)) s =
      Compiling.put (f s.names) s := bind_of_ok (names_run s)
  cases hsink : CodeSink.put? s.sink (f s.names) with
  | none =>
    have hput : Compiling.put (f s.names) s = .error .refused s := by simp [Compiling.put, hsink]
    rw [bind_of_error hput, bind_of_error (hnames.trans hput)]
  | some sink =>
    have hput : Compiling.put (f s.names) s = .ok () { s with sink := sink } := by
      simp [Compiling.put, hsink]
    rw [bind_of_ok hput, bind_of_ok (hnames.trans hput), bind_of_ok (names_run _)]

/-- The size of the object is that of the class at the moment when the code of a constructor
starts. -/
theorem prologue_then {kind : RoutineKind} {name : String} {x : Compiling σ β}
    (hx : Acts T owed x left R) :
    Acts T owed (do
      let d ← Compiling.names
      let object ← Compiling.className
      Compiling.put (.function s!"{object}.{name}" (d.count .localVar))
      Compiling.putAll (prologue kind (d.count .field))
      x) left R := by
  rw [className_first]
  refine className.bind fun object _ => ?_
  rw [names_after_put]
  refine (put_of_names fun d => .plain rfl).bind fun _ _ => ?_
  cases kind with
  | constructor =>
    have hfirst (d : Declarations) :
        (Compiling.putAll (prologue .constructor (d.count .field)) >>= fun _ => x) =
          Compiling.put (.push .constant (d.count .field)) >>= fun _ =>
            Compiling.putAll [.call "Memory.alloc" 1, .pop .pointer 0] >>= fun _ => x :=
      bind_assoc _ _ _
    simp only [hfirst]
    rw [names_after_put]
    refine (put_of_names fun d => .objectSize).bind fun _ _ => names.bind fun d _ => ?_
    have hrest : ∀ i ∈ [Instruction.call "Memory.alloc" 1, .pop .pointer 0],
        i.isPlain = true := by simp [Instruction.isPlain]
    exact (putAll fun i hi d => .plain (hrest i hi)).bind fun _ _ => hx
  | method =>
    refine names.bind fun d _ => ?_
    have hcode : ∀ i ∈ prologue .method (d.count .field), i.isPlain = true := by
      simp [prologue, Instruction.isPlain]
    exact (putAll fun i hi d => .plain (hcode i hi)).bind fun _ _ => hx
  | function => exact names.bind fun d _ => (putAll (by simp [prologue])).bind fun _ _ => hx

end Acts

end JackVM
