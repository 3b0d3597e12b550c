import JackVM.Proofs.Independence

namespace JackVM

def TokenError.mapLines (f : Nat → Nat) : TokenError → TokenError
  | unknownWord line text => unknownWord (f line) text
  | openString line => openString (f line)
  | openComment line => openComment (f line)
  | largeInteger line text => largeInteger (f line) text
  | largeCharacter line c => largeCharacter (f line) c
  | nothingToUnread => nothingToUnread

def Token.mapLine (f : Nat → Nat) (t : Token) : Token :=
  { t with line := f t.line }

/-- The same error for a source whose lines are counted in another way. -/
def CompileError.mapLines (f : Nat → Nat) : CompileError → CompileError
  | token error => token (error.mapLines f)
  | unexpected found expected => unexpected (found.mapLine f) expected
  | undeclared line name => undeclared (f line) name
  | alreadyDeclared line error => alreadyDeclared (f line) error
  | thisInFunction line outside => thisInFunction (f line) outside
  | callInFunction line name => callInFunction (f line) name
  | e => e

/-- How two runs of compiling may differ. Lines are compared after a map on either side, and labels
of the second run have higher numbers. -/
structure Drift where
  line : Nat → Nat
  line' : Nat → Nat
  /-- There is a line on the second side for each on the first. -/
  exists_line (a : Nat) : ∃ b, line a = line' b
  labels : Nat

/-- The same token, at lines that may differ. -/
structure SameToken (δ : Drift) (t u : Token) : Prop where
  lexeme : t.lexeme = u.lexeme
  line : δ.line t.line = δ.line' u.line

namespace SameToken

variable {δ : Drift} {t u : Token}

theorem isSymbol (h : SameToken δ t u) (c : Symbol) : u.isSymbol c = t.isSymbol c := by
  simp [Token.isSymbol, h.lexeme]

theorem isKeyword (h : SameToken δ t u) (word : Keyword) :
    u.isKeyword word = t.isKeyword word := by
  simp [Token.isKeyword, h.lexeme]

theorem unexpected (h : SameToken δ t u) (expected : Expected) :
    (CompileError.unexpected t expected).mapLines δ.line =
      (CompileError.unexpected u expected).mapLines δ.line' := by
  simp [CompileError.mapLines, Token.mapLine, h.lexeme, h.line]

end SameToken

variable {σ σ' α β α' β' : Type} [CodeSink σ] [CodeSink σ'] {δ : Drift}

open Compiling in
/-- Two parts of compiling ask for the same things, one after the other, with results that are
related. At most a number of tokens may come, and another number of them is used at least before
there is a result. -/
inductive InStep (δ : Drift) (Q : α → β → Prop) :
    Nat → Nat → Compiling σ α → Compiling σ' β → Prop
  | done {n : Nat} {a : α} {b : β} : Q a b → InStep δ Q n 0 (pure a) (pure b)
  | stop {n m : Nat} {e e' : CompileError} : e.mapLines δ.line = e'.mapLines δ.line' →
    InStep δ Q n m (throw e) (throw e')
  | next_then {n m : Nat} {f : Token → Compiling σ α} {f' : Token → Compiling σ' β} :
    (∀ k t u, n = k + 1 → SameToken δ t u → InStep δ Q k (m - 1) (f t) (f' u)) →
    InStep δ Q n m (next >>= f) (next >>= f')
  | names {n m : Nat} {f : Declarations → Compiling σ α} {f' : Declarations → Compiling σ' β} :
    (∀ d, InStep δ Q n m (f d) (f' d)) → InStep δ Q n m (names >>= f) (names >>= f')
  | setNames {n m : Nat} {d : Declarations} {f : Unit → Compiling σ α}
      {f' : Unit → Compiling σ' β} : InStep δ Q n m (f ()) (f' ()) →
    InStep δ Q n m (setNames d >>= f) (setNames d >>= f')
  | className {n m : Nat} {f : String → Compiling σ α} {f' : String → Compiling σ' β} :
    (∀ name, InStep δ Q n m (f name) (f' name)) →
    InStep δ Q n m (className >>= f) (className >>= f')
  | setClassName {n m : Nat} {name : String} {f : Unit → Compiling σ α}
      {f' : Unit → Compiling σ' β} : InStep δ Q n m (f ()) (f' ()) →
    InStep δ Q n m (setClassName name >>= f) (setClassName name >>= f')
  | currentRoutine {n m : Nat} {f : Option Routine → Compiling σ α}
      {f' : Option Routine → Compiling σ' β} : (∀ r?, InStep δ Q n m (f r?) (f' r?)) →
    InStep δ Q n m (currentRoutine >>= f) (currentRoutine >>= f')
  | setRoutine {n m : Nat} {r? : Option Routine} {f : Unit → Compiling σ α}
      {f' : Unit → Compiling σ' β} : InStep δ Q n m (f ()) (f' ()) →
    InStep δ Q n m (setRoutine r? >>= f) (setRoutine r? >>= f')
  | label {n m : Nat} {purpose : String} {f : Label → Compiling σ α} {f' : Label → Compiling σ' β} :
    (∀ l, InStep δ Q n m (f l) (f' (l.raise δ.labels))) →
    InStep δ Q n m (freshLabel purpose >>= f) (freshLabel purpose >>= f')
  | put {n m : Nat} {i : Instruction} {f : Unit → Compiling σ α} {f' : Unit → Compiling σ' β} :
    InStep δ Q n m (f ()) (f' ()) →
    InStep δ Q n m (Compiling.put i >>= f) (Compiling.put (i.raise δ.labels) >>= f')

namespace InStep

variable {Q : α → β → Prop} {P : α' → β' → Prop} {n m m' j : Nat}

theorem mono {x : Compiling σ α} {x' : Compiling σ' β} (hx : InStep δ Q n m x x') (hm : m' ≤ m) :
    InStep δ Q n m' x x' := by
  induction hx generalizing m' with
  | done h =>
    obtain rfl := Nat.le_zero.mp hm
    exact .done h
  | stop h => exact .stop h
  | next_then _ ih => exact .next_then fun k t u hk h => ih k t u hk h (Nat.sub_le_sub_right hm 1)
  | names _ ih => exact .names fun d => ih d hm
  | setNames _ ih => exact .setNames (ih hm)
  | className _ ih => exact .className fun name => ih name hm
  | setClassName _ ih => exact .setClassName (ih hm)
  | currentRoutine _ ih => exact .currentRoutine fun r? => ih r? hm
  | setRoutine _ ih => exact .setRoutine (ih hm)
  | label _ ih => exact .label fun l => ih l hm
  | put _ ih => exact .put (ih hm)

/-- What is used in all is what the first part uses and what is left of it for the second. -/
theorem bind {x : Compiling σ α} {x' : Compiling σ' β} {f : α → Compiling σ α'}
    {f' : β → Compiling σ' β'} (hx : InStep δ Q n j x x')
    (hf : ∀ k a b, k + j ≤ n → Q a b → InStep δ P k (m - j) (f a) (f' b)) :
    InStep δ P n m (x >>= f) (x' >>= f') := by
  induction hx generalizing m with
  | done h => exact hf _ _ _ (Nat.le_refl _) h
  | stop h => exact .stop h
  | next_then _ ih =>
    simp only [bind_assoc]
    refine .next_then fun k t u hk htu => ih k t u hk htu fun l a b hl hab => ?_
    exact (hf l a b (by omega) hab).mono (by omega)
  | names _ ih =>
    simp only [bind_assoc]
    exact .names fun d => ih d hf
  | setNames _ ih =>
    simp only [bind_assoc]
    exact .setNames (ih hf)
  | className _ ih =>
    simp only [bind_assoc]
    exact .className fun name => ih name hf
  | setClassName _ ih =>
    simp only [bind_assoc]
    exact .setClassName (ih hf)
  | currentRoutine _ ih =>
    simp only [bind_assoc]
    exact .currentRoutine fun r? => ih r? hf
  | setRoutine _ ih =>
    simp only [bind_assoc]
    exact .setRoutine (ih hf)
  | label _ ih =>
    simp only [bind_assoc]
    exact .label fun l => ih l hf
  | put _ ih =>
    simp only [bind_assoc]
    exact .put (ih hf)

section Tokens

variable {t u : Token}

theorem next : InStep δ (SameToken δ) n 1 (Compiling.next : Compiling σ Token)
    (Compiling.next : Compiling σ' Token) := by
  rw [← bind_pure (Compiling.next : Compiling σ Token),
    ← bind_pure (Compiling.next : Compiling σ' Token)]
  exact .next_then fun k t u _ h => .done h

/-- A part that has read before ends with reading. -/
theorem last : InStep δ (SameToken δ) n 0 (Compiling.next : Compiling σ Token)
    (Compiling.next : Compiling σ' Token) :=
  next.mono (Nat.zero_le 1)

theorem unexpected {expected : Expected} (h : SameToken δ t u) :
    InStep δ P n m (throw (.unexpected t expected) : Compiling σ α')
      (throw (.unexpected u expected) : Compiling σ' β') :=
  .stop (h.unexpected expected)

theorem expect_then {c : Symbol} {f : Unit → Compiling σ α'} {f' : Unit → Compiling σ' β'}
    (h : SameToken δ t u) (hf : InStep δ P n m (f ()) (f' ())) :
    InStep δ P n m (Compiling.expect c t >>= f) (Compiling.expect c u >>= f') := by
  unfold Compiling.expect
  rw [h.isSymbol]
  split
  next => exact hf
  next => exact unexpected h

theorem expectNext_then {c : Symbol} {f : Unit → Compiling σ α'} {f' : Unit → Compiling σ' β'}
    (hf : ∀ k, n = k + 1 → InStep δ P k (m - 1) (f ()) (f' ())) :
    InStep δ P n m (Compiling.expectNext c >>= f) (Compiling.expectNext c >>= f') := by
  unfold Compiling.expectNext
  simp only [bind_assoc]
  exact .next_then fun k t u hk h => expect_then h (hf k hk)

theorem expectBlockEnd_then {f : Unit → Compiling σ α'} {f' : Unit → Compiling σ' β'}
    (h : SameToken δ t u) (hf : InStep δ P n m (f ()) (f' ())) :
    InStep δ P n m (Compiling.expectBlockEnd t >>= f) (Compiling.expectBlockEnd u >>= f') := by
  unfold Compiling.expectBlockEnd
  rw [h.isSymbol]
  split
  next => exact hf
  next => exact unexpected h

theorem nameOf_then {f : String → Compiling σ α'} {f' : String → Compiling σ' β'}
    (h : SameToken δ t u) (hf : ∀ name, t.lexeme = .identifier name →
      InStep δ P n m (f name) (f' name)) :
    InStep δ P n m (Compiling.nameOf t >>= f) (Compiling.nameOf u >>= f') := by
  obtain ⟨x, a⟩ := t
  obtain ⟨y, b⟩ := u
  obtain rfl : x = y := h.lexeme
  cases x with
  | identifier name => exact hf name rfl
  | _ => exact unexpected h

theorem typeOf_then {f : String → Compiling σ α'} {f' : String → Compiling σ' β'}
    (h : SameToken δ t u) (hf : ∀ typeName, InStep δ P n m (f typeName) (f' typeName)) :
    InStep δ P n m (Compiling.typeOf t >>= f) (Compiling.typeOf u >>= f') := by
  unfold Compiling.typeOf
  rw [← h.lexeme]
  split
  case h_5 => exact unexpected h
  all_goals exact hf _

theorem checkReturnType_then {f : Unit → Compiling σ α'} {f' : Unit → Compiling σ' β'}
    (h : SameToken δ t u) (hf : InStep δ P n m (f ()) (f' ())) :
    InStep δ P n m (Compiling.checkReturnType t >>= f) (Compiling.checkReturnType u >>= f') := by
  unfold Compiling.checkReturnType
  rw [← h.lexeme]
  split
  case h_6 => exact unexpected h
  all_goals exact hf

theorem variableOf_then {f : Variable → Compiling σ α'} {f' : Variable → Compiling σ' β'}
    (h : SameToken δ t u) (hf : ∀ v, InStep δ P n m (f v) (f' v)) :
    InStep δ P n m (Compiling.variableOf t >>= f) (Compiling.variableOf u >>= f') := by
  unfold Compiling.variableOf
  simp only [bind_assoc]
  refine nameOf_then h fun name _ => .names fun d => ?_
  cases d.find? name with
  | some v => exact hf v
  | none => exact .stop (by simp [CompileError.mapLines, h.line])

theorem declareName_then {typeName : String} {k : VariableKind} {f : Unit → Compiling σ α'}
    {f' : Unit → Compiling σ' β'} (h : SameToken δ t u) (hf : InStep δ P n m (f ()) (f' ())) :
    InStep δ P n m (Compiling.declareName t typeName k >>= f)
      (Compiling.declareName u typeName k >>= f') := by
  unfold Compiling.declareName
  simp only [bind_assoc]
  refine nameOf_then h fun name _ => .names fun d => ?_
  cases d.declare name typeName k with
  | ok d => exact .setNames hf
  | error e => exact .stop (by simp [CompileError.mapLines, h.line])

end Tokens

section Code

variable {f : Unit → Compiling σ α'} {f' : Unit → Compiling σ' β'}

theorem put_then {i : Instruction} (hi : i.raise δ.labels = i)
    (hf : InStep δ P n m (f ()) (f' ())) :
    InStep δ P n m (Compiling.put i >>= f) (Compiling.put i >>= f') := by
  have h : InStep δ P n m (Compiling.put i >>= f) (Compiling.put (i.raise δ.labels) >>= f') :=
    .put hf
  rwa [hi] at h

theorem putAll_then {code : List Instruction} (hcode : Straight code)
    (hf : InStep δ P n m (f ()) (f' ())) :
    InStep δ P n m (Compiling.putAll code >>= f) (Compiling.putAll code >>= f') := by
  induction code with
  | nil => exact hf
  | cons i code ih =>
    obtain ⟨hi, hcode⟩ := straight_cons.mp hcode
    simp only [Compiling.putAll, bind_assoc]
    exact put_then (Instruction.raise_of_isStraight hi) (ih hcode)

end Code

end InStep

end JackVM
