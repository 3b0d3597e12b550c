import JackVM.Proofs.Subroutines

namespace JackVM

namespace Instruction

/-- How many values an instruction takes from the stack. -/
@[simp] def pops : Instruction → Nat
  | push _ _ | label _ | goto _ | function _ _ => 0
  | pop _ _ | ifGoto _ | ret => 1
  | op .neg | op .not => 1
  | op _ => 2
  | call _ arguments => arguments

/-- How many values it puts there instead. -/
@[simp] def pushes : Instruction → Nat
  | push _ _ | op _ | call _ _ => 1
  | pop _ _ | label _ | goto _ | ifGoto _ | function _ _ | ret => 0

/-- Where a jump goes. -/
@[simp] def target? : Instruction → Option Label
  | goto l | ifGoto l => some l
  | _ => none

end Instruction

/-- At each place in a subroutine's code the stack holds a fixed number of its own values. -/
structure StackSafe (body : List Instruction) (depth : Nat → Nat) : Prop where
  start : depth 0 = 0
  enough {k : Nat} {i : Instruction} : body[k]? = some i → i.pops ≤ depth k
  falls {k : Nat} {i : Instruction} : body[k]? = some i →
    depth (k + 1) = depth k - i.pops + i.pushes
  jumps {k : Nat} {i : Instruction} {l : Label} : body[k]? = some i → i.target? = some l →
    .label l ∈ body ∧ ∀ j, body[j]? = some (.label l) → depth j = depth k - i.pops
  labels {k : Nat} {l : Label} : body[k]? = some (.label l) → depth k = 0
  returns {k : Nat} : body[k]? = some .ret → depth k = 1
  finish : depth body.length = 0

/-- The depth that an instruction needs, where only one is right. -/
@[simp] def Instruction.required? : Instruction → Option Nat
  | label _ | goto _ => some 0
  | ifGoto _ | ret => some 1
  | _ => none

/-- Some code takes the stack from one depth to another, and is run without touching what was
there before. -/
def Balanced : Nat → List Instruction → Nat → Prop
  | d, [], d' => d = d'
  | d, i :: code, d' =>
    i.pops ≤ d ∧ (∀ r ∈ i.required?, d = r) ∧ Balanced (d - i.pops + i.pushes) code d'

section Balanced

variable {xs ys code : List Instruction} {d d' : Nat}

@[simp] theorem balanced_nil : Balanced d [] d' ↔ d = d' :=
  Iff.rfl

theorem balanced_cons {i : Instruction} : Balanced d (i :: code) d' ↔
    i.pops ≤ d ∧ (∀ r ∈ i.required?, d = r) ∧ Balanced (d - i.pops + i.pushes) code d' :=
  Iff.rfl

@[simp] theorem balanced_push {segment : Segment} {k : Nat} :
    Balanced d (.push segment k :: code) d' ↔ Balanced (d + 1) code d' := by
  simp [balanced_cons]

@[simp] theorem balanced_pop {segment : Segment} {k : Nat} :
    Balanced (d + 1) (.pop segment k :: code) d' ↔ Balanced d code d' := by
  simp [balanced_cons]

@[simp] theorem balanced_call {name : String} {n : Nat} :
    Balanced (d + n) (.call name n :: code) d' ↔ Balanced (d + 1) code d' := by
  simp [balanced_cons]

@[simp] theorem balanced_unary (op : UnaryOperator) :
    Balanced (d + 1) (.op op.operation :: code) d' ↔ Balanced (d + 1) code d' := by
  cases op <;> simp [balanced_cons, UnaryOperator.operation]

@[simp] theorem balanced_binary (op : BinaryOperator) :
    Balanced (d + 2) (op.instruction :: code) d' ↔ Balanced (d + 1) code d' := by
  cases op <;> simp [balanced_cons, BinaryOperator.instruction]

@[simp] theorem balanced_not :
    Balanced (d + 1) (.op .not :: code) d' ↔ Balanced (d + 1) code d' :=
  balanced_unary .complement

@[simp] theorem balanced_add :
    Balanced (d + 2) (.op .add :: code) d' ↔ Balanced (d + 1) code d' :=
  balanced_binary .add

@[simp] theorem balanced_label {l : Label} :
    Balanced 0 (.label l :: code) d' ↔ Balanced 0 code d' := by
  simp [balanced_cons]

@[simp] theorem balanced_goto {l : Label} :
    Balanced 0 (.goto l :: code) d' ↔ Balanced 0 code d' := by
  simp [balanced_cons]

@[simp] theorem balanced_ifGoto {l : Label} :
    Balanced 1 (.ifGoto l :: code) d' ↔ Balanced 0 code d' := by
  simp [balanced_cons]

@[simp] theorem balanced_ret : Balanced 1 (.ret :: code) d' ↔ Balanced 0 code d' := by
  simp [balanced_cons]

theorem balanced_append :
    Balanced d (xs ++ ys) d' ↔ ∃ m, Balanced d xs m ∧ Balanced m ys d' := by
  induction xs generalizing d with
  | nil => simp
  | cons i xs ih =>
    simp only [List.cons_append, balanced_cons, ih]
    constructor
    · rintro ⟨hpops, hreq, m, hxs, hys⟩
      exact ⟨m, ⟨hpops, hreq, hxs⟩, hys⟩
    · rintro ⟨m, ⟨hpops, hreq, hxs⟩, hys⟩
      exact ⟨hpops, hreq, m, hxs, hys⟩

theorem Balanced.append {m : Nat} (h : Balanced d xs m) (k : Balanced m ys d') :
    Balanced d (xs ++ ys) d' :=
  balanced_append.mpr ⟨m, h, k⟩

end Balanced

section Code

variable {ρ : Scope}

theorem balanced_stringCode (text : String) (d : Nat) : Balanced d (stringCode text) (d + 1) := by
  have hchars : ∀ cs : List Char, Balanced (d + 1)
      (cs.flatMap fun c => [.push .constant c.toNat, .call "String.appendChar" 2]) (d + 1) := by
    intro cs
    induction cs with
    | nil => rfl
    | cons c cs ih =>
      rw [List.flatMap_cons, List.cons_append, List.singleton_append, balanced_push]
      exact balanced_call.mpr ih
  rw [stringCode, balanced_push]
  exact balanced_call.mpr (hchars text.toList)

theorem balanced_constant (c : Constant) (d : Nat) : Balanced d c.code (d + 1) := by
  cases c with
  | string text => exact balanced_stringCode text d
  | true => exact balanced_push.mpr ((balanced_unary .negate).mpr rfl)
  | _ => simp [Constant.code]

theorem balanced_pushCode {name : String} (h : ρ.Declares name) (d : Nat) :
    Balanced d (ρ.pushCode name) (d + 1) := by
  obtain ⟨v, hv⟩ := Option.isSome_iff_exists.mp h
  simp [Scope.pushCode, hv]

theorem balanced_popCode {name : String} (h : ρ.Declares name) (d : Nat) :
    Balanced (d + 1) (ρ.popCode name) d := by
  obtain ⟨v, hv⟩ := Option.isSome_iff_exists.mp h
  simp [Scope.popCode, hv]

theorem balanced_thisCode (h : ρ.HasObject) (d : Nat) : Balanced d ρ.thisCode (d + 1) := by
  unfold Scope.HasObject at h
  unfold Scope.thisCode
  split
  next => simp
  next => simp
  next hk => exact absurd hk h

theorem balanced_receiverCode (q : Option String) (d : Nat) :
    Balanced d (ρ.receiverCode q) (d + (ρ.receiverCode q).length) := by
  cases q with
  | none => simp [Scope.receiverCode]
  | some q =>
    unfold Scope.receiverCode Scope.pushCode
    dsimp only
    split <;> simp

theorem balanced_callCode {q : Option String} {f : String} {es : List Expression} {d : Nat}
    (h : ∀ m, Balanced m (argumentCode ρ es) (m + es.length)) :
    Balanced d (callCode ρ q f es) (d + 1) := by
  refine (balanced_receiverCode q d).append ((h _).append ?_)
  rw [Nat.add_assoc, Nat.add_comm (ρ.receiverCode q).length]
  exact balanced_call.mpr rfl

mutual

theorem balanced_term : (e : Term) → e.Scoped ρ → (d : Nat) → Balanced d (e.code ρ) (d + 1)
  | .constant c, _, d => balanced_constant c d
  | .this, h, d => balanced_thisCode h d
  | .variable _, h, d => balanced_pushCode h d
  | .element _ i, h, d => by
    rw [Term.code]
    refine (balanced_pushCode h.1 d).append ((balanced_expression i h.2 (d + 1)).append ?_)
    exact balanced_add.mpr (balanced_pop.mpr (balanced_push.mpr rfl))
  | .call _ _ es, h, d => balanced_callCode fun m => balanced_arguments es h.2 m
  | .parens e, h, d => balanced_expression e h d
  | .unary op t, h, d => (balanced_term t h d).append ((balanced_unary op).mpr rfl)

theorem balanced_expression :
    (e : Expression) → e.Scoped ρ → (d : Nat) → Balanced d (e.code ρ) (d + 1)
  | .chain t rest, h, d => (balanced_term t h.1 d).append (balanced_operations rest h.2 d)

theorem balanced_operations : (rest : List (BinaryOperator × Term)) → OperationsScoped ρ rest →
    (d : Nat) → Balanced (d + 1) (operationCode ρ rest) (d + 1)
  | [], _, _ => rfl
  | (op, t) :: rest, h, d =>
    (balanced_term t h.1 (d + 1)).append ((balanced_binary op).mpr (balanced_operations rest h.2 d))

theorem balanced_arguments : (es : List Expression) → ArgumentsScoped ρ es → (d : Nat) →
    Balanced d (argumentCode ρ es) (d + es.length)
  | [], _, _ => rfl
  | e :: es, h, d => by
    have hes := balanced_arguments es h.2 (d + 1)
    rw [Nat.add_assoc, Nat.add_comm 1] at hes
    exact (balanced_expression e h.1 d).append hes

end

mutual

theorem balanced_statement : (st : Statement) → st.Scoped ρ → (n : Nat) →
    Balanced 0 (st.code ρ n) 0
  | .assign _ e, h, _ => (balanced_expression e h.2 0).append (balanced_popCode h.1 0)
  | .assignElement _ i e, h, _ => by
    rw [Statement.code]
    refine (balanced_pushCode h.1 0).append ((balanced_expression i h.2.1 1).append ?_)
    refine balanced_add.mpr ((balanced_expression e h.2.2 1).append ?_)
    simp [storeCode]
  | .branch c yes none, h, n => by
    rw [Statement.code]
    refine (balanced_expression c h.1 0).append (balanced_not.mpr (balanced_ifGoto.mpr ?_))
    exact (balanced_statements yes h.2 _).append (balanced_label.mpr rfl)
  | .branch c yes (some no), h, n => by
    rw [Statement.code]
    refine (balanced_expression c h.1 0).append (balanced_not.mpr (balanced_ifGoto.mpr ?_))
    refine (balanced_statements yes h.2.1 _).append (balanced_goto.mpr (balanced_label.mpr ?_))
    exact (balanced_statements no h.2.2 _).append (balanced_label.mpr rfl)
  | .loop c body, h, n => by
    rw [Statement.code]
    refine balanced_label.mpr ((balanced_expression c h.1 0).append ?_)
    refine balanced_not.mpr (balanced_ifGoto.mpr ((balanced_statements body h.2 _).append ?_))
    exact balanced_goto.mpr (balanced_label.mpr rfl)
  | .perform _ _ es, h, _ => by
    rw [Statement.code]
    exact (balanced_callCode fun m => balanced_arguments es h.2 m).append (balanced_pop.mpr rfl)
  | .giveBack none, _, _ => balanced_push.mpr (balanced_ret.mpr rfl)
  | .giveBack (some e), h, _ => (balanced_expression e h.2 0).append (balanced_ret.mpr rfl)

theorem balanced_statements : (ss : List Statement) → StatementsScoped ρ ss → (n : Nat) →
    Balanced 0 (statementCode ρ ss n) 0
  | [], _, _ => rfl
  | st :: ss, h, n => (balanced_statement st h.1 n).append (balanced_statements ss h.2 _)

end

end Code

theorem balanced_bodyCode {c : ClassHead} {r : RoutineTree} (h : c.Admits r) (n : Nat) :
    Balanced 0 (c.bodyCode r n) 0 := by
  refine Balanced.append ?_ (balanced_statements r.body h.body n)
  cases r.kind with
  | constructor =>
    have hcall : Balanced 1 [.call "Memory.alloc" 1, .pop .pointer 0] 0 :=
      balanced_call (d := 0) |>.mpr (balanced_pop.mpr rfl)
    exact balanced_push.mpr hcall
  | method => exact balanced_push.mpr (balanced_pop.mpr rfl)
  | function => exact rfl

/-- Every jump of some code goes to a label of other code. -/
def JumpsInto (xs code : List Instruction) : Prop :=
  ∀ i ∈ xs, ∀ l, i.target? = some l → .label l ∈ code

section Jumps

variable {xs ys code code' : List Instruction} {i : Instruction}

theorem JumpsInto.mono (h : JumpsInto xs code) (hsub : code ⊆ code') : JumpsInto xs code' :=
  fun i hi l hl => hsub (h i hi l hl)

@[simp] theorem jumpsInto_nil : JumpsInto [] code := by
  simp [JumpsInto]

@[simp] theorem jumpsInto_cons : JumpsInto (i :: xs) code ↔
    (∀ l, i.target? = some l → .label l ∈ code) ∧ JumpsInto xs code := by
  simp [JumpsInto]

@[simp] theorem jumpsInto_append :
    JumpsInto (xs ++ ys) code ↔ JumpsInto xs code ∧ JumpsInto ys code := by
  simp [JumpsInto, or_imp, forall_and]

theorem Straight.jumpsInto (h : Straight xs) : JumpsInto xs code := by
  intro i hi l hl
  have hs := h i hi
  cases i <;> simp [Instruction.isStraight] at hs hl

end Jumps

section Code

variable (ρ : Scope)

mutual

theorem jumps_statement : (st : Statement) → (n : Nat) → JumpsInto (st.code ρ n) (st.code ρ n)
  | .assign x e, _ =>
    Straight.jumpsInto (straight_append.mpr ⟨straight_expression ρ e, straight_popCode ρ x⟩)
  | .assignElement x i e, _ => by
    have hx := straight_pushCode ρ x
    have hi := straight_expression ρ i
    have he := straight_expression ρ e
    apply Straight.jumpsInto
    simp [Statement.code, storeCode, hx, hi, he, Instruction.isStraight]
  | .branch c yes none, n => by
    have hc := straight_expression ρ c
    have hyes := jumps_statements yes (n + 1)
    simp only [Statement.code, jumpsInto_append, jumpsInto_cons]
    refine ⟨hc.jumpsInto, ?_, ?_, hyes.mono ?_, ?_, jumpsInto_nil⟩
    · simp
    · simp
    · intro i hi
      simp [hi]
    · simp
  | .branch c yes (some no), n => by
    have hc := straight_expression ρ c
    have hyes := jumps_statements yes (n + 1)
    have hno := jumps_statements no (n + 1 + labelCount yes + 1)
    simp only [Statement.code, jumpsInto_append, jumpsInto_cons]
    refine ⟨hc.jumpsInto, ?_, ?_, hyes.mono ?_, ?_, ?_, hno.mono ?_, ?_, jumpsInto_nil⟩
    · simp
    · simp
    · intro i hi
      simp [hi]
    · simp
    · simp
    · intro i hi
      simp [hi]
    · simp
  | .loop c body, n => by
    have hc := straight_expression ρ c
    have hbody := jumps_statements body (n + 2)
    simp only [Statement.code, jumpsInto_append, jumpsInto_cons]
    refine ⟨?_, hc.jumpsInto, ?_, ?_, hbody.mono ?_, ?_, ?_, jumpsInto_nil⟩
    · simp
    · simp
    · simp
    · intro i hi
      simp [hi]
    · simp
    · simp
  | .perform q f es, _ => by
    have hcall := straight_call ρ q f es
    apply Straight.jumpsInto
    simp [Statement.code, hcall, Instruction.isStraight]
  | .giveBack none, _ => by
    simp [Statement.code]
  | .giveBack (some e), _ => by
    have he := straight_expression ρ e
    simp [Statement.code, he.jumpsInto]

theorem jumps_statements : (ss : List Statement) → (n : Nat) →
    JumpsInto (statementCode ρ ss n) (statementCode ρ ss n)
  | [], _ => jumpsInto_nil
  | st :: ss, n => by
    rw [statementCode, jumpsInto_append]
    exact ⟨(jumps_statement st n).mono (by simp), (jumps_statements ss _).mono (by simp)⟩

end

end Code

theorem jumps_bodyCode (c : ClassHead) (r : RoutineTree) (n : Nat) :
    JumpsInto (c.bodyCode r n) (c.bodyCode r n) := by
  rw [ClassHead.bodyCode, jumpsInto_append]
  exact ⟨(straight_prologue r.kind c.objectSize).jumpsInto, (jumps_statements _ r.body n).mono (by simp)⟩

/-- The depth at a place, if each instruction is reached from the one before. -/
def depthAt (body : List Instruction) (k : Nat) : Nat :=
  (body.take k).foldl (fun d i => d - i.pops + i.pushes) 0

theorem balanced_foldl {xs : List Instruction} {d d' : Nat} (h : Balanced d xs d') :
    xs.foldl (fun d i => d - i.pops + i.pushes) d = d' := by
  induction xs generalizing d with
  | nil => exact h
  | cons i xs ih => exact ih h.2.2

theorem depthAt_succ {body : List Instruction} {k : Nat} {i : Instruction}
    (h : body[k]? = some i) : depthAt body (k + 1) = depthAt body k - i.pops + i.pushes := by
  unfold depthAt
  rw [List.take_add_one, h]
  simp

theorem balanced_getElem? {body : List Instruction} (hbody : Balanced 0 body 0) {k : Nat}
    {i : Instruction} (h : body[k]? = some i) :
    i.pops ≤ depthAt body k ∧ ∀ r ∈ i.required?, depthAt body k = r := by
  obtain ⟨hk, rfl⟩ := List.getElem?_eq_some_iff.mp h
  rw [← List.take_append_drop k body, List.drop_eq_getElem_cons hk] at hbody
  obtain ⟨m, htake, hdrop⟩ := balanced_append.mp hbody
  have hm : depthAt body k = m := balanced_foldl htake
  rw [hm]
  exact ⟨hdrop.1, hdrop.2.1⟩

theorem stackSafe_of_balanced {body : List Instruction} (hbody : Balanced 0 body 0)
    (hjumps : JumpsInto body body) : StackSafe body (depthAt body) := by
  have hlabels : ∀ {k : Nat} {l : Label}, body[k]? = some (.label l) → depthAt body k = 0 :=
    fun h => (balanced_getElem? hbody h).2 0 rfl
  refine ⟨rfl, fun h => (balanced_getElem? hbody h).1, depthAt_succ, ?_, hlabels,
    fun h => (balanced_getElem? hbody h).2 1 rfl, ?_⟩
  · intro k i l h hl
    refine ⟨hjumps i (List.mem_of_getElem? h) l hl, ?_⟩
    intro j hj
    have hreq := (balanced_getElem? hbody h).2
    rw [hlabels hj]
    cases i with
    | goto l => simp [hreq 0 rfl]
    | ifGoto l => simp [hreq 1 rfl]
    | _ => simp at hl
  · have h := balanced_foldl hbody
    rwa [depthAt, List.take_length]

/-- A subroutine never touches the values that its caller left on the stack, and leaves none of its
own but the one it gives back. -/
theorem subroutines_stackSafe {source : String} {code : List Instruction} {sub : Subroutine}
    (h : compileInstructions source = .ok code) (hsub : sub ∈ subroutines code) :
    ∃ depth, StackSafe sub.body depth := by
  obtain ⟨c, r, n, -, -, hr, rfl⟩ := routine_of_mem_subroutines h hsub
  exact ⟨depthAt (c.bodyCode r n),
    stackSafe_of_balanced (balanced_bodyCode hr n) (jumps_bodyCode c.toClassHead r n)⟩

theorem stackSafe_countdown : ∃ depth, StackSafe countdown.body depth :=
  subroutines_stackSafe compile_countdown (by decide)

end JackVM
