import JackVM.Proofs.Evaluation
import JackVM.Proofs.ExpressionReading

namespace JackVM

/-- From a memory, code of a subroutine puts values on the stack, the last one on top, and leaves
another memory. It may only lose the address of `that` and what calls do to `temp`. -/
def Computes (lib : Library) (φ : Frame) (μ : Memory) (code : List Instruction) (vs : List Word)
    (ν : Memory) : Prop :=
  ∀ stack that temp, ∃ that' temp', (lib.KeepsTemp → temp' = temp) ∧
    run lib code ⟨⟨φ, μ⟩, stack, that, temp⟩ = some ⟨⟨φ, ν⟩, vs ++ stack, that', temp'⟩

section Computes

variable {lib : Library} {φ : Frame} {μ ν ξ : Memory} {xs ys code : List Instruction}
  {vs ws : List Word} {v w u : Word}

theorem computes_nil : Computes lib φ μ [] [] μ :=
  fun _ that temp => ⟨that, temp, fun _ => rfl, rfl⟩

theorem Computes.append (hx : Computes lib φ μ xs vs ν) (hy : Computes lib φ ν ys ws ξ) :
    Computes lib φ μ (xs ++ ys) (ws ++ vs) ξ := by
  intro stack that temp
  obtain ⟨that1, temp1, hkeep1, h1⟩ := hx stack that temp
  obtain ⟨that2, temp2, hkeep2, h2⟩ := hy (vs ++ stack) that1 temp1
  refine ⟨that2, temp2, fun hk => (hkeep2 hk).trans (hkeep1 hk), ?_⟩
  rw [run_append, h1, List.append_assoc]
  exact h2

theorem computes_push {segment : Segment} {k : Nat}
    (h : ∀ stack that temp, Machine.read ⟨⟨φ, μ⟩, stack, that, temp⟩ segment k = some v) :
    Computes lib φ μ [.push segment k] [v] μ := by
  intro stack that temp
  refine ⟨that, temp, fun _ => rfl, ?_⟩
  rw [run_singleton, Instruction.execute, h]
  rfl

theorem StackOp.work_append {o : StackOp} (h : o.work vs = some ws) (stack : List Word) :
    o.work (vs ++ stack) = some (ws ++ stack) := by
  unfold work at h
  split at h <;> cases h <;> rfl

theorem Computes.op {o : StackOp} (h : Computes lib φ μ code vs ν) (hwork : o.work vs = some ws) :
    Computes lib φ μ (code ++ [Instruction.op o]) ws ν := by
  intro stack that temp
  obtain ⟨that', temp', hkeep, hrun⟩ := h stack that temp
  refine ⟨that', temp', hkeep, ?_⟩
  rw [run_append, hrun, Option.bind_some, run_singleton, Instruction.execute,
    StackOp.work_append hwork]
  rfl

theorem Computes.call {name : String} (ws : List Word) (h : Computes lib φ μ code ws.reverse ν)
    (hcall : lib.call name ws ν = (v, ξ)) :
    Computes lib φ μ (code ++ [Instruction.call name ws.length]) [v] ξ := by
  intro stack that temp
  obtain ⟨that', temp', hkeep, hrun⟩ := h stack that temp
  obtain ⟨rfl, rfl⟩ := Evaluation.of_call hcall
  refine ⟨that', (lib name ws ν).temp temp', ?_, ?_⟩
  · intro hk
    rw [hk, id, hkeep hk]
  · have hlen : ws.length ≤ (ws.reverse ++ stack).length := by simp
    have htake : (ws.reverse ++ stack).take ws.length = ws.reverse := by simp
    have hdrop : (ws.reverse ++ stack).drop ws.length = stack := by simp
    rw [run_append, hrun, Option.bind_some, run_singleton, Instruction.execute, Machine.call,
      if_pos hlen]
    simp only [htake, hdrop, List.reverse_reverse]
    rfl

/-- An address on the stack is replaced by what the heap holds there. -/
theorem Computes.fetch (h : Computes lib φ μ code [v] ν) :
    Computes lib φ μ (code ++ [Instruction.pop .pointer 1, .push .that 0]) [ν.heap v] ν := by
  intro stack that temp
  obtain ⟨that', temp', hkeep, hrun⟩ := h stack that temp
  refine ⟨v, temp', hkeep, ?_⟩
  rw [run_append, hrun]
  simp [run_cons, Instruction.execute, Machine.write, Machine.read]

theorem Computes.unary (op : UnaryOperator) (h : Computes lib φ μ code [v] ν) :
    Computes lib φ μ (code ++ [Instruction.op op.operation]) [op.apply v] ν := by
  apply h.op
  cases op <;> rfl

theorem Computes.binary {op : BinaryOperator} (h : Computes lib φ μ code [w, v] ν)
    (happly : op.apply lib v w ν = (u, ξ)) :
    Computes lib φ μ (code ++ [op.instruction]) [u] ξ := by
  cases op with
  | multiply => exact h.call [v, w] happly
  | divide => exact h.call [v, w] happly
  | _ =>
    obtain ⟨rfl, rfl⟩ := Evaluation.of_pure happly
    exact h.op rfl

end Computes

section Code

variable {lib : Library} {ρ : Scope} {φ : Frame} {μ ν : Memory} {v : Word}

theorem computes_integer (n : Nat) :
    Computes lib φ μ [.push .constant n] [BitVec.ofNat 16 n] μ :=
  computes_push fun _ _ _ => rfl

theorem computes_characters {cs : List Char} {code : List Instruction} {ξ : Memory} {s : Word}
    (hcode : Computes lib φ ξ code [s] μ)
    (h : cs.foldlM (fun s c => lib.call "String.appendChar" [s, BitVec.ofNat 16 c.toNat]) s μ =
      (v, ν)) :
    Computes lib φ ξ
      (code ++ cs.flatMap fun c =>
        [Instruction.push .constant c.toNat, .call "String.appendChar" 2]) [v] ν := by
  induction cs generalizing code s μ with
  | nil =>
    obtain ⟨rfl, rfl⟩ := Evaluation.of_pure h
    simpa using hcode
  | cons c cs ih =>
    rw [List.foldlM_cons] at h
    obtain ⟨s', μ', happend, hrest⟩ := Evaluation.of_bind h
    have hc := (hcode.append (computes_integer c.toNat)).call [s, _] happend
    have hcs := ih hc hrest
    simpa [List.append_assoc] using hcs

theorem computes_string {text : String} (h : stringValue lib text μ = (v, ν)) :
    Computes lib φ μ (stringCode text) [v] ν := by
  obtain ⟨s, μ', hnew, hrest⟩ := Evaluation.of_bind h
  have hlength : Computes lib φ μ _ _ μ := computes_integer text.length
  exact computes_characters (hlength.call [_] hnew) hrest

theorem computes_constant {c : Constant} (h : c.eval lib μ = (v, ν)) :
    Computes lib φ μ c.code [v] ν := by
  cases c with
  | string text => exact computes_string h
  | true =>
    obtain ⟨rfl, rfl⟩ := Evaluation.of_pure h
    exact (computes_integer 1).unary .negate
  | _ =>
    obtain ⟨rfl, rfl⟩ := Evaluation.of_pure h
    exact computes_integer _

theorem computes_this (hobj : ρ.HasObject) :
    Computes lib φ μ ρ.thisCode [φ.object ρ.routine.kind] μ := by
  unfold Scope.HasObject at hobj
  unfold Scope.thisCode
  cases hk : ρ.routine.kind with
  | method => exact computes_push fun _ _ _ => rfl
  | constructor => exact computes_push fun _ _ _ => rfl
  | function => exact absurd hk hobj

theorem computes_pushCode (lib : Library) {name : String} (hd : ρ.Declares name)
    (h : ρ.valueOf φ name μ = (v, ν)) : ν = μ ∧ Computes lib φ μ (ρ.pushCode name) [v] ν := by
  obtain ⟨x, hx⟩ := Option.isSome_iff_exists.mp hd
  obtain ⟨ξ, ν', hget, hrest⟩ := Evaluation.of_bind h
  obtain ⟨rfl, rfl⟩ := Evaluation.of_get hget
  rw [hx] at hrest
  obtain ⟨rfl, rfl⟩ := Evaluation.of_pure hrest
  rw [Scope.pushCode, hx]
  exact ⟨rfl, computes_push fun _ _ _ => read_variable x⟩

theorem computes_receiver (lib : Library) {q : Option String} {vs : List Word}
    (h : ρ.receiver φ q μ = (vs, ν)) :
    vs.length = (ρ.receiverCode q).length ∧
      Computes lib φ μ (ρ.receiverCode q) vs.reverse ν := by
  cases q with
  | none =>
    obtain ⟨rfl, rfl⟩ := Evaluation.of_pure h
    exact ⟨rfl, computes_push fun _ _ _ => rfl⟩
  | some q =>
    unfold Scope.receiver at h
    unfold Scope.receiverCode
    dsimp only at h ⊢
    split at h
    next hd =>
      obtain ⟨w, μ', hvalue, hrest⟩ := Evaluation.of_bind h
      obtain ⟨rfl, hpush⟩ := computes_pushCode lib hd hvalue
      obtain ⟨rfl, rfl⟩ := Evaluation.of_pure hrest
      obtain ⟨x, hx⟩ := Option.isSome_iff_exists.mp hd
      exact ⟨by simp [Scope.pushCode, hx], hpush⟩
    next hd =>
      obtain ⟨rfl, rfl⟩ := Evaluation.of_pure h
      have hnone : ρ.find? q = none := by simpa [Scope.Declares] using hd
      rw [Scope.pushCode, hnone]
      exact ⟨rfl, computes_nil⟩

mutual

theorem computes_term : (e : Term) → e.Scoped ρ → {μ ν : Memory} → {v : Word} →
    e.eval lib ρ φ μ = (v, ν) → Computes lib φ μ (e.code ρ) [v] ν
  | .constant _, _, _, _, _, h => computes_constant h
  | .this, hs, _, _, _, h => by
    obtain ⟨rfl, rfl⟩ := Evaluation.of_pure h
    exact computes_this hs
  | .variable _, hs, _, _, _, h => by
    obtain ⟨rfl, hpush⟩ := computes_pushCode lib hs h
    exact hpush
  | .element _ i, hs, _, _, _, h => by
    obtain ⟨base, μ1, hbase, h⟩ := Evaluation.of_bind h
    obtain ⟨index, μ2, hindex, h⟩ := Evaluation.of_bind h
    obtain ⟨ξ, μ3, hget, h⟩ := Evaluation.of_bind h
    obtain ⟨rfl, rfl⟩ := Evaluation.of_get hget
    obtain ⟨rfl, rfl⟩ := Evaluation.of_pure h
    obtain ⟨rfl, hpush⟩ := computes_pushCode lib hs.1 hbase
    have haddress := hpush.append (computes_expression i hs.2 hindex)
    have hsum := haddress.op (o := .add) rfl
    simpa [Term.code, List.append_assoc] using hsum.fetch
  | .call q f es, hs, _, _, _, h => by
    obtain ⟨object, μ1, hobject, h⟩ := Evaluation.of_bind h
    obtain ⟨vs, μ2, hvs, h⟩ := Evaluation.of_bind h
    obtain ⟨hobjectLength, hreceiver⟩ := computes_receiver lib hobject
    obtain ⟨hlength, harguments⟩ := computes_arguments es hs.2 hvs
    have hall := hreceiver.append harguments
    rw [← List.reverse_append] at hall
    have hcall := hall.call _ h
    rw [List.length_append, hobjectLength, hlength, Nat.add_comm, List.append_assoc] at hcall
    exact hcall
  | .parens e, hs, _, _, _, h => computes_expression e hs h
  | .unary _ t, hs, _, _, _, h => by
    obtain ⟨v, μ1, hv, h⟩ := Evaluation.of_bind h
    obtain ⟨rfl, rfl⟩ := Evaluation.of_pure h
    exact (computes_term t hs hv).unary _

theorem computes_expression : (e : Expression) → e.Scoped ρ → {μ ν : Memory} → {v : Word} →
    e.eval lib ρ φ μ = (v, ν) → Computes lib φ μ (e.code ρ) [v] ν
  | .chain t rest, hs, _, _, _, h => by
    obtain ⟨v, μ1, hv, h⟩ := Evaluation.of_bind h
    exact computes_operations rest hs.2 (computes_term t hs.1 hv) h

/-- Operators and terms replace the value of what stands before them. -/
theorem computes_operations : (rest : List (BinaryOperator × Term)) → OperationsScoped ρ rest →
    {code : List Instruction} → {ξ μ ν : Memory} → {v w : Word} →
    Computes lib φ ξ code [v] μ → operationValue lib ρ φ rest v μ = (w, ν) →
    Computes lib φ ξ (code ++ operationCode ρ rest) [w] ν
  | [], _, _, _, _, _, _, _, hcode, h => by
    obtain ⟨rfl, rfl⟩ := Evaluation.of_pure h
    simpa [operationCode] using hcode
  | (op, t) :: rest, hs, _, _, _, _, _, _, hcode, h => by
    obtain ⟨w, μ1, hw, h⟩ := Evaluation.of_bind h
    obtain ⟨u, μ2, hu, h⟩ := Evaluation.of_bind h
    have hboth := (hcode.append (computes_term t hs.1 hw)).binary hu
    have hrest := computes_operations rest hs.2 hboth h
    simpa [operationCode, List.append_assoc] using hrest

theorem computes_arguments : (es : List Expression) → ArgumentsScoped ρ es → {μ ν : Memory} →
    {vs : List Word} → argumentValues lib ρ φ es μ = (vs, ν) →
    vs.length = es.length ∧ Computes lib φ μ (argumentCode ρ es) vs.reverse ν
  | [], _, _, _, _, h => by
    obtain ⟨rfl, rfl⟩ := Evaluation.of_pure h
    exact ⟨rfl, computes_nil⟩
  | e :: es, hs, _, _, _, h => by
    obtain ⟨v, μ1, hv, h⟩ := Evaluation.of_bind h
    obtain ⟨vs, μ2, hvs, h⟩ := Evaluation.of_bind h
    obtain ⟨rfl, rfl⟩ := Evaluation.of_pure h
    obtain ⟨hlength, hes⟩ := computes_arguments es hs.2 hvs
    refine ⟨by simp [hlength], ?_⟩
    rw [List.reverse_cons]
    exact (computes_expression e hs.1 hv).append hes

end

end Code

/-- In every state of the machine, code puts the value of an expression on the stack. Of the state
it only changes the memory, as calls do, and the address of `that`. -/
def PushesValue (ρ : Scope) (e : Expression) (code : List Instruction) : Prop :=
  ∀ (lib : Library) (m : Machine), ∃ that temp, (lib.KeepsTemp → temp = m.temp) ∧
    run lib code m = some { m with
      stack := (e.eval lib ρ m.frame m.memory).1 :: m.stack
      memory := (e.eval lib ρ m.frame m.memory).2
      that := that
      temp := temp }

theorem pushesValue_code {ρ : Scope} {e : Expression} (h : e.Scoped ρ) :
    PushesValue ρ e (e.code ρ) :=
  fun _ m => computes_expression e h rfl m.stack m.that m.temp

/-- What is compiled as an expression computes the value of the expression from left to right. -/
theorem expression_pushesValue {r : Routine} {fuel : Nat} {t t' : Token}
    {s s' : Compilation (Array Instruction)} (hr : s.routine = some r)
    (h : Compiling.expression fuel t s = .ok t' s') :
    ∃ (e : Expression) (code : List Instruction), e.Scoped (s.scope r) ∧
      Spans e.lexemes (s.ahead t) (.ok t' :: s'.tokens.upcoming) ∧
      s'.sink.toList = s.sink.toList ++ code ∧ PushesValue (s.scope r) e code := by
  obtain ⟨e, hs, τ, rfl, hspan⟩ := (Compiling.readsGrammar r fuel).expression h hr
  refine ⟨e, e.code (s.scope r), hs, hspan, ?_, pushesValue_code hs⟩
  rw [Compilation.after_sink, addAll_array]

/-- What is left of an expression after its first term, a number, in a function. -/
def afterOne : Compilation (Array Instruction) :=
  { Compilation.ofText "+ 2 * 3;" #[] with
    className := "A"
    routine := some ⟨"f", .function, false⟩ }

/-- The first of two operators is worked first, although the second one multiplies. -/
theorem pushesValue_sum_times : ∃ e, PushesValue (afterOne.scope ⟨"f", .function, false⟩) e
    [.push .constant 1, .push .constant 2, .op .add, .push .constant 3,
      .call "Math.multiply" 2] := by
  have hcode : (match Compiling.expression 8 ⟨.integer "1", 1⟩ afterOne with
    | .ok _ s' => s'.sink.toList
    | .error _ _ => []) =
      [.push .constant 1, .push .constant 2, .op .add, .push .constant 3,
        .call "Math.multiply" 2] := by decide +kernel
  split at hcode
  next t' s' h =>
    obtain ⟨e, code, -, -, hsink, hvalue⟩ := expression_pushesValue rfl h
    have hnil : code = s'.sink.toList := hsink.symm
    rw [hnil, hcode] at hvalue
    exact ⟨e, hvalue⟩
  next => cases hcode

end JackVM
