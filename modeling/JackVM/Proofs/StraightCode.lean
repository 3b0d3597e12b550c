import JackVM.Proofs.TreeCode

namespace JackVM

/-- The instructions after which the next one is run, and that only use the stack and the
segments. -/
def Instruction.isStraight : Instruction → Bool
  | .push _ _ | .pop _ _ | .op _ | .call _ _ => true
  | .label _ | .goto _ | .ifGoto _ | .function _ _ | .ret => false

def Straight (code : List Instruction) : Prop :=
  ∀ i ∈ code, i.isStraight = true

section Lists

variable {xs ys : List Instruction} {i : Instruction}

@[simp] theorem straight_nil : Straight [] := by
  simp [Straight]

@[simp] theorem straight_cons : Straight (i :: xs) ↔ i.isStraight = true ∧ Straight xs := by
  simp [Straight]

@[simp] theorem straight_append : Straight (xs ++ ys) ↔ Straight xs ∧ Straight ys := by
  simp [Straight, or_imp, forall_and]

end Lists

section Code

variable (ρ : Scope)

theorem mem_stringCode {text : String} {i : Instruction} : i ∈ stringCode text ↔
    i = .push .constant text.length ∨ i = .call "String.new" 1 ∨
      ∃ c ∈ text.toList, i = .push .constant c.toNat ∨ i = .call "String.appendChar" 2 := by
  simp [stringCode]

theorem straight_stringCode (text : String) : Straight (stringCode text) := by
  intro i hi
  rcases mem_stringCode.mp hi with rfl | rfl | ⟨c, -, rfl | rfl⟩ <;> rfl

theorem straight_constant (c : Constant) : Straight c.code := by
  cases c with
  | string text => exact straight_stringCode text
  | _ => simp [Constant.code, Instruction.isStraight]

theorem straight_pushCode (name : String) : Straight (ρ.pushCode name) := by
  unfold Scope.pushCode
  split <;> simp [Instruction.isStraight]

theorem straight_popCode (name : String) : Straight (ρ.popCode name) := by
  unfold Scope.popCode
  split <;> simp [Instruction.isStraight]

theorem straight_thisCode : Straight ρ.thisCode := by
  unfold Scope.thisCode
  split <;> simp [Instruction.isStraight]

theorem straight_receiverCode (q : Option String) : Straight (ρ.receiverCode q) := by
  cases q with
  | none => simp [Scope.receiverCode, Instruction.isStraight]
  | some q => exact straight_pushCode ρ q

theorem straight_prologue (kind : RoutineKind) (fields : Nat) :
    Straight (prologue kind fields) := by
  unfold prologue
  split <;> simp [Instruction.isStraight]

theorem isStraight_binary (op : BinaryOperator) : op.instruction.isStraight = true := by
  cases op <;> rfl

mutual

theorem straight_term : (e : Term) → Straight (e.code ρ)
  | .constant c => straight_constant c
  | .this => straight_thisCode ρ
  | .variable x => straight_pushCode ρ x
  | .element x i => by
    simp [Term.code, straight_pushCode, straight_expression i, Instruction.isStraight]
  | .call q f es => by
    simp [Term.code, straight_receiverCode, straight_arguments es, Instruction.isStraight]
  | .parens e => straight_expression e
  | .unary op t => by
    simp [Term.code, straight_term t, Instruction.isStraight]

theorem straight_expression : (e : Expression) → Straight (e.code ρ)
  | .chain t rest => by
    simp [Expression.code, straight_term t, straight_operations rest]

theorem straight_operations : (rest : List (BinaryOperator × Term)) →
    Straight (operationCode ρ rest)
  | [] => straight_nil
  | (op, t) :: rest => by
    simp [operationCode, straight_term t, isStraight_binary, straight_operations rest]

theorem straight_arguments : (es : List Expression) → Straight (argumentCode ρ es)
  | [] => straight_nil
  | e :: es => by
    simp [argumentCode, straight_expression e, straight_arguments es]

end

theorem straight_call (q : Option String) (f : String) (es : List Expression) :
    Straight (callCode ρ q f es) := by
  simp [callCode, straight_receiverCode, straight_arguments, Instruction.isStraight]

end Code

end JackVM
