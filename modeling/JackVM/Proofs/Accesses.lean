import JackVM.Proofs.Subroutines

namespace JackVM

/-- What a part of a subroutine cannot do without: the current object, or what a name stands for. -/
inductive Need where
  | object
  | variable (name : String)
  deriving DecidableEq, Repr

/-- A call without a qualifier is one of the current object. -/
def receiverNeed : Option String → Need
  | none => .object
  | some q => .variable q

mutual

def Term.needs : Term → List Need
  | .constant _ => []
  | .this => [.object]
  | .variable x => [.variable x]
  | .element x i => .variable x :: i.needs
  | .call q _ es => receiverNeed q :: argumentNeeds es
  | .parens e => e.needs
  | .unary _ t => t.needs

def Expression.needs : Expression → List Need
  | .chain t rest => t.needs ++ operationNeeds rest

def operationNeeds : List (BinaryOperator × Term) → List Need
  | [] => []
  | (_, t) :: rest => t.needs ++ operationNeeds rest

def argumentNeeds : List Expression → List Need
  | [] => []
  | e :: es => e.needs ++ argumentNeeds es

end

mutual

/-- The needs of a statement, in the order in which its code meets them. -/
def Statement.needs : Statement → List Need
  | .assign x e => e.needs ++ [.variable x]
  | .assignElement x i e => .variable x :: (i.needs ++ e.needs)
  | .branch c yes none => c.needs ++ statementNeeds yes
  | .branch c yes (some no) => c.needs ++ (statementNeeds yes ++ statementNeeds no)
  | .loop c body => c.needs ++ statementNeeds body
  | .perform q _ es => receiverNeed q :: argumentNeeds es
  | .giveBack none => []
  | .giveBack (some e) => e.needs

def statementNeeds : List Statement → List Need
  | [] => []
  | s :: ss => s.needs ++ statementNeeds ss

end

/-- The instructions that no need stands behind, which leave alone all that is declared. -/
def Instruction.isScratch : Instruction → Bool
  | .push .constant _ | .push .temp 0 | .push .that 0 => true
  | .pop .temp 0 | .pop .that 0 | .pop .pointer 1 => true
  | .push _ _ | .pop _ _ => false
  | _ => true

/-- A need is the reason for an instruction. -/
def Need.Explains (ρ : Scope) (i : Instruction) : Need → Prop
  | .object => i ∈ ρ.thisCode ∨ i = .push .pointer 0
  | .variable x => i ∈ ρ.pushCode x ∨ i ∈ ρ.popCode x

/-- Some code does what is needed of it, and but for scratch work nothing else. -/
structure Meets (ρ : Scope) (needs : List Need) (code : List Instruction) : Prop where
  explained {i : Instruction} : i ∈ code →
    i.isScratch = true ∨ ∃ need ∈ needs, need.Explains ρ i
  used {x : String} {v : Variable} : .variable x ∈ needs → ρ.find? x = some v →
    .push v.segment v.index ∈ code ∨ .pop v.segment v.index ∈ code

section Meets

variable {ρ : Scope} {needs more : List Need} {i : Instruction} {xs ys code : List Instruction}

theorem mem_pushCode {x : String} :
    i ∈ ρ.pushCode x ↔ ∃ v, ρ.find? x = some v ∧ i = .push v.segment v.index := by
  unfold Scope.pushCode
  cases ρ.find? x <;> simp

theorem mem_popCode {x : String} :
    i ∈ ρ.popCode x ↔ ∃ v, ρ.find? x = some v ∧ i = .pop v.segment v.index := by
  unfold Scope.popCode
  cases ρ.find? x <;> simp

theorem meets_nil : Meets ρ [] [] := by
  constructor
  · intro i hi
    cases hi
  · intro x v hx
    cases hx

theorem Meets.append (h : Meets ρ needs xs) (k : Meets ρ more ys) :
    Meets ρ (needs ++ more) (xs ++ ys) := by
  constructor
  · intro i hi
    rcases List.mem_append.mp hi with hi | hi
    · refine (h.explained hi).imp_right ?_
      rintro ⟨need, hneed, he⟩
      exact ⟨need, List.mem_append_left _ hneed, he⟩
    · refine (k.explained hi).imp_right ?_
      rintro ⟨need, hneed, he⟩
      exact ⟨need, List.mem_append_right _ hneed, he⟩
  · intro x v hx hv
    rcases List.mem_append.mp hx with hx | hx
    · exact (h.used hx hv).imp (List.mem_append_left _) (List.mem_append_left _)
    · exact (k.used hx hv).imp (List.mem_append_right _) (List.mem_append_right _)

theorem meets_scratch (h : ∀ i ∈ code, i.isScratch = true) : Meets ρ [] code :=
  ⟨fun hi => .inl (h _ hi), fun hx => by cases hx⟩

/-- Scratch work may come in between. -/
theorem Meets.cons (h : Meets ρ needs code) (hi : i.isScratch = true) :
    Meets ρ needs (i :: code) := by
  have hone : Meets ρ [] [i] := meets_scratch (by simpa using hi)
  exact hone.append h

theorem Meets.then_scratch (h : Meets ρ needs xs) (hys : ∀ i ∈ ys, i.isScratch = true) :
    Meets ρ needs (xs ++ ys) := by
  simpa using h.append (meets_scratch hys)

theorem meets_pushCode (x : String) : Meets ρ [.variable x] (ρ.pushCode x) := by
  constructor
  · intro i hi
    exact .inr ⟨_, List.mem_singleton_self _, .inl hi⟩
  · intro y v hy hv
    cases List.mem_singleton.mp hy
    exact .inl (mem_pushCode.mpr ⟨v, hv, rfl⟩)

theorem meets_popCode (x : String) : Meets ρ [.variable x] (ρ.popCode x) := by
  constructor
  · intro i hi
    exact .inr ⟨_, List.mem_singleton_self _, .inr hi⟩
  · intro y v hy hv
    cases List.mem_singleton.mp hy
    exact .inr (mem_popCode.mpr ⟨v, hv, rfl⟩)

theorem meets_object (h : ∀ i ∈ code, i ∈ ρ.thisCode ∨ i = .push .pointer 0) :
    Meets ρ [.object] code := by
  constructor
  · intro i hi
    exact .inr ⟨_, List.mem_singleton_self _, h i hi⟩
  · intro x v hx
    simp at hx

theorem meets_receiverCode (q : Option String) :
    Meets ρ [receiverNeed q] (ρ.receiverCode q) := by
  cases q with
  | none => exact meets_object (by simp [Scope.receiverCode])
  | some q => exact meets_pushCode q

theorem isScratch_stringCode (text : String) : ∀ i ∈ stringCode text, i.isScratch = true := by
  intro i hi
  rcases mem_stringCode.mp hi with rfl | rfl | ⟨c, -, rfl | rfl⟩ <;> rfl

theorem isScratch_constant (c : Constant) : ∀ i ∈ c.code, i.isScratch = true := by
  cases c with
  | string text => exact isScratch_stringCode text
  | _ => simp [Constant.code, Instruction.isScratch]

theorem isScratch_binary (op : BinaryOperator) : op.instruction.isScratch = true := by
  cases op <;> rfl

end Meets

section Code

variable (ρ : Scope)

mutual

theorem meets_term : (t : Term) → Meets ρ t.needs (t.code ρ)
  | .constant c => meets_scratch (isScratch_constant c)
  | .this => meets_object fun _ hi => .inl hi
  | .variable x => meets_pushCode x
  | .element x i => (meets_pushCode x).append
      ((meets_expression i).then_scratch (by simp [Instruction.isScratch]))
  | .call q f es => (meets_receiverCode q).append
      ((meets_arguments es).then_scratch (by simp [Instruction.isScratch]))
  | .parens e => meets_expression e
  | .unary op t => (meets_term t).then_scratch (by simp [Instruction.isScratch])

theorem meets_expression : (e : Expression) → Meets ρ e.needs (e.code ρ)
  | .chain t rest => (meets_term t).append (meets_operations rest)

theorem meets_operations : (rest : List (BinaryOperator × Term)) →
    Meets ρ (operationNeeds rest) (operationCode ρ rest)
  | [] => meets_nil
  | (op, t) :: rest =>
    (meets_term t).append ((meets_operations rest).cons (isScratch_binary op))

theorem meets_arguments : (es : List Expression) → Meets ρ (argumentNeeds es) (argumentCode ρ es)
  | [] => meets_nil
  | e :: es => (meets_expression e).append (meets_arguments es)

end

theorem meets_call (q : Option String) (f : String) (es : List Expression) :
    Meets ρ (receiverNeed q :: argumentNeeds es) (callCode ρ q f es) :=
  (meets_receiverCode q).append
    ((meets_arguments ρ es).then_scratch (by simp [Instruction.isScratch]))

mutual

theorem meets_statement : (st : Statement) → (n : Nat) → Meets ρ st.needs (st.code ρ n)
  | .assign x e, _ => (meets_expression ρ e).append (meets_popCode x)
  | .assignElement x i e, _ => by
    have hstore : ∀ i ∈ storeCode, i.isScratch = true := by
      simp [storeCode, Instruction.isScratch]
    have hvalue := ((meets_expression ρ e).then_scratch hstore).cons (i := .op .add) rfl
    exact (meets_pushCode x).append ((meets_expression ρ i).append hvalue)
  | .branch c yes none, n => by
    have hend : ∀ i ∈ [Instruction.label (ρ.label "IF_FALSE" n)], i.isScratch = true := by
      simp [Instruction.isScratch]
    have hyes := (meets_statements yes (n + 1)).then_scratch hend
    exact (meets_expression ρ c).append ((hyes.cons rfl).cons rfl)
  | .branch c yes (some no), n => by
    have hend : ∀ i ∈ [Instruction.label (ρ.label "IF_END" (n + 1 + labelCount yes))],
        i.isScratch = true := by
      simp [Instruction.isScratch]
    have hyes := meets_statements yes (n + 1)
    have hno := (meets_statements no (n + 1 + labelCount yes + 1)).then_scratch hend
    have hboth := hyes.append ((hno.cons (i := .label (ρ.label "IF_FALSE" n)) rfl).cons
      (i := .goto (ρ.label "IF_END" (n + 1 + labelCount yes))) rfl)
    exact (meets_expression ρ c).append ((hboth.cons rfl).cons rfl)
  | .loop c body, n => by
    have hend : ∀ i ∈ [Instruction.goto (ρ.label "WHILE_TOP" n),
        .label (ρ.label "WHILE_END" (n + 1))], i.isScratch = true := by
      simp [Instruction.isScratch]
    have hbody := (meets_statements body (n + 2)).then_scratch hend
    have hloop := (meets_expression ρ c).append ((hbody.cons (i := .ifGoto
      (ρ.label "WHILE_END" (n + 1))) rfl).cons (i := .op .not) rfl)
    exact hloop.cons rfl
  | .perform q f es, _ => (meets_call ρ q f es).then_scratch (by simp [Instruction.isScratch])
  | .giveBack none, _ => meets_scratch (by simp [Statement.code, Instruction.isScratch])
  | .giveBack (some e), _ =>
    (meets_expression ρ e).then_scratch (by simp [Instruction.isScratch])

theorem meets_statements : (ss : List Statement) → (n : Nat) →
    Meets ρ (statementNeeds ss) (statementCode ρ ss n)
  | [], _ => meets_nil
  | st :: ss, n => (meets_statement st n).append (meets_statements ss _)

end

end Code

section Scoped

variable {ρ : Scope}

theorem hasObject_of_receiver {q : Option String} (h : q = none → ρ.HasObject)
    (hneed : .object = receiverNeed q) : ρ.HasObject := by
  cases q with
  | none => exact h rfl
  | some q => cases hneed

mutual

theorem hasObject_of_term : (t : Term) → t.Scoped ρ → .object ∈ t.needs → ρ.HasObject
  | .constant _, _, hneed => by simp [Term.needs] at hneed
  | .this, h, _ => by simpa [Term.Scoped] using h
  | .variable x, _, hneed => by simp [Term.needs] at hneed
  | .element x i, h, hneed => by
    rw [Term.Scoped] at h
    exact hasObject_of_expression i h.2 (by simpa [Term.needs] using hneed)
  | .call q f es, h, hneed => by
    rw [Term.Scoped] at h
    rw [Term.needs, List.mem_cons] at hneed
    exact hneed.elim (hasObject_of_receiver h.1) (hasObject_of_arguments es h.2)
  | .parens e, h, hneed => by
    rw [Term.Scoped] at h
    exact hasObject_of_expression e h (by simpa [Term.needs] using hneed)
  | .unary op t, h, hneed => by
    rw [Term.Scoped] at h
    exact hasObject_of_term t h (by simpa [Term.needs] using hneed)

theorem hasObject_of_expression : (e : Expression) → e.Scoped ρ → .object ∈ e.needs →
    ρ.HasObject
  | .chain t rest, h, hneed => by
    rw [Expression.Scoped] at h
    rw [Expression.needs, List.mem_append] at hneed
    exact hneed.elim (hasObject_of_term t h.1) (hasObject_of_operations rest h.2)

theorem hasObject_of_operations : (rest : List (BinaryOperator × Term)) →
    OperationsScoped ρ rest → .object ∈ operationNeeds rest → ρ.HasObject
  | [], _, hneed => by simp [operationNeeds] at hneed
  | (op, t) :: rest, h, hneed => by
    rw [OperationsScoped] at h
    rw [operationNeeds, List.mem_append] at hneed
    exact hneed.elim (hasObject_of_term t h.1) (hasObject_of_operations rest h.2)

theorem hasObject_of_arguments : (es : List Expression) → ArgumentsScoped ρ es →
    .object ∈ argumentNeeds es → ρ.HasObject
  | [], _, hneed => by simp [argumentNeeds] at hneed
  | e :: es, h, hneed => by
    rw [ArgumentsScoped] at h
    rw [argumentNeeds, List.mem_append] at hneed
    exact hneed.elim (hasObject_of_expression e h.1) (hasObject_of_arguments es h.2)

end

mutual

theorem hasObject_of_statement : (st : Statement) → st.Scoped ρ → .object ∈ st.needs →
    ρ.HasObject
  | .assign x e, h, hneed => by
    rw [Statement.Scoped] at h
    exact hasObject_of_expression e h.2 (by simpa [Statement.needs] using hneed)
  | .assignElement x i e, h, hneed => by
    rw [Statement.Scoped] at h
    have hboth : .object ∈ i.needs ∨ .object ∈ e.needs := by
      simpa [Statement.needs] using hneed
    exact hboth.elim (hasObject_of_expression i h.2.1) (hasObject_of_expression e h.2.2)
  | .branch c yes none, h, hneed => by
    rw [Statement.Scoped] at h
    rw [Statement.needs, List.mem_append] at hneed
    exact hneed.elim (hasObject_of_expression c h.1) (hasObject_of_statements yes h.2)
  | .branch c yes (some no), h, hneed => by
    rw [Statement.Scoped] at h
    rw [Statement.needs, List.mem_append, List.mem_append] at hneed
    rcases hneed with hneed | hneed | hneed
    · exact hasObject_of_expression c h.1 hneed
    · exact hasObject_of_statements yes h.2.1 hneed
    · exact hasObject_of_statements no h.2.2 hneed
  | .loop c body, h, hneed => by
    rw [Statement.Scoped] at h
    rw [Statement.needs, List.mem_append] at hneed
    exact hneed.elim (hasObject_of_expression c h.1) (hasObject_of_statements body h.2)
  | .perform q f es, h, hneed => by
    rw [Statement.Scoped] at h
    rw [Statement.needs, List.mem_cons] at hneed
    exact hneed.elim (hasObject_of_receiver h.1) (hasObject_of_arguments es h.2)
  | .giveBack none, _, hneed => by simp [Statement.needs] at hneed
  | .giveBack (some e), h, hneed => by
    rw [Statement.Scoped] at h
    exact hasObject_of_expression e h.2 (by simpa [Statement.needs] using hneed)

/-- Statements that keep to the rules need the current object only where there is one. -/
theorem hasObject_of_statements : (ss : List Statement) → StatementsScoped ρ ss →
    .object ∈ statementNeeds ss → ρ.HasObject
  | [], _, hneed => by simp [statementNeeds] at hneed
  | st :: ss, h, hneed => by
    rw [StatementsScoped] at h
    rw [statementNeeds, List.mem_append] at hneed
    exact hneed.elim (hasObject_of_statement st h.1) (hasObject_of_statements ss h.2)

end

end Scoped

end JackVM
