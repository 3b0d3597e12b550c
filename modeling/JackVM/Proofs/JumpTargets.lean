import JackVM.Proofs.LabelTexts
import JackVM.Proofs.StackDepth

namespace JackVM

/-- The labels that jumps go to. -/
def targetsOf (code : List Instruction) : List Label :=
  code.filterMap Instruction.target?

def targetTexts (code : List Instruction) : List String :=
  (targetsOf code).map Label.text

section Lists

variable {xs ys code : List Instruction} {i : Instruction}

@[simp] theorem labelsOf_nil : labelsOf [] = [] := rfl

@[simp] theorem labelsOf_cons :
    labelsOf (i :: code) = i.label?.toList ++ labelsOf code := by
  cases i <;> rfl

@[simp] theorem labelsOf_append : labelsOf (xs ++ ys) = labelsOf xs ++ labelsOf ys := by
  simp [labelsOf]

@[simp] theorem targetsOf_nil : targetsOf [] = [] := rfl

@[simp] theorem targetsOf_cons :
    targetsOf (i :: code) = i.target?.toList ++ targetsOf code := by
  cases i <;> rfl

@[simp] theorem targetsOf_append : targetsOf (xs ++ ys) = targetsOf xs ++ targetsOf ys := by
  simp [targetsOf]

theorem Straight.labelsOf (h : Straight code) : labelsOf code = [] := by
  have hnumbers := h.labelNumbers
  exact List.map_eq_nil_iff.mp hnumbers

theorem Straight.targetsOf (h : Straight code) : targetsOf code = [] := by
  rw [JackVM.targetsOf, List.filterMap_eq_nil_iff]
  intro i hi
  have hs := h i hi
  cases i with
  | push | pop | op | call => rfl
  | label | goto | ifGoto | function | ret => cases hs

end Lists

section Code

variable (ρ : Scope)

mutual

theorem targets_statement : (st : Statement) → (n : Nat) →
    (targetsOf (st.code ρ n)).Perm (labelsOf (st.code ρ n))
  | .assign x e, n => by
    have hcode : Straight ((Statement.assign x e).code ρ n) := by
      simp [Statement.code, straight_expression, straight_popCode]
    rw [hcode.targetsOf, hcode.labelsOf]
  | .assignElement x i e, n => by
    have hcode : Straight ((Statement.assignElement x i e).code ρ n) := by
      simp [Statement.code, storeCode, straight_pushCode, straight_expression,
        Instruction.isStraight]
    rw [hcode.targetsOf, hcode.labelsOf]
  | .branch c yes none, n => by
    have hc := straight_expression ρ c
    have hyes := targets_statements yes (n + 1)
    have hlast := (hyes.cons (ρ.label "IF_FALSE" n)).trans (List.perm_append_singleton _ _).symm
    simpa [Statement.code, hc.targetsOf, hc.labelsOf] using hlast
  | .branch c yes (some no), n => by
    have hc := straight_expression ρ c
    have hyes := targets_statements yes (n + 1)
    have hno := targets_statements no (n + 1 + labelCount yes + 1)
    rw [List.perm_iff_count] at hyes hno ⊢
    intro l
    simp only [Statement.code, targetsOf_append, targetsOf_cons, targetsOf_nil, labelsOf_append,
      labelsOf_cons, labelsOf_nil, hc.targetsOf, hc.labelsOf, List.count_append, hyes l, hno l]
    simp only [Instruction.target?, Instruction.label?, Option.toList_none, Option.toList_some,
      List.count_nil]
    omega
  | .loop c body, n => by
    have hc := straight_expression ρ c
    have hbody := targets_statements body (n + 2)
    rw [List.perm_iff_count] at hbody ⊢
    intro l
    simp only [Statement.code, targetsOf_append, targetsOf_cons, targetsOf_nil, labelsOf_append,
      labelsOf_cons, labelsOf_nil, hc.targetsOf, hc.labelsOf, List.count_append, hbody l]
    simp only [Instruction.target?, Instruction.label?, Option.toList_none, Option.toList_some,
      List.count_nil]
    omega
  | .perform q f es, n => by
    have hcode : Straight ((Statement.perform q f es).code ρ n) := by
      simp [Statement.code, straight_call, Instruction.isStraight]
    rw [hcode.targetsOf, hcode.labelsOf]
  | .giveBack none, n => .refl _
  | .giveBack (some e), n => by
    have he := straight_expression ρ e
    simp [Statement.code, he.targetsOf, he.labelsOf]

/-- To each label of some statements goes one jump of the same statements. -/
theorem targets_statements : (ss : List Statement) → (n : Nat) →
    (targetsOf (statementCode ρ ss n)).Perm (labelsOf (statementCode ρ ss n))
  | [], _ => .refl _
  | st :: ss, n => by
    rw [statementCode, targetsOf_append, labelsOf_append]
    exact (targets_statement st n).append (targets_statements ss _)

end

end Code

namespace ClassHead

variable (c : ClassHead)

theorem targets_bodyCode (r : RoutineTree) (n : Nat) :
    (targetsOf (c.bodyCode r n)).Perm (labelsOf (c.bodyCode r n)) := by
  have hprologue := straight_prologue r.kind c.objectSize
  rw [bodyCode, targetsOf_append, labelsOf_append, hprologue.targetsOf, hprologue.labelsOf]
  exact targets_statements (c.scope r) r.body n

theorem targets_routinesCode (rs : List RoutineTree) (n : Nat) :
    (targetsOf (c.routinesCode rs n)).Perm (labelsOf (c.routinesCode rs n)) := by
  induction rs generalizing n with
  | nil => exact .refl _
  | cons r rs ih =>
    rw [routinesCode, routineCode, targetsOf_append, labelsOf_append, targetsOf_cons, labelsOf_cons]
    exact (c.targets_bodyCode r n).append (ih _)

/-- The labels of a class are numbered on over its subroutines. -/
theorem labelNumbers_routinesCode (rs : List RoutineTree) (n : Nat) :
    ∃ k, (labelNumbers (c.routinesCode rs n)).Perm (List.range' n k) := by
  induction rs generalizing n with
  | nil => exact ⟨0, .refl _⟩
  | cons r rs ih =>
    obtain ⟨k, hk⟩ := ih (n + labelCount r.body)
    rw [routinesCode, routineCode, labelNumbers_append, labelNumbers_cons]
    exact ⟨labelCount r.body + k, perm_range'_append (c.labelNumbers_bodyCode r n) hk⟩

end ClassHead

end JackVM
