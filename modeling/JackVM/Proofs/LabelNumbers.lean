import Mathlib.Data.List.Perm.Basic
import JackVM.Proofs.StraightCode

namespace JackVM

/-- The label whose place an instruction marks. -/
@[simp] def Instruction.label? : Instruction → Option Label
  | label l => some l
  | _ => none

/-- The labels that have their place in some code. -/
def labelsOf (code : List Instruction) : List Label :=
  code.filterMap Instruction.label?

def labelNumbers (code : List Instruction) : List Nat :=
  (labelsOf code).map Label.number

section Lists

variable {xs ys code : List Instruction} {i : Instruction} {l : Label}

@[simp] theorem mem_labelsOf : l ∈ labelsOf code ↔ .label l ∈ code := by
  simp only [labelsOf, List.mem_filterMap]
  constructor
  · rintro ⟨i, hi, hl⟩
    cases i <;> simp at hl
    subst hl
    exact hi
  · intro h
    exact ⟨_, h, rfl⟩

@[simp] theorem labelNumbers_nil : labelNumbers [] = [] := rfl

@[simp] theorem labelNumbers_cons : labelNumbers (i :: code) =
    (i.label?.map Label.number).toList ++ labelNumbers code := by
  cases i <;> rfl

@[simp] theorem labelNumbers_append :
    labelNumbers (xs ++ ys) = labelNumbers xs ++ labelNumbers ys := by
  simp [labelNumbers, labelsOf]

theorem Straight.labelNumbers (h : Straight code) : labelNumbers code = [] := by
  induction code with
  | nil => rfl
  | cons i code ih =>
    obtain ⟨hi, hcode⟩ := straight_cons.mp h
    rw [labelNumbers_cons, ih hcode]
    cases i <;> simp [Instruction.isStraight] at hi ⊢

/-- Numbers that follow on each other, the first of them last. -/
theorem perm_range'_last {ns : List Nat} {n k : Nat} (h : ns.Perm (List.range' (n + 1) k)) :
    (ns ++ [n]).Perm (List.range' n (1 + k)) := by
  rw [Nat.add_comm 1 k, List.range'_succ]
  exact List.perm_append_comm.trans (h.cons n)

theorem perm_range'_append {ns ms : List Nat} {n k j : Nat} (hn : ns.Perm (List.range' n k))
    (hm : ms.Perm (List.range' (n + k) j)) : (ns ++ ms).Perm (List.range' n (k + j)) := by
  rw [← List.range'_append_1]
  exact hn.append hm

end Lists

section Code

variable (ρ : Scope)

mutual

theorem labelNumbers_statement : (st : Statement) → (n : Nat) →
    (labelNumbers (st.code ρ n)).Perm (List.range' n st.labels)
  | .assign x e, _ => by
    have hcode := straight_append.mpr ⟨straight_expression ρ e, straight_popCode ρ x⟩
    simp [Statement.code, Statement.labels, hcode.labelNumbers]
  | .assignElement x i e, n => by
    have hcode : Straight ((Statement.assignElement x i e).code ρ n) := by
      simp [Statement.code, storeCode, straight_pushCode, straight_expression,
        Instruction.isStraight]
    simp [Statement.labels, hcode.labelNumbers]
  | .branch c yes none, n => by
    have hc := (straight_expression ρ c).labelNumbers
    simpa [Statement.code, Statement.labels, hc, Scope.label] using
      perm_range'_last (labelNumbers_statements yes (n + 1))
  | .branch c yes (some no), n => by
    have hc := (straight_expression ρ c).labelNumbers
    have hyes := perm_range'_last (labelNumbers_statements yes (n + 1))
    have hno := perm_range'_last (labelNumbers_statements no (n + 1 + labelCount yes + 1))
    rw [Nat.add_assoc n] at hno
    have hboth := perm_range'_append hyes hno
    have hcount : (Statement.branch c yes (some no)).labels =
        1 + labelCount yes + (1 + labelCount no) := by
      rw [Statement.labels]
      omega
    rw [hcount]
    simpa [Statement.code, hc, Scope.label, Nat.add_assoc] using hboth
  | .loop c body, n => by
    have hc := (straight_expression ρ c).labelNumbers
    have hbody := perm_range'_last (labelNumbers_statements body (n + 2))
    have hcount : (Statement.loop c body).labels = 1 + labelCount body + 1 := by
      rw [Statement.labels]
      omega
    rw [hcount, List.range'_succ]
    simpa [Statement.code, hc, Scope.label] using hbody
  | .perform q f es, n => by
    have hcall := (straight_call ρ q f es).labelNumbers
    simp [Statement.code, Statement.labels, hcall]
  | .giveBack none, n => by
    simp [Statement.code, Statement.labels]
  | .giveBack (some e), n => by
    have he := (straight_expression ρ e).labelNumbers
    simp [Statement.code, Statement.labels, he]

/-- The labels of statements are numbered without a gap, and each number is used once. -/
theorem labelNumbers_statements : (ss : List Statement) → (n : Nat) →
    (labelNumbers (statementCode ρ ss n)).Perm (List.range' n (labelCount ss))
  | [], _ => by
    simp [statementCode, labelCount]
  | st :: ss, n => by
    rw [statementCode, labelCount, labelNumbers_append]
    exact perm_range'_append (labelNumbers_statement st n) (labelNumbers_statements ss _)

end

end Code

theorem ClassHead.labelNumbers_bodyCode (c : ClassHead) (r : RoutineTree) (n : Nat) :
    (labelNumbers (c.bodyCode r n)).Perm (List.range' n (labelCount r.body)) := by
  rw [bodyCode, labelNumbers_append, (straight_prologue r.kind c.objectSize).labelNumbers]
  exact labelNumbers_statements _ r.body n

end JackVM
