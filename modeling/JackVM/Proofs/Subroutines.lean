import Mathlib.Data.List.Forall2
import JackVM.Proofs.ReferenceCompiler
import JackVM.Proofs.StraightCode

namespace JackVM

/-- The instructions that start a subroutine. -/
def Instruction.isHeader : Instruction → Bool
  | .function _ _ => true
  | _ => false

/-- A part of some code that starts with a header. -/
structure Subroutine where
  name : String
  locals : Nat
  body : List Instruction
  deriving DecidableEq, Repr

/-- The subroutines of some code, each up to the header of the next one. -/
def subroutines : List Instruction → List Subroutine
  | [] => []
  | .function name locals :: code =>
    ⟨name, locals, code.takeWhile fun i => !i.isHeader⟩ :: subroutines code
  | _ :: code => subroutines code

/-- No subroutine starts in this code. -/
def Headless (code : List Instruction) : Prop :=
  ∀ i ∈ code, i.isHeader = false

section Headless

variable {xs ys : List Instruction} {i : Instruction}

@[simp] theorem headless_nil : Headless [] := by
  simp [Headless]

@[simp] theorem headless_cons : Headless (i :: xs) ↔ i.isHeader = false ∧ Headless xs := by
  simp [Headless]

@[simp] theorem headless_append : Headless (xs ++ ys) ↔ Headless xs ∧ Headless ys := by
  simp [Headless, or_imp, forall_and]

theorem subroutines_of_headless (h : Headless xs) : subroutines (xs ++ ys) = subroutines ys := by
  induction xs with
  | nil => rfl
  | cons i xs ih =>
    obtain ⟨hi, hxs⟩ := headless_cons.mp h
    rw [← ih hxs]
    cases i with
    | function => cases hi
    | _ => rfl

/-- Code that starts with a header, or none at all, ends a subroutine. -/
theorem takeWhile_of_headless (h : Headless xs) (hys : ∀ i ∈ ys.head?, i.isHeader = true) :
    (xs ++ ys).takeWhile (fun i => !i.isHeader) = xs := by
  have hall : ∀ i ∈ xs, (!i.isHeader) = true := by
    intro i hi
    simp [h i hi]
  rw [List.takeWhile_append_of_pos hall]
  cases ys with
  | nil => simp
  | cons i ys => simp [hys i (by simp)]

end Headless

theorem Straight.headless {code : List Instruction} (h : Straight code) : Headless code := by
  intro i hi
  have hs := h i hi
  cases i with
  | push | pop | op | call => rfl
  | label | goto | ifGoto | function | ret => cases hs

section Code

variable (ρ : Scope)

mutual

theorem headless_statement : (st : Statement) → (n : Nat) → Headless (st.code ρ n)
  | .assign x e, _ => by
    have he := (straight_expression ρ e).headless
    have hx := (straight_popCode ρ x).headless
    simp [Statement.code, he, hx]
  | .assignElement x i e, _ => by
    have hx := (straight_pushCode ρ x).headless
    have hi := (straight_expression ρ i).headless
    have he := (straight_expression ρ e).headless
    simp [Statement.code, storeCode, hx, hi, he, Instruction.isHeader]
  | .branch c yes none, n => by
    have hc := (straight_expression ρ c).headless
    simp [Statement.code, hc, headless_statements yes, Instruction.isHeader]
  | .branch c yes (some no), n => by
    have hc := (straight_expression ρ c).headless
    simp [Statement.code, hc, headless_statements yes, headless_statements no, Instruction.isHeader]
  | .loop c body, n => by
    have hc := (straight_expression ρ c).headless
    simp [Statement.code, hc, headless_statements body, Instruction.isHeader]
  | .perform q f es, _ => by
    have hcall := (straight_call ρ q f es).headless
    simp [Statement.code, hcall, Instruction.isHeader]
  | .giveBack none, _ => by
    simp [Statement.code, Instruction.isHeader]
  | .giveBack (some e), _ => by
    have he := (straight_expression ρ e).headless
    simp [Statement.code, he, Instruction.isHeader]

theorem headless_statements : (ss : List Statement) → (n : Nat) → Headless (statementCode ρ ss n)
  | [], _ => headless_nil
  | st :: ss, n => by
    simp [statementCode, headless_statement st, headless_statements ss]

end

end Code

namespace ClassHead

variable (c : ClassHead)

theorem headless_bodyCode (r : RoutineTree) (n : Nat) : Headless (c.bodyCode r n) := by
  rw [bodyCode, headless_append]
  exact ⟨(straight_prologue r.kind c.objectSize).headless, headless_statements _ _ _⟩

theorem head?_routinesCode (rs : List RoutineTree) (n : Nat) :
    ∀ i ∈ (c.routinesCode rs n).head?, i.isHeader = true := by
  cases rs with
  | nil => simp [routinesCode]
  | cons r rs => simp [routinesCode, routineCode, Instruction.isHeader]

/-- The subroutines of a class's code are those of the class, one after the other. -/
theorem subroutines_routinesCode_cons (r : RoutineTree) (rs : List RoutineTree) (n : Nat) :
    subroutines (c.routinesCode (r :: rs) n) =
      ⟨s!"{c.name}.{r.name}", r.frameSize, c.bodyCode r n⟩ ::
        subroutines (c.routinesCode rs (n + labelCount r.body)) := by
  rw [routinesCode, routineCode, List.cons_append, subroutines,
    takeWhile_of_headless (c.headless_bodyCode r n) (c.head?_routinesCode rs _),
    subroutines_of_headless (c.headless_bodyCode r n)]

/-- Each subroutine of a class's code is one of the class's subroutines. -/
theorem of_mem_subroutines {rs : List RoutineTree} {n : Nat} {sub : Subroutine}
    (h : sub ∈ subroutines (c.routinesCode rs n)) :
    ∃ r ∈ rs, ∃ m, sub = ⟨s!"{c.name}.{r.name}", r.frameSize, c.bodyCode r m⟩ := by
  induction rs generalizing n with
  | nil => simp [routinesCode, subroutines] at h
  | cons r rs ih =>
    rw [subroutines_routinesCode_cons] at h
    rcases List.mem_cons.mp h with rfl | h
    · exact ⟨r, by simp, n, rfl⟩
    · obtain ⟨q, hq, m, rfl⟩ := ih h
      exact ⟨q, by simp [hq], m, rfl⟩

/-- To each subroutine of a class belongs one part of the class's code, in order. -/
theorem forall₂_subroutines {P : RoutineTree → Subroutine → Prop} {rs : List RoutineTree} (n : Nat)
    (h : ∀ r ∈ rs, ∀ m, P r ⟨s!"{c.name}.{r.name}", r.frameSize, c.bodyCode r m⟩) :
    List.Forall₂ P rs (subroutines (c.routinesCode rs n)) := by
  induction rs generalizing n with
  | nil => exact .nil
  | cons r rs ih =>
    rw [subroutines_routinesCode_cons]
    exact .cons (h r (by simp) n) (ih _ fun q hq => h q (by simp [hq]))

end ClassHead

/-- Where the subroutines of the code for a source come from. -/
theorem routine_of_mem_subroutines {source : String} {code : List Instruction} {sub : Subroutine}
    (h : compileInstructions source = .ok code) (hsub : sub ∈ subroutines code) :
    ∃ (c : ClassTree) (r : RoutineTree) (n : Nat), c.IsReadFrom source ∧ r ∈ c.routines ∧
      c.Admits r ∧ sub = ⟨s!"{c.name}.{r.name}", r.frameSize, c.bodyCode r n⟩ := by
  obtain ⟨c, hread, hc, rfl⟩ := reference_of_compileInstructions h
  obtain ⟨r, hr, n, rfl⟩ := c.of_mem_subroutines hsub
  exact ⟨c, r, n, hread, hr, hc.routines r hr, rfl⟩

/-- What holds of each subroutine that keeps to the rules, holds of the subroutines of a source and
their parts of the code. -/
theorem forall₂_of_compileInstructions {P : ClassTree → RoutineTree → Subroutine → Prop}
    {source : String} {code : List Instruction} (h : compileInstructions source = .ok code)
    (hP : ∀ (c : ClassTree) (r : RoutineTree) (n : Nat), c.Admits r →
      P c r ⟨s!"{c.name}.{r.name}", r.frameSize, c.bodyCode r n⟩) :
    ∃ c : ClassTree, c.IsReadFrom source ∧
      List.Forall₂ (P c) c.routines (subroutines code) := by
  obtain ⟨c, hread, hc, rfl⟩ := reference_of_compileInstructions h
  exact ⟨c, hread, c.forall₂_subroutines 0 fun r hr n => hP _ r n (hc.routines r hr)⟩

def countdownSource : String :=
  "class A { function int f(int n) { while (n) { let n = n - 1; } return n; } }"

/-- A loop, with a return after it. -/
def countdown : Subroutine where
  name := "A.f"
  locals := 0
  body :=
    [.label ⟨"A", "f", "WHILE_TOP", 0⟩, .push .argument 0, .op .not,
      .ifGoto ⟨"A", "f", "WHILE_END", 1⟩, .push .argument 0, .push .constant 1, .op .sub,
      .pop .argument 0, .goto ⟨"A", "f", "WHILE_TOP", 0⟩, .label ⟨"A", "f", "WHILE_END", 1⟩,
      .push .argument 0, .ret]

theorem compile_countdown : compileInstructions countdownSource =
    .ok (.function countdown.name countdown.locals :: countdown.body) :=
  ok_of_toOption (by decide +kernel)

end JackVM
