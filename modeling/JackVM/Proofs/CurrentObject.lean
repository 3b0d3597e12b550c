import JackVM.Proofs.Accesses

namespace JackVM

@[simp] theorem Variable.segment_ne_pointer (v : Variable) : v.segment ≠ .pointer := by
  unfold Variable.segment
  cases v.kind <;> simp [VariableKind.segment]

theorem Variable.segment_eq_argument {v : Variable} :
    v.segment = .argument ↔ v.kind = .argument := by
  unfold Variable.segment
  cases v.kind <;> simp [VariableKind.segment]

theorem Variable.segment_eq_this {v : Variable} : v.segment = .this ↔ v.kind = .field := by
  unfold Variable.segment
  cases v.kind <;> simp [VariableKind.segment]

/-- In the code of a subroutine that needs no current object, the object's own pointer does not
occur, and its segment occurs just where the statements name fields of the class. -/
structure LacksObject (c : ClassHead) (r : RoutineTree) (body : List Instruction) : Prop where
  object : .object ∉ statementNeeds r.body
  pointer : .push .pointer 0 ∉ body ∧ .pop .pointer 0 ∉ body
  fields : (∃ k, .push .this k ∈ body ∨ .pop .this k ∈ body) ↔
    ∃ x v, .variable x ∈ statementNeeds r.body ∧ (c.scope r).find? x = some v ∧ v.kind = .field

section Meets

variable {ρ : Scope} {needs : List Need} {code : List Instruction} {segment : Segment} {k : Nat}

/-- What is pushed and belongs to no scratch work is the object or a variable. -/
theorem Meets.of_push (h : Meets ρ needs code) (hmem : .push segment k ∈ code)
    (hscratch : (Instruction.push segment k).isScratch = false) :
    .object ∈ needs ∨ ∃ x v, .variable x ∈ needs ∧ ρ.find? x = some v ∧
      segment = v.segment ∧ k = v.index := by
  rcases h.explained hmem with hs | ⟨need, hneed, he⟩
  · rw [hscratch] at hs
    cases hs
  · cases need with
    | object => exact .inl hneed
    | «variable» x =>
      rcases he with he | he
      · obtain ⟨v, hv, hi⟩ := mem_pushCode.mp he
        obtain ⟨hsegment, hindex⟩ := Instruction.push.inj hi
        exact .inr ⟨x, v, hneed, hv, hsegment, hindex⟩
      · obtain ⟨v, -, hi⟩ := mem_popCode.mp he
        cases hi

/-- What is popped and belongs to no scratch work is a variable. -/
theorem Meets.of_pop (h : Meets ρ needs code) (hmem : .pop segment k ∈ code)
    (hscratch : (Instruction.pop segment k).isScratch = false) :
    ∃ x v, .variable x ∈ needs ∧ ρ.find? x = some v ∧ segment = v.segment ∧ k = v.index := by
  rcases h.explained hmem with hs | ⟨need, hneed, he⟩
  · rw [hscratch] at hs
    cases hs
  · cases need with
    | object =>
      rcases he with he | he
      · unfold Scope.thisCode at he
        split at he <;> simp at he
      · cases he
    | «variable» x =>
      rcases he with he | he
      · obtain ⟨v, -, hi⟩ := mem_pushCode.mp he
        cases hi
      · obtain ⟨v, hv, hi⟩ := mem_popCode.mp he
        obtain ⟨hsegment, hindex⟩ := Instruction.pop.inj hi
        exact ⟨x, v, hneed, hv, hsegment, hindex⟩

/-- Statements leave the pointer to the object as it is. -/
theorem Meets.pop_pointer_notMem (h : Meets ρ needs code) : .pop .pointer 0 ∉ code := by
  intro hmem
  obtain ⟨x, v, -, -, hsegment, -⟩ := h.of_pop hmem rfl
  exact v.segment_ne_pointer hsegment.symm

end Meets

namespace ClassHead

variable {c : ClassHead} {r : RoutineTree}

theorem lacksObject_bodyCode (hr : r.kind = .function) (hadmits : c.Admits r) (n : Nat) :
    LacksObject c r (c.bodyCode r n) := by
  have hcode : c.bodyCode r n = statementCode (c.scope r) r.body n := by
    rw [bodyCode, hr]
    rfl
  have hmeets := meets_statements (c.scope r) r.body n
  rw [hcode]
  have hobject : .object ∉ statementNeeds r.body := fun hneed =>
    hasObject_of_statements r.body hadmits.body hneed hr
  refine ⟨hobject, ⟨?_, hmeets.pop_pointer_notMem⟩, ?_, ?_⟩
  · intro hmem
    rcases hmeets.of_push hmem rfl with hneed | ⟨x, v, -, -, hsegment, -⟩
    · exact hobject hneed
    · exact v.segment_ne_pointer hsegment.symm
  · rintro ⟨k, hmem | hmem⟩
    · rcases hmeets.of_push hmem rfl with hneed | ⟨x, v, hx, hv, hsegment, -⟩
      · exact absurd hneed hobject
      · exact ⟨x, v, hx, hv, Variable.segment_eq_this.mp hsegment.symm⟩
    · obtain ⟨x, v, hx, hv, hsegment, -⟩ := hmeets.of_pop hmem rfl
      exact ⟨x, v, hx, hv, Variable.segment_eq_this.mp hsegment.symm⟩
  · rintro ⟨x, v, hx, hv, hk⟩
    have hused := hmeets.used hx hv
    rw [Variable.segment_eq_this.mpr hk] at hused
    exact ⟨v.index, hused⟩

end ClassHead

/-- A function of a class asks for no current object. The fields of the class can be used in it all
the same, although it sets the pointer to no object. -/
theorem functions_lackObject {source : String} {code : List Instruction}
    (h : compileInstructions source = .ok code) :
    ∃ c : ClassTree, c.IsReadFrom source ∧ List.Forall₂
      (fun r sub => r.kind = .function → LacksObject c.toClassHead r sub.body)
      c.routines (subroutines code) :=
  forall₂_of_compileInstructions h fun _ _ n hadmits hr =>
    ClassHead.lacksObject_bodyCode hr hadmits n

def fieldReaderSource : String :=
  "class A { field int x; function int f() { return x; } }"

/-- A function that reads a field. -/
def fieldReader : Subroutine where
  name := "A.f"
  locals := 0
  body := [.push .this 0, .ret]

theorem compile_fieldReader : compileInstructions fieldReaderSource =
    .ok (.function fieldReader.name fieldReader.locals :: fieldReader.body) :=
  ok_of_toOption (by decide +kernel)

theorem lackObject_fieldReader : ∃ c : ClassTree, c.IsReadFrom fieldReaderSource ∧ List.Forall₂
    (fun r sub => r.kind = .function → LacksObject c.toClassHead r sub.body)
    c.routines [fieldReader] :=
  functions_lackObject compile_fieldReader

end JackVM
