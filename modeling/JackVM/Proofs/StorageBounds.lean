import JackVM.Proofs.CurrentObject
import JackVM.Proofs.Places

namespace JackVM

namespace ClassHead

/-- How many places the class needs for variables that all its objects share. -/
def sharedSize (c : ClassHead) : Nat :=
  ((c.variableGroups.filter fun v => !v.isField).flatMap fun v => v.group.names).length

theorem countP_staticVar (c : ClassHead) :
    c.declarations.countP (fun x => x.kind = .staticVar) = c.sharedSize := by
  simp [countP_declarations, sharedSize, ClassVariables.kind_eq_staticVar]

/-- How many cells of a segment are there for a subroutine. The first argument of a method is its
object. Constants have no cells. -/
def cells (c : ClassHead) (r : RoutineTree) : Segment → Nat
  | .constant => 0
  | .argument => r.parameters.length + if r.kind = .method then 1 else 0
  | .localVar => (r.locals.flatMap NameGroup.names).length
  | .staticVar => c.sharedSize
  | .this => c.objectSize
  | .that | .temp => 1
  | .pointer => 2

end ClassHead

/-- An instruction that pushes or pops a cell keeps to the cells there are. -/
def Instruction.IsWithin (cells : Segment → Nat) : Instruction → Prop
  | .push .constant _ => True
  | .push segment k | .pop segment k => k < cells segment
  | _ => True

/-- A subroutine asks for the cells that its variables and its object need, and uses no others. -/
structure KeepsBounds (c : ClassHead) (r : RoutineTree) (sub : Subroutine) : Prop where
  frame : sub.locals = c.cells r .localVar
  object : r.kind = .constructor →
    sub.body.take 2 = [.push .constant (c.cells r .this), .call "Memory.alloc" 1]
  within : ∀ i ∈ sub.body, i.IsWithin (c.cells r)

section Cells

variable {c : ClassHead} {r : RoutineTree} {x : String} {v : Variable} {i : Instruction}

/-- The place of a variable is a cell of its segment. -/
theorem ClassHead.index_lt_cells (h : (c.scope r).find? x = some v) :
    v.index < c.cells r v.segment := by
  unfold Variable.segment
  rcases mem_of_find?_scope h with hown | hclass
  · have hindex := (index_of_mem_numbered hown).2
    obtain ⟨y, hy, hkind⟩ := kind_of_mem_numbered hown
    rcases r.declaration_kind hy with hargument | hlocal
    · rw [← hkind, hargument, r.countP_argument] at hindex
      rw [← hkind, hargument]
      simpa [VariableKind.segment, cells, RoutineTree.places, Nat.add_comm] using hindex
    · rw [← hkind, hlocal, r.countP_localVar] at hindex
      rw [← hkind, hlocal]
      simpa [VariableKind.segment, cells, RoutineTree.places, RoutineTree.frameSize] using hindex
  · have hindex := (index_of_mem_numbered hclass).2
    have hlevel := isClassLevel_of_mem hclass
    cases hk : v.kind with
    | field => simpa [hk, c.countP_field, VariableKind.segment, cells] using hindex
    | staticVar => simpa [hk, c.countP_staticVar, VariableKind.segment, cells] using hindex
    | argument | localVar => simp [hk, VariableKind.isClassLevel] at hlevel

theorem isWithin_push (h : (c.scope r).find? x = some v) :
    (Instruction.push v.segment v.index).IsWithin (c.cells r) := by
  have hlt := ClassHead.index_lt_cells h
  cases hs : v.segment <;> simp_all [Instruction.IsWithin]

theorem isWithin_of_isScratch (h : i.isScratch = true) : i.IsWithin (c.cells r) := by
  unfold Instruction.isScratch at h
  split at h
  all_goals simp_all [Instruction.IsWithin, ClassHead.cells]

theorem isWithin_thisCode (h : i ∈ (c.scope r).thisCode) : i.IsWithin (c.cells r) := by
  unfold Scope.thisCode at h
  split at h
  next hk =>
    cases List.mem_singleton.mp h
    have hmethod : r.kind = .method := hk
    simp [Instruction.IsWithin, ClassHead.cells, hmethod]
  next =>
    cases List.mem_singleton.mp h
    simp [Instruction.IsWithin, ClassHead.cells]
  next => cases h

theorem isWithin_of_explains {need : Need} (h : need.Explains (c.scope r) i) :
    i.IsWithin (c.cells r) := by
  cases need with
  | object =>
    rcases h with h | rfl
    · exact isWithin_thisCode h
    · simp [Instruction.IsWithin, ClassHead.cells]
  | «variable» x =>
    rcases h with h | h
    · obtain ⟨v, hv, rfl⟩ := mem_pushCode.mp h
      exact isWithin_push hv
    · obtain ⟨v, hv, rfl⟩ := mem_popCode.mp h
      exact ClassHead.index_lt_cells hv

theorem isWithin_prologue (h : i ∈ prologue r.kind c.objectSize) : i.IsWithin (c.cells r) := by
  cases hr : r.kind with
  | constructor =>
    simp only [hr, prologue, List.mem_cons, List.not_mem_nil, or_false] at h
    rcases h with rfl | rfl | rfl <;> simp [Instruction.IsWithin, ClassHead.cells]
  | method =>
    simp only [hr, prologue, List.mem_cons, List.not_mem_nil, or_false] at h
    rcases h with rfl | rfl <;> simp [Instruction.IsWithin, ClassHead.cells, hr]
  | function => simp [hr, prologue] at h

theorem ClassHead.isWithin_bodyCode {n : Nat} (h : i ∈ c.bodyCode r n) :
    i.IsWithin (c.cells r) := by
  rcases List.mem_append.mp h with h | h
  · exact isWithin_prologue h
  · rcases (meets_statements (c.scope r) r.body n).explained h with hscratch | ⟨need, -, he⟩
    · exact isWithin_of_isScratch hscratch
    · exact isWithin_of_explains he

end Cells

/-- The subroutines of a source keep to what is declared: a variable's place is known from the
declarations alone, and all other cells that the code uses are there in any subroutine. -/
theorem subroutines_keepBounds {source : String} {code : List Instruction}
    (h : compileInstructions source = .ok code) :
    ∃ c : ClassTree, c.IsReadFrom source ∧ List.Forall₂
      (fun r sub => KeepsBounds c.toClassHead r sub) c.routines (subroutines code) :=
  forall₂_of_compileInstructions h fun c r n _ => by
    refine ⟨rfl, fun hr => ?_, fun i hi => ClassHead.isWithin_bodyCode hi⟩
    simp [ClassHead.bodyCode, hr, prologue, ClassHead.cells]

def accountSource : String :=
  "class A \x7b static int n; field int x, y; " ++
    "constructor A m(int a) { let x = a; let n = n + 1; return this; } " ++
      "method int g(int y) { var int z; let z = y; return x[z]; } \x7d"

/-- A constructor and a method that use cells of every kind. -/
def accountSubroutines : List Subroutine :=
  [⟨"A.m", 0, [.push .constant 2, .call "Memory.alloc" 1, .pop .pointer 0, .push .argument 0,
      .pop .this 0, .push .staticVar 0, .push .constant 1, .op .add, .pop .staticVar 0,
      .push .pointer 0, .ret]⟩,
    ⟨"A.g", 1, [.push .argument 0, .pop .pointer 0, .push .argument 1, .pop .localVar 0,
      .push .this 0, .push .localVar 0, .op .add, .pop .pointer 1, .push .that 0, .ret]⟩]

theorem compile_account : compileInstructions accountSource =
    .ok (accountSubroutines.flatMap fun sub => .function sub.name sub.locals :: sub.body) :=
  ok_of_toOption (by decide +kernel)

theorem keepBounds_account : ∃ c : ClassTree, c.IsReadFrom accountSource ∧ List.Forall₂
    (fun r sub => KeepsBounds c.toClassHead r sub) c.routines accountSubroutines :=
  subroutines_keepBounds compile_account

end JackVM
