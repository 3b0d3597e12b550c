import JackVM.Proofs.DeclaredNames

namespace JackVM

/-- Each variable gets a place that was not taken before, and none beyond those declared. -/
theorem index_of_mem_numbered {taken : VariableKind → Nat} {xs : List Declaration} {v : Variable}
    (h : v ∈ numbered taken xs) :
    taken v.kind ≤ v.index ∧ v.index < taken v.kind + xs.countP fun x => x.kind = v.kind := by
  induction xs generalizing taken with
  | nil => cases h
  | cons x xs ih =>
    rw [List.countP_cons]
    rcases List.mem_cons.mp h with rfl | h
    · simp
    · have hv := ih h
      by_cases hk : v.kind = x.kind
      · simp only [hk, if_true, decide_true] at hv ⊢
        omega
      · have hne : x.kind ≠ v.kind := fun he => hk he.symm
        simp only [hk, if_false] at hv
        simpa [hne] using hv

theorem kind_of_mem_numbered {taken : VariableKind → Nat} {xs : List Declaration} {v : Variable}
    (h : v ∈ numbered taken xs) : ∃ x ∈ xs, x.kind = v.kind := by
  have hv := index_of_mem_numbered h
  have hpos : 0 < xs.countP fun x => x.kind = v.kind := by omega
  obtain ⟨x, hx, hk⟩ := List.countP_pos_iff.mp hpos
  exact ⟨x, hx, by simpa using hk⟩

namespace ClassHead

variable {c : ClassHead} {r : RoutineTree} {name : String} {v : Variable}

theorem isClassLevel_of_mem (h : v ∈ c.classVariables) : v.kind.isClassLevel = true := by
  obtain ⟨x, hx, hk⟩ := kind_of_mem_numbered h
  rw [← hk]
  exact c.declaration_level hx

/-- A name stands for a variable of the subroutine or of the class. -/
theorem mem_of_find?_scope (h : (c.scope r).find? name = some v) :
    v ∈ r.ownVariables ∨ v ∈ c.classVariables :=
  List.mem_append.mp (List.mem_of_find?_eq_some h)

/-- The place of a method's object stands for none of its parameters. -/
theorem index_pos_of_argument (hr : r.kind = .method)
    (h : (c.scope r).find? name = some v) (hv : v.kind = .argument) : 0 < v.index := by
  rcases mem_of_find?_scope h with hown | hclass
  · have hplace := (index_of_mem_numbered hown).1
    simp only [hv, RoutineTree.places, hr, and_self, if_true] at hplace
    exact hplace
  · have hlevel := isClassLevel_of_mem hclass
    rw [hv] at hlevel
    cases hlevel

end ClassHead

end JackVM
