import Mathlib.Data.List.Nodup
import JackVM.Instruction
import JackVM.Proofs.DeclarationLog

namespace JackVM

theorem VariableKind.segment_injective {j k : VariableKind} (h : j.segment = k.segment) :
    j = k := by
  revert h
  cases j <;> cases k <;> decide

/-- The index of the first variable of a kind. In a method the arguments come after its object. -/
def firstIndex (k : VariableKind) (log : List DeclarationRecord) : Nat :=
  if k = .argument ∧ lastClear? k log = some (.enterSubroutine true) then 1 else 0

section

variable {k : VariableKind} {r : DeclarationRecord} {log : List DeclarationRecord}

theorem firstIndex_cons_of_clears (h : r.step.clears k = true) :
    firstIndex k (r :: log) = if k = .argument ∧ r.step = .enterSubroutine true then 1 else 0 := by
  simp [firstIndex, lastClear?, h]

theorem firstIndex_cons (h : r.step.clears k = false) :
    firstIndex k (r :: log) = firstIndex k log := by
  simp [firstIndex, lastClear?, h]

end

namespace Declarations

/-- The variables of a kind, latest first. Those that a name of the subroutine hides are among
them. -/
def ofKind (d : Declarations) (k : VariableKind) : List Variable :=
  (d.level k).values.filter fun v => v.kind = k

section

variable {d : Declarations} {x : Declaration} {k : VariableKind}

theorem ofKind_add (hx : (d.level x.kind).get? x.name = none) (k : VariableKind) :
    (d.add x).ofKind k = if x.kind = k
      then ⟨x.name, x.kind, x.typeName, d.count x.kind⟩ :: d.ofKind k else d.ofKind k := by
  rw [ofKind, level_add, ofKind]
  by_cases hlevel : x.kind.isClassLevel = k.isClassLevel
  · rw [level_congr d hlevel] at hx
    rw [if_pos hlevel, NameMap.values_insert hx]
    by_cases hk : x.kind = k <;> simp [hk]
  · have hk : x.kind ≠ k := fun hk => hlevel (congrArg _ hk)
    simp [hk, hlevel]

theorem ofKind_enterSubroutine (d : Declarations) (isMethod : Bool) (k : VariableKind) :
    (d.enterSubroutine isMethod).ofKind k = if k.isClassLevel then d.ofKind k else [] := by
  rw [ofKind, level_enterSubroutine]
  split <;> rfl

end

/-- The maps and the counters are in step. The variables of a kind are numbered without a gap in the
order of their declarations, from the first index of the kind up to its counter. -/
structure Numbers (log : List DeclarationRecord) (d : Declarations) : Prop where
  first_le : ∀ k, firstIndex k log ≤ d.count k
  indices : ∀ k, ((d.ofKind k).map Variable.index).reverse =
    List.range' (firstIndex k log) (d.count k - firstIndex k log)

namespace Numbers

variable {log : List DeclarationRecord} {d : Declarations}

theorem empty : Declarations.empty.Numbers [] where
  first_le k := by
    simp [firstIndex, lastClear?]
  indices k := by
    cases k <;> rfl

theorem enterClass (d : Declarations) (log : List DeclarationRecord) :
    d.enterClass.Numbers (⟨.enterClass, none⟩ :: log) where
  first_le k := by
    rw [firstIndex_cons_of_clears rfl, if_neg (by simp)]
    exact Nat.zero_le _
  indices k := by
    rw [firstIndex_cons_of_clears rfl]
    cases k <;> rfl

theorem enterSubroutine (h : d.Numbers log) (isMethod : Bool) :
    (d.enterSubroutine isMethod).Numbers (⟨.enterSubroutine isMethod, none⟩ :: log) where
  first_le k := by
    rw [count_enterSubroutine]
    cases hk : k.isClassLevel with
    | true =>
      rw [if_pos rfl, firstIndex_cons (by simp [DeclarationStep.clears, hk])]
      exact h.first_le k
    | false =>
      rw [if_neg Bool.false_ne_true,
        firstIndex_cons_of_clears (by simp [DeclarationStep.clears, hk])]
      simp
  indices k := by
    rw [ofKind_enterSubroutine, count_enterSubroutine]
    cases hk : k.isClassLevel with
    | true =>
      -- the class keeps its variables and its counters
      rw [if_pos rfl, if_pos rfl, firstIndex_cons (by simp [DeclarationStep.clears, hk])]
      exact h.indices k
    | false =>
      -- the counter starts at the first index
      rw [if_neg Bool.false_ne_true, if_neg Bool.false_ne_true,
        firstIndex_cons_of_clears (by simp [DeclarationStep.clears, hk])]
      simp

theorem add (h : d.Numbers log) {x : Declaration} (hx : (d.level x.kind).get? x.name = none) :
    (d.add x).Numbers (⟨.declare x, none⟩ :: log) where
  first_le k := by
    have hle := h.first_le k
    rw [count_add, firstIndex_cons rfl]
    split <;> omega
  indices k := by
    have hle := h.first_le k
    rw [count_add, ofKind_add hx, firstIndex_cons rfl]
    by_cases hk : x.kind = k
    · -- the counter of the kind is the index of the new variable, and goes one further
      subst hk
      have hsize : d.count x.kind + 1 - firstIndex x.kind log =
          d.count x.kind - firstIndex x.kind log + 1 := by omega
      have hlast : firstIndex x.kind log + (d.count x.kind - firstIndex x.kind log) =
          d.count x.kind := by omega
      rw [if_pos rfl, if_pos rfl, List.map_cons, List.reverse_cons, h.indices, hsize,
        List.range'_1_concat, hlast]
    · rw [if_neg hk, if_neg (Ne.symm hk), h.indices]

theorem refused (h : d.Numbers log) (x : Declaration) (e : AlreadyDeclared) :
    d.Numbers (⟨.declare x, some e⟩ :: log) where
  first_le k := by
    rw [firstIndex_cons rfl]
    exact h.first_le k
  indices k := by
    rw [firstIndex_cons rfl]
    exact h.indices k

/-- No two variables of a kind have the same index. -/
theorem eq_of_index (h : d.Numbers log) {k : VariableKind} {v w : Variable} (hv : v ∈ d.ofKind k)
    (hw : w ∈ d.ofKind k) (hindex : v.index = w.index) : v = w := by
  have hnodup : ((d.ofKind k).map Variable.index).Nodup := by
    rw [← List.nodup_reverse, h.indices]
    exact List.nodup_range'
  exact List.inj_on_of_nodup_map hnodup hv hw hindex

end Numbers

theorem Tells.mem_ofKind_iff {log : List DeclarationRecord} {d : Declarations} (h : d.Tells log)
    {k : VariableKind} {v : Variable} : v ∈ d.ofKind k ↔ Live log v ∧ v.kind = k := by
  rw [ofKind, List.mem_filter, NameMap.mem_values_iff, decide_eq_true_eq]
  constructor
  · rintro ⟨⟨name, hv⟩, hk⟩
    exact ⟨((h.live k name v).mp hv).1, hk⟩
  · rintro ⟨hv, rfl⟩
    exact ⟨⟨v.name, (h.live _ _ v).mpr ⟨hv, rfl, rfl⟩⟩, rfl⟩

end Declarations

theorem declareAll_numbers (steps : List DeclarationStep) :
    (declareAll steps).2.Numbers (declareAll steps).1 :=
  declareAll_induction .empty (fun log d _ => .enterClass d log)
    (fun _ _ isMethod h => h.enterSubroutine isMethod) (fun _ _ _ h hx => h.add hx)
    (fun _ _ x e h => h.refused x e) steps

/-- Whatever was declared and refused, different names in sight stand for different places. The live
variables of a kind, in the order of their declarations, have all the indices from the first one of
the kind up to the one that is given out next, each of them once. -/
theorem variables_haveOwnPlaces (steps : List DeclarationStep) :
    let log := (declareAll steps).1
    let d := (declareAll steps).2
    (∀ x y v w, d.find? x = some v → d.find? y = some w → x ≠ y →
        (v.segment, v.index) ≠ (w.segment, w.index)) ∧
      ∀ k, (∀ v, v ∈ d.ofKind k ↔ Live log v ∧ v.kind = k) ∧
        firstIndex k log ≤ d.count k ∧
        ((d.ofKind k).map Variable.index).reverse =
          List.range' (firstIndex k log) (d.count k - firstIndex k log) := by
  intro log d
  have htells : d.Tells log := declareAll_tells steps
  have hnumbers : d.Numbers log := declareAll_numbers steps
  refine ⟨fun x y v w hx hy hne hplace => ?_, fun k =>
    ⟨fun v => htells.mem_ofKind_iff, hnumbers.first_le k, hnumbers.indices k⟩⟩
  obtain ⟨hv, rfl, -⟩ := htells.find?_eq_some_iff.mp hx
  obtain ⟨hw, rfl, -⟩ := htells.find?_eq_some_iff.mp hy
  obtain ⟨hsegment, hindex⟩ := Prod.mk.inj hplace
  have hkind : v.kind = w.kind := VariableKind.segment_injective hsegment
  have hvw : v = w := hnumbers.eq_of_index (htells.mem_ofKind_iff.mpr ⟨hv, rfl⟩)
    (htells.mem_ofKind_iff.mpr ⟨hw, hkind.symm⟩) hindex
  exact hne (congrArg Variable.name hvw)

/-- A field that is hidden keeps its place, and a refused name takes none. -/
example :
    let d := (declareAll [.enterClass, .declare ⟨.field, "int", "x"⟩, .declare ⟨.field, "int", "y"⟩,
      .enterSubroutine true, .declare ⟨.argument, "int", "x"⟩, .declare ⟨.argument, "int", "x"⟩,
      .declare ⟨.argument, "int", "z"⟩]).2
    ((d.find? "x").map fun v => (v.segment, v.index)) = some (.argument, 1) ∧
      ((d.find? "z").map fun v => (v.segment, v.index)) = some (.argument, 2) ∧
      (d.ofKind .field).map Variable.index = [1, 0] := by decide

end JackVM
