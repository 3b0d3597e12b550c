import JackVM.Proofs.Scoping

namespace JackVM

def Variable.declaration (v : Variable) : Declaration :=
  ⟨v.kind, v.typeName, v.name⟩

theorem numbered_declarations (taken : VariableKind → Nat) (xs : List Declaration) :
    (numbered taken xs).map Variable.declaration = xs := by
  induction xs generalizing taken with
  | nil => rfl
  | cons x xs ih => simp [numbered, Variable.declaration, ih]

theorem numbered_names (taken : VariableKind → Nat) (xs : List Declaration) :
    (numbered taken xs).map Variable.name = xs.map Declaration.name := by
  have h := congrArg (List.map Declaration.name) (numbered_declarations taken xs)
  rw [List.map_map] at h
  exact h

theorem numbered_congr {taken taken' : VariableKind → Nat} {xs : List Declaration}
    (h : ∀ x ∈ xs, taken x.kind = taken' x.kind) : numbered taken xs = numbered taken' xs := by
  induction xs generalizing taken taken' with
  | nil => rfl
  | cons x xs ih =>
    have hx := h x (by simp)
    have hxs : ∀ y ∈ xs, taken y.kind = taken' y.kind := fun y hy => h y (by simp [hy])
    simp only [numbered, hx, List.cons.injEq, true_and]
    apply ih
    intro y hy
    simp [hxs y hy]

/-- Among different names the order of a list does not matter. -/
theorem find?_reverse_of_nodup {vs : List Variable} (h : (vs.map Variable.name).Nodup)
    (name : String) :
    vs.reverse.find? (fun v => v.name = name) = vs.find? fun v => v.name = name := by
  induction vs with
  | nil => rfl
  | cons v vs ih =>
    obtain ⟨hv, hvs⟩ := List.nodup_cons.mp h
    rw [List.reverse_cons, List.find?_append, ih hvs]
    by_cases hn : v.name = name
    · have hnone : vs.find? (fun w => w.name = name) = none := by
        apply List.find?_eq_none.mpr
        intro w hw
        have hne : w.name ≠ v.name := fun he => hv (he ▸ List.mem_map_of_mem hw)
        simpa [← hn] using hne
      simp [hnone, hn]
    · simp [hn]

/-- A variable under its own name. -/
def Variable.entry (v : Variable) : String × Variable :=
  (v.name, v)

/-- Where each variable stands under its own name, a name is looked up among the variables. -/
theorem NameMap.get?_of_entries {m : NameMap Variable} {vs : List Variable}
    (h : m.entries = vs.map Variable.entry) (name : String) :
    m.get? name = vs.find? fun v => v.name = name := by
  rw [get?, h, List.find?_map, Option.map_map]
  exact Option.map_id'

namespace Declarations

/-- Declares a name that is new. -/
def add (d : Declarations) (x : Declaration) : Declarations :=
  d.insert x.name x.typeName x.kind

def addAll (d : Declarations) (xs : List Declaration) : Declarations :=
  xs.foldl add d

/-- Names can be declared one after another. -/
def Accepts : Declarations → List Declaration → Prop
  | _, [] => True
  | d, x :: xs => (d.level x.kind).get? x.name = none ∧ (d.add x).Accepts xs

variable {d : Declarations} {xs ys : List Declaration}

theorem addAll_append : d.addAll (xs ++ ys) = (d.addAll xs).addAll ys :=
  List.foldl_append

theorem accepts_append : d.Accepts (xs ++ ys) ↔ d.Accepts xs ∧ (d.addAll xs).Accepts ys := by
  induction xs generalizing d with
  | nil => simp [Accepts, addAll]
  | cons x xs ih =>
    simp only [List.cons_append, Accepts, ih, and_assoc]
    rfl

theorem count_add (x : Declaration) (k : VariableKind) :
    (d.add x).count k = if k = x.kind then d.count k + 1 else d.count k :=
  count_insert d _ _ _ k

/-- Each kind is counted on by the variables of that kind. -/
theorem count_addAll (k : VariableKind) :
    (d.addAll xs).count k = d.count k + xs.countP fun x => x.kind = k := by
  induction xs generalizing d with
  | nil => rfl
  | cons x xs ih =>
    change ((d.add x).addAll xs).count k = _
    rw [ih, count_add, List.countP_cons]
    by_cases hk : x.kind = k
    · simp [hk, Nat.add_assoc, Nat.add_comm 1]
    · simp [hk, Ne.symm hk]

theorem level_add (x : Declaration) (k : VariableKind) :
    (d.add x).level k = if x.kind.isClassLevel = k.isClassLevel
      then (d.level k).insert x.name ⟨x.name, x.kind, x.typeName, d.count x.kind⟩ else d.level k :=
  level_insert d _ _ _ k

theorem level_congr (d : Declarations) {j k : VariableKind} (h : j.isClassLevel = k.isClassLevel) :
    d.level j = d.level k := by
  simp [level, h]

/-- The variables of one level come latest first. -/
theorem entries_addAll {k : VariableKind} (h : ∀ x ∈ xs, x.kind.isClassLevel = k.isClassLevel)
    (hxs : d.Accepts xs) : ((d.addAll xs).level k).entries =
      (numbered d.count xs).reverse.map Variable.entry ++ (d.level k).entries := by
  induction xs generalizing d with
  | nil => rfl
  | cons x xs ih =>
    obtain ⟨hnew, hxs⟩ := hxs
    have hx := h x (by simp)
    have hrest := ih (fun y hy => h y (by simp [hy])) hxs
    have hcount : (d.add x).count = fun k => if k = x.kind then d.count k + 1 else d.count k :=
      funext fun k => count_add x k
    rw [level_congr d hx] at hnew
    change (((d.add x).addAll xs).level k).entries = _
    rw [hrest, hcount, level_add, if_pos hx, NameMap.entries_insert hnew]
    simp [numbered, Variable.entry]

/-- The declarations of one level, latest first. -/
def declared (d : Declarations) (k : VariableKind) : List Declaration :=
  (d.level k).entries.map fun e => ⟨e.2.kind, e.2.typeName, e.1⟩

theorem declared_congr {j k : VariableKind} (h : j.isClassLevel = k.isClassLevel) :
    d.declared j = d.declared k := by
  rw [declared, level_congr d h, declared]

theorem names_declared (d : Declarations) (k : VariableKind) :
    (d.declared k).map Declaration.name = (d.level k).entries.map Prod.fst := by
  simp [declared]

theorem nodup_declared (d : Declarations) (k : VariableKind) :
    ((d.declared k).map Declaration.name).Nodup := by
  rw [names_declared]
  exact (d.level k).nodup_names

theorem declared_addAll {k : VariableKind} (h : ∀ x ∈ xs, x.kind.isClassLevel = k.isClassLevel)
    (hxs : d.Accepts xs) : (d.addAll xs).declared k = xs.reverse ++ d.declared k := by
  have hvariables := congrArg List.reverse (numbered_declarations d.count xs)
  rw [← List.map_reverse] at hvariables
  rw [declared, entries_addAll h hxs, List.map_append, List.map_map, ← declared, ← hvariables]
  rfl

/-- What a level knows of a name is what it was declared as. -/
theorem find?_declared {k : VariableKind} {name : String} :
    (d.declared k).find? (fun x => x.name = name) =
      ((d.level k).get? name).map fun v => ⟨v.kind, v.typeName, name⟩ := by
  rw [declared, List.find?_map, NameMap.get?, Option.map_map]
  apply Option.map_congr
  intro e he
  have hname : e.1 = name := by simpa using List.find?_some he
  simp [hname]

theorem level_addAll_other {k : VariableKind}
    (h : ∀ x ∈ xs, x.kind.isClassLevel ≠ k.isClassLevel) :
    (d.addAll xs).level k = d.level k := by
  induction xs generalizing d with
  | nil => rfl
  | cons x xs ih =>
    have hx := h x (by simp)
    change ((d.add x).addAll xs).level k = _
    rw [ih fun y hy => h y (by simp [hy]), level_add, if_neg hx]

theorem accepts_iff {k : VariableKind} (h : ∀ x ∈ xs, x.kind.isClassLevel = k.isClassLevel) :
    d.Accepts xs ↔ ((xs.reverse ++ d.declared k).map Declaration.name).Nodup := by
  induction xs generalizing d with
  | nil => simpa [Accepts] using d.nodup_declared k
  | cons x xs ih =>
    have hx := h x (by simp)
    have hrest := ih (d := d.add x) fun y hy => h y (by simp [hy])
    rw [Accepts, hrest, level_congr d hx, NameMap.get?_eq_none_iff, ← names_declared]
    have hone : (d.level k).get? x.name = none →
        (d.add x).declared k = x :: d.declared k := by
      intro hnew
      rw [← level_congr d hx] at hnew
      have haccepts : d.Accepts [x] := ⟨hnew, trivial⟩
      exact declared_addAll (by simpa using hx) haccepts
    rw [NameMap.get?_eq_none_iff, ← names_declared] at hone
    constructor
    · rintro ⟨hnew, hnodup⟩
      rw [hone hnew] at hnodup
      simpa using hnodup
    · intro hnodup
      have hnew : x.name ∉ (d.declared k).map Declaration.name := by
        rw [List.reverse_cons, List.append_assoc, List.map_append, List.nodup_append] at hnodup
        exact (List.nodup_cons.mp hnodup.2.1).1
      refine ⟨hnew, ?_⟩
      rw [hone hnew]
      simpa using hnodup

/-- The variables in sight of a class's subroutines outside of their own. -/
structure OfClass (d : Declarations) (c : ClassHead) : Prop where
  entries : d.ofClass.entries = c.classVariables.reverse.map Variable.entry
  count : d.count .field = c.objectSize

/-- The names in sight after a subroutine has declared its own. -/
def inRoutine (d : Declarations) (r : RoutineTree) : Declarations :=
  (d.enterSubroutine (r.kind = .method)).addAll r.declarations

end Declarations

theorem NameGroup.kind_of_mem {g : NameGroup} {k : VariableKind} {x : Declaration}
    (h : x ∈ g.declarations k) : x.kind = k := by
  obtain ⟨name, -, rfl⟩ := List.mem_map.mp h
  rfl

theorem ClassHead.declaration_level {c : ClassHead} {x : Declaration} (h : x ∈ c.declarations) :
    x.kind.isClassLevel = true := by
  obtain ⟨v, -, hv⟩ := List.mem_flatMap.mp h
  rw [NameGroup.kind_of_mem hv, ClassVariables.kind]
  split <;> rfl

theorem RoutineTree.declaration_kind {r : RoutineTree} {x : Declaration}
    (h : x ∈ r.declarations) : x.kind = .argument ∨ x.kind = .localVar := by
  rcases List.mem_append.mp h with h | h
  · obtain ⟨p, -, rfl⟩ := List.mem_map.mp h
    exact Or.inl rfl
  · obtain ⟨g, -, hg⟩ := List.mem_flatMap.mp h
    exact Or.inr (NameGroup.kind_of_mem hg)

theorem RoutineTree.declaration_level {r : RoutineTree} {x : Declaration}
    (h : x ∈ r.declarations) : x.kind.isClassLevel = false := by
  rcases r.declaration_kind h with h | h <;> rw [h] <;> rfl

theorem NameGroup.countP_declarations (g : NameGroup) (k j : VariableKind) :
    (g.declarations k).countP (fun x => x.kind = j) = if k = j then g.names.length else 0 := by
  unfold NameGroup.declarations
  by_cases h : k = j
  · simp [List.countP_map, Function.comp_def, h]
  · simp [List.countP_map, Function.comp_def, h]

theorem NameGroup.countP_flatMap (gs : List NameGroup) (k j : VariableKind) :
    (gs.flatMap fun g => g.declarations k).countP (fun x => x.kind = j) =
      if k = j then (gs.flatMap NameGroup.names).length else 0 := by
  induction gs with
  | nil => simp
  | cons g gs ih =>
    rw [List.flatMap_cons, List.countP_append, g.countP_declarations, ih]
    by_cases h : k = j <;> simp [h]

theorem RoutineTree.countP_argument (r : RoutineTree) :
    r.declarations.countP (fun x => x.kind = .argument) = r.parameters.length := by
  simp [declarations, List.countP_map, Function.comp_def, NameGroup.countP_flatMap]

theorem RoutineTree.countP_localVar (r : RoutineTree) :
    r.declarations.countP (fun x => x.kind = .localVar) = r.frameSize := by
  simp [declarations, frameSize, List.countP_map, Function.comp_def, NameGroup.countP_flatMap]

theorem ClassVariables.kind_eq_field {v : ClassVariables} :
    v.kind = .field ↔ v.isField = true := by
  cases h : v.isField <;> simp [kind, h]

theorem ClassVariables.kind_eq_staticVar {v : ClassVariables} :
    v.kind = .staticVar ↔ v.isField = false := by
  cases h : v.isField <;> simp [kind, h]

namespace ClassHead

variable (c : ClassHead)

theorem countP_declarations (k : VariableKind) : c.declarations.countP (fun x => x.kind = k) =
    ((c.variableGroups.filter fun v => v.kind = k).flatMap fun v => v.group.names).length := by
  unfold declarations
  induction c.variableGroups with
  | nil => rfl
  | cons v vs ih =>
    rw [List.flatMap_cons, List.countP_append, NameGroup.countP_declarations, ih]
    by_cases h : v.kind = k <;> simp [h]

theorem countP_field : c.declarations.countP (fun x => x.kind = .field) = c.objectSize := by
  simp [countP_declarations, objectSize, ClassVariables.kind_eq_field]

end ClassHead

namespace Declarations

variable {d : Declarations} {c : ClassHead} {r : RoutineTree}

theorem accepts_classVariables :
    empty.Accepts c.declarations ↔ (c.declarations.map Declaration.name).Nodup := by
  rw [accepts_iff (k := .field) fun x hx => c.declaration_level hx]
  have hnone : empty.declared .field = [] := rfl
  rw [hnone, List.append_nil, List.map_reverse, (List.reverse_perm _).nodup_iff]

theorem ofClass_classVariables (hc : (c.declarations.map Declaration.name).Nodup) :
    (empty.addAll c.declarations).OfClass c where
  entries := by
    have h := entries_addAll (k := .field) (fun x hx => c.declaration_level hx)
      (accepts_classVariables.mpr hc)
    have hcount : empty.count = fun _ => 0 := funext Counters.get_zero
    rw [hcount] at h
    change _ = _ ++ [] at h
    rw [List.append_nil] at h
    exact h
  count := by
    rw [count_addAll, c.countP_field]
    exact Nat.zero_add _

theorem accepts_inRoutine :
    (d.enterSubroutine (r.kind = .method)).Accepts r.declarations ↔
      (r.declarations.map Declaration.name).Nodup := by
  rw [accepts_iff (k := .localVar) fun x hx => r.declaration_level hx]
  have hnone : (d.enterSubroutine (r.kind = .method)).declared .localVar = [] := rfl
  rw [hnone, List.append_nil, List.map_reverse, (List.reverse_perm _).nodup_iff]

theorem countP_class (r : RoutineTree) {k : VariableKind} (hk : k.isClassLevel = true) :
    r.declarations.countP (fun x => x.kind = k) = 0 := by
  rw [List.countP_eq_zero]
  rintro x hx hkind
  obtain rfl : x.kind = k := by simpa using hkind
  rw [r.declaration_level hx] at hk
  cases hk

theorem ofClass_inRoutine (h : d.OfClass c) : (d.inRoutine r).OfClass c where
  entries := by
    have hlevel : (d.inRoutine r).level .field =
        (d.enterSubroutine (r.kind = .method)).level .field := by
      apply level_addAll_other
      intro x hx
      rw [r.declaration_level hx]
      decide
    exact (congrArg NameMap.entries hlevel).trans h.entries
  count := by
    rw [inRoutine, count_addAll, countP_class r rfl]
    exact h.count

theorem entries_inRoutine (hr : (r.declarations.map Declaration.name).Nodup) :
    (d.inRoutine r).ofSubroutine.entries = r.ownVariables.reverse.map Variable.entry := by
  have h := entries_addAll (k := .localVar) (fun x hx => r.declaration_level hx)
    (accepts_inRoutine (d := d).mpr hr)
  have hplaces : numbered (d.enterSubroutine (r.kind = .method)).count r.declarations =
      r.ownVariables := by
    apply numbered_congr
    intro x hx
    rw [count_enterSubroutine, r.declaration_level hx]
    simp [RoutineTree.places, and_comm]
  rw [hplaces] at h
  change _ = _ ++ [] at h
  rw [List.append_nil] at h
  exact h

theorem find?_inRoutine (h : d.OfClass c) (hc : (c.declarations.map Declaration.name).Nodup)
    (hr : (r.declarations.map Declaration.name).Nodup) :
    (d.inRoutine r).find? = (c.scope r).find? := by
  funext name
  have hclass := (ofClass_inRoutine (r := r) h).entries
  have hcv : (c.classVariables.map Variable.name).Nodup := by
    rwa [ClassHead.classVariables, numbered_names]
  have hrv : (r.ownVariables.map Variable.name).Nodup := by
    rwa [RoutineTree.ownVariables, numbered_names]
  rw [find?, NameMap.get?_of_entries (entries_inRoutine hr), NameMap.get?_of_entries hclass,
    find?_reverse_of_nodup hcv, find?_reverse_of_nodup hrv]
  exact List.find?_append.symm

theorem count_localVar_inRoutine : (d.inRoutine r).count .localVar = r.frameSize := by
  rw [inRoutine, count_addAll, r.countP_localVar, count_enterSubroutine]
  exact Nat.zero_add _

theorem count_field_inRoutine (h : d.OfClass c) :
    (d.inRoutine r).count .field = c.objectSize :=
  (ofClass_inRoutine h).count

end Declarations

end JackVM
