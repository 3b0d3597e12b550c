namespace JackVM

/-- A map from names, with at most one value for each. -/
structure NameMap (α : Type) where
  entries : List (String × α)
  nodup_names : (entries.map Prod.fst).Nodup
  deriving DecidableEq, Repr

namespace NameMap

variable {α : Type}

def empty : NameMap α :=
  ⟨[], List.nodup_nil⟩

def get? (m : NameMap α) (name : String) : Option α :=
  (m.entries.find? fun e => e.1 = name).map Prod.snd

theorem nodup_cons_filter {es : List (String × α)} (h : (es.map Prod.fst).Nodup) (name : String)
    (a : α) : (((name, a) :: es.filter fun e => e.1 ≠ name).map Prod.fst).Nodup := by
  rw [List.map_cons, List.nodup_cons]
  constructor
  · intro hname
    obtain ⟨e, he, rfl⟩ := List.mem_map.mp hname
    simp at he
  · exact h.sublist (List.filter_sublist.map Prod.fst)

/-- Gives a name a value, in place of the one that it had. -/
def insert (m : NameMap α) (name : String) (a : α) : NameMap α :=
  ⟨(name, a) :: m.entries.filter fun e => e.1 ≠ name, nodup_cons_filter m.nodup_names name a⟩

/-- The values, the one put last first. -/
def values (m : NameMap α) : List α :=
  m.entries.map Prod.snd

variable {m : NameMap α} {name : String} {a : α}

@[simp] theorem entries_empty : (empty : NameMap α).entries = [] := rfl

@[simp] theorem values_empty : (empty : NameMap α).values = [] := rfl

@[simp] theorem get?_empty (name : String) : (empty : NameMap α).get? name = none := rfl

theorem get?_insert (m : NameMap α) (name other : String) (a : α) :
    (m.insert name a).get? other = if name = other then some a else m.get? other := by
  unfold get? insert
  by_cases h : name = other
  · simp [h]
  · have hfind : (m.entries.filter fun e => e.1 ≠ name).find? (fun e => e.1 = other) =
        m.entries.find? fun e => e.1 = other := by
      rw [List.find?_filter]
      congr 1
      funext e
      by_cases he : e.1 = other
      · simp [he, Ne.symm h]
      · simp [he]
    rw [List.find?_cons_of_neg (by simpa using h), hfind, if_neg h]

theorem get?_eq_none_iff : m.get? name = none ↔ name ∉ m.entries.map Prod.fst := by
  rw [get?, Option.map_eq_none_iff, List.find?_eq_none]
  constructor
  · intro h hname
    obtain ⟨e, he, hne⟩ := List.mem_map.mp hname
    exact h e he (by simpa using hne)
  · intro h e he hne
    have hname : e.1 = name := by simpa using hne
    exact h (hname ▸ List.mem_map_of_mem he)

/-- A name that is new comes on top of the others. -/
theorem entries_insert (h : m.get? name = none) :
    (m.insert name a).entries = (name, a) :: m.entries := by
  have hnames := get?_eq_none_iff.mp h
  have hfilter : m.entries.filter (fun e => e.1 ≠ name) = m.entries := by
    rw [List.filter_eq_self]
    intro e he
    have hne : e.1 ≠ name := fun heq => hnames (heq ▸ List.mem_map_of_mem he)
    simpa using hne
  exact congrArg ((name, a) :: ·) hfilter

theorem values_insert (h : m.get? name = none) : (m.insert name a).values = a :: m.values := by
  rw [values, entries_insert h, List.map_cons, ← values]

/-- Names being different, a name has a value exactly if they stand together. -/
theorem get?_eq_some_iff : m.get? name = some a ↔ (name, a) ∈ m.entries := by
  obtain ⟨es, hes⟩ := m
  unfold get?
  dsimp only
  induction es with
  | nil => simp
  | cons e es ih =>
    obtain ⟨hnew, hnodup⟩ := List.nodup_cons.mp hes
    by_cases he : e.1 = name
    · subst he
      have hother : (e.1, a) ∉ es := fun ha => hnew (List.mem_map.mpr ⟨_, ha, rfl⟩)
      simp [hother, Prod.ext_iff, eq_comm]
    · have hne : (name, a) ≠ e := fun h => he (congrArg Prod.fst h).symm
      simpa [he, hne] using ih hnodup

theorem mem_values_iff : a ∈ m.values ↔ ∃ name, m.get? name = some a := by
  simp [values, get?_eq_some_iff]

end NameMap

end JackVM
