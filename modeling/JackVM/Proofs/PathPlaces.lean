import Mathlib.Data.List.Basic
import JackVM.FileTree
import JackVM.Proofs.OutputPaths

namespace JackVM

/-- The names in a path, in order. -/
def pathNames (path : String) : List String :=
  ((pathParts path.toList).filter (· != [])).map String.ofList

/-- What a name leads to in a directory. -/
def spotAt (parent : Place) (name : String) (slash : Bool) : Spot :=
  if name = "." then .directory parent
  else if name = ".." then .directory parent.dropLast
  else .entry parent name slash

section

variable {front name : String} {cs ds : List Char}

theorem pathParts_ne_nil (cs : List Char) : pathParts cs ≠ [] := by
  fun_cases pathParts cs <;> simp

theorem pathParts_append_slash (cs ds : List Char) :
    pathParts (cs ++ '/' :: ds) = pathParts cs ++ pathParts ds := by
  induction cs with
  | nil => simp [pathParts]
  | cons c cs ih =>
    by_cases hc : c = '/'
    · simp [pathParts, hc, ih]
    · rw [List.cons_append, pathParts, pathParts, if_neg hc, if_neg hc, ih]
      cases hparts : pathParts cs with
      | nil => exact absurd hparts (pathParts_ne_nil cs)
      | cons part parts => rfl

theorem pathParts_of_notMem (h : '/' ∉ cs) : pathParts cs = [cs] := by
  induction cs with
  | nil => rfl
  | cons c cs ih =>
    rw [List.mem_cons, not_or] at h
    rw [pathParts, if_neg (Ne.symm h.1), ih h.2]

theorem pathParts_append {front name : List Char} (hfront : IsFront front) (hslash : '/' ∉ name) :
    ∃ parts, pathParts front = parts ++ [[]] ∧ pathParts (front ++ name) = parts ++ [name] := by
  obtain rfl | ⟨cs, rfl⟩ := hfront
  · exact ⟨[], rfl, pathParts_of_notMem hslash⟩
  · refine ⟨pathParts cs, pathParts_append_slash cs [], ?_⟩
    rw [List.append_assoc, List.singleton_append, pathParts_append_slash,
      pathParts_of_notMem hslash]

/-- A name behind a text that ends in a slash is the last of the path's names. -/
theorem pathNames_append (hfront : IsFront front.toList) (hne : name ≠ "")
    (hslash : '/' ∉ name.toList) : pathNames (front ++ name) = pathNames front ++ [name] := by
  have hname : name.toList ≠ [] := mt String.toList_eq_nil_iff.mp hne
  obtain ⟨parts, hparts, hparts'⟩ := pathParts_append hfront hslash
  rw [pathNames, pathNames, String.toList_append, hparts, hparts']
  simp [hne]

theorem pathParts_append_trailing {tail : List Char} (htail : Trailing tail) (cs : List Char) :
    ∃ dots, (∀ part ∈ dots, part = ['.']) ∧
      (pathParts (cs ++ tail)).filter (· != []) = (pathParts cs).filter (· != []) ++ dots := by
  induction htail with
  | nil => exact ⟨[], by simp, by simp⟩
  | slash _ ih =>
    obtain ⟨dots, hdots, heq⟩ := ih
    refine ⟨dots, hdots, ?_⟩
    rw [← List.append_assoc, pathParts_append_slash, List.filter_append, heq]
    simp [pathParts]
  | dot _ ih =>
    obtain ⟨dots, hdots, heq⟩ := ih
    refine ⟨dots ++ [['.']], by simpa [or_imp, forall_and] using hdots, ?_⟩
    rw [← List.append_assoc, pathParts_append_slash, List.filter_append, heq]
    simp [pathParts]

/-- What stands behind the last name of a path and does not count adds dots to the names, or
nothing. -/
theorem getLast?_pathNames {path : String} {front name tail : List Char}
    (hpath : path.toList = front ++ name ++ tail) (hfront : IsFront front) (hne : name ≠ [])
    (hslash : '/' ∉ name) (htail : Trailing tail) :
    (pathNames path).getLast? = some (.ofList name) ∨ (pathNames path).getLast? = some "." := by
  obtain ⟨parts, -, hparts⟩ := pathParts_append hfront hslash
  obtain ⟨dots, hdots, heq⟩ := pathParts_append_trailing htail (front ++ name)
  rw [pathNames, hpath, heq, hparts]
  obtain rfl | ⟨dots, dot, rfl⟩ := List.eq_nil_or_concat' dots
  · simp [hne]
  · have hdot : dot = ['.'] := hdots dot (by simp)
    simp [hdot]

end

namespace FileTree

variable {t u v : FileTree} {path : String} {p q : Place}

/-- The place that a path starts from. -/
def start (t : FileTree) (path : String) : Place :=
  if path.toList.head? = some '/' then [] else t.workDirectory

theorem locate_of_nil (h : pathNames path = []) :
    t.locate path = if path = "" then .error .notFound else .ok (.directory (t.start path)) := by
  unfold pathNames at h
  simp only [locate, start, h]
  rfl

theorem locate_of_concat {names : List String} {name : String}
    (h : pathNames path = names ++ [name]) :
    t.locate path =
      (t.walk (t.start path) names).map (spotAt · name (path.toList.getLast? = some '/')) := by
  unfold pathNames at h
  simp only [locate, h, List.getLast?_append, List.getLast?_singleton, Option.some_or,
    List.dropLast_concat]
  cases hwalk : t.walk (t.start path) names with
  | error fault =>
    simp only [start] at hwalk
    simp [hwalk, bind, Except.bind, Except.map]
  | ok parent =>
    simp only [start] at hwalk
    simp only [hwalk, bind, Except.bind, Except.map, spotAt]
    split_ifs <;> rfl

/-- An entry that a path leads to has the last of the path's names. -/
theorem getLast?_pathNames_of_entry {parent : Place} {name : String} {slash : Bool}
    (h : t.locate path = .ok (.entry parent name slash)) :
    (pathNames path).getLast? = some name ∧ name ≠ "." ∧ name ≠ ".." := by
  obtain hnames | ⟨names, last, hnames⟩ := List.eq_nil_or_concat' (pathNames path)
  · rw [locate_of_nil hnames] at h
    split at h <;> cases h
  · rw [locate_of_concat hnames] at h
    cases hwalk : t.walk (t.start path) names with
    | error fault =>
      rw [hwalk] at h
      cases h
    | ok here =>
      simp only [hwalk, Except.map, Except.ok.injEq, spotAt] at h
      split_ifs at h with hdot hdots
      cases h
      exact ⟨by simp [hnames], hdot, hdots⟩

/-- Two trees have the same directories, and paths start from the same one. -/
structure SameDirectories (t u : FileTree) : Prop where
  workDirectory : u.workDirectory = t.workDirectory
  directory_iff (p : Place) : u.node? p = some .directory ↔ t.node? p = some .directory

namespace SameDirectories

theorem refl (t : FileTree) : t.SameDirectories t :=
  ⟨rfl, fun _ => Iff.rfl⟩

theorem symm (h : t.SameDirectories u) : u.SameDirectories t :=
  ⟨h.workDirectory.symm, fun p => (h.directory_iff p).symm⟩

theorem trans (h : t.SameDirectories u) (h' : u.SameDirectories v) : t.SameDirectories v :=
  ⟨h'.workDirectory.trans h.workDirectory, fun p => (h'.directory_iff p).trans (h.directory_iff p)⟩

theorem walk_eq_ok (h : t.SameDirectories u) {here : Place} {parts : List String}
    (hwalk : t.walk here parts = .ok p) : u.walk here parts = .ok p := by
  fun_induction walk t here parts with
  | case1 here => exact hwalk
  | case2 here parts ih => simpa [walk] using ih hwalk
  | case3 here parts _ ih => simpa [walk] using ih hwalk
  | case4 here part parts hdot hdots hnode ih =>
    simpa [walk, hdot, hdots, (h.directory_iff _).mpr hnode] using ih hwalk
  | case5 => cases hwalk
  | case6 => cases hwalk

theorem locate_eq_ok (h : t.SameDirectories u) {s : Spot} (hs : t.locate path = .ok s) :
    u.locate path = .ok s := by
  have hstart : u.start path = t.start path := by rw [start, start, h.workDirectory]
  obtain hnames | ⟨names, name, hnames⟩ := List.eq_nil_or_concat' (pathNames path)
  · rw [locate_of_nil hnames] at hs ⊢
    rwa [hstart]
  · rw [locate_of_concat hnames] at hs ⊢
    rw [hstart]
    cases hwalk : t.walk (t.start path) names with
    | error fault =>
      rw [hwalk] at hs
      cases hs
    | ok parent => rwa [h.walk_eq_ok hwalk, ← hwalk]

end SameDirectories

/-- A path leads to an entry of a directory, and may lead to a file there. -/
def LeadsTo (t : FileTree) (path : String) (p : Place) : Prop :=
  ∃ parent name, t.locate path = .ok (.entry parent name false) ∧ p = parent ++ [name]

theorem LeadsTo.ne_nil (h : t.LeadsTo path p) : p ≠ [] := by
  obtain ⟨parent, name, -, rfl⟩ := h
  exact List.concat_ne_nil name parent

theorem LeadsTo.unique (h : t.LeadsTo path p) (h' : t.LeadsTo path q) : p = q := by
  obtain ⟨parent, name, hp, rfl⟩ := h
  obtain ⟨parent', name', hq, rfl⟩ := h'
  rw [hp] at hq
  cases hq
  rfl

theorem SameDirectories.leadsTo_iff (h : t.SameDirectories u) :
    u.LeadsTo path p ↔ t.LeadsTo path p :=
  ⟨fun ⟨parent, name, hp, heq⟩ => ⟨parent, name, h.symm.locate_eq_ok hp, heq⟩,
    fun ⟨parent, name, hp, heq⟩ => ⟨parent, name, h.locate_eq_ok hp, heq⟩⟩

theorem leadsTo_iff {parent : Place} {name : String} {slash : Bool}
    (h : t.locate path = .ok (.entry parent name slash)) :
    t.LeadsTo path p ↔ slash = false ∧ p = parent ++ [name] := by
  simp only [LeadsTo, h, Except.ok.injEq, Spot.entry.injEq]
  grind

theorem not_leadsTo_of_error {fault : FileFault} (h : t.locate path = .error fault) :
    ¬ t.LeadsTo path p := by
  simp [LeadsTo, h]

theorem not_leadsTo_of_directory {place : Place} (h : t.locate path = .ok (.directory place)) :
    ¬ t.LeadsTo path p := by
  simp [LeadsTo, h]

section

variable {front name : String}

/-- The directory that the text in front of a name leads to. -/
def directoryAt (t : FileTree) (front : String) : Except FileFault Place :=
  t.walk (t.start front) (pathNames front)

theorem locate_append (t : FileTree) (hfront : IsFront front.toList) (hne : name ≠ "")
    (hslash : '/' ∉ name.toList) :
    t.locate (front ++ name) = (t.directoryAt front).map (spotAt · name false) := by
  have hname : name.toList ≠ [] := mt String.toList_eq_nil_iff.mp hne
  have hstart : t.start (front ++ name) = t.start front := by
    obtain hnil | ⟨cs, hcs⟩ := hfront
    · have hhead : name.toList.head? ≠ some '/' := fun h => hslash (List.mem_of_mem_head? h)
      simp [start, hnil, hhead]
    · simp [start, hcs, List.head?_append]
  have hlast : (front ++ name).toList.getLast? ≠ some '/' := by
    rw [String.toList_append, List.getLast?_append_of_ne_nil _ hname]
    exact fun h => hslash (List.mem_of_getLast? h)
  rw [locate_of_concat (pathNames_append hfront hne hslash), hstart, directoryAt]
  simp only [hlast, decide_false]

theorem leadsTo_append_iff (hfront : IsFront front.toList)
    (hne : name ≠ "") (hslash : '/' ∉ name.toList) :
    t.LeadsTo (front ++ name) p ↔
      name ≠ "." ∧ name ≠ ".." ∧ ∃ parent, t.directoryAt front = .ok parent ∧
        p = parent ++ [name] := by
  rw [LeadsTo, t.locate_append hfront hne hslash]
  cases t.directoryAt front with
  | error fault => simp [Except.map]
  | ok parent =>
    simp only [Except.map, spotAt]
    grind

/-- A name with a long enough extension is never a dot or two. -/
theorem leadsTo_stem_iff {stem extension : String} {parent : Place} (hfront : IsFront front.toList)
    (hparent : t.directoryAt front = .ok parent) (hstem : '/' ∉ stem.toList)
    (hlong : 3 ≤ extension.length) (hextension : '/' ∉ extension.toList) :
    t.LeadsTo (front ++ stem ++ extension) p ↔ p = parent ++ [stem ++ extension] := by
  have hne {other : String} (hshort : other.length < 3) : stem ++ extension ≠ other := by
    rintro rfl
    rw [String.length_append] at hshort
    omega
  have hslash : '/' ∉ (stem ++ extension).toList := by simp [hstem, hextension]
  rw [String.append_assoc, leadsTo_append_iff hfront (hne (by decide)) hslash, hparent]
  constructor
  · rintro ⟨-, -, _, ⟨⟩, hp⟩
    exact hp
  · rintro hp
    exact ⟨hne (by decide), hne (by decide), parent, rfl, hp⟩

theorem LeadsTo.getLast?_ne (h : t.LeadsTo path p) : path.toList.getLast? ≠ some '/' := by
  intro hlast
  obtain ⟨parent, name, hlocate, -⟩ := h
  obtain hnames | ⟨names, last, hnames⟩ := List.eq_nil_or_concat' (pathNames path)
  · rw [locate_of_nil hnames] at hlocate
    split at hlocate <;> cases hlocate
  · rw [locate_of_concat hnames] at hlocate
    cases hwalk : t.walk (t.start path) names with
    | error fault =>
      rw [hwalk] at hlocate
      cases hlocate
    | ok here =>
      simp only [hwalk, hlast, decide_true, Except.map, Except.ok.injEq, spotAt] at hlocate
      split_ifs at hlocate
      cases hlocate

end

end FileTree

end JackVM
