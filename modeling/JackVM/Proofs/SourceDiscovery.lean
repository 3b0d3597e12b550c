import Mathlib.Data.List.Sort
import JackVM.Proofs.SourceListing

namespace JackVM

namespace FileTree

variable {t u : FileTree} {path target name : String} {place p : Place} {node : FileNode}

/-- A path leads to a directory at a place. -/
def IsDirectoryAt (t : FileTree) (path : String) (place : Place) : Prop :=
  t.locate path = .ok (.directory place) ∨ ∃ parent name slash,
    t.locate path = .ok (.entry parent name slash) ∧
      t.node? (parent ++ [name]) = some .directory ∧ place = parent ++ [name]

/-- A regular file with the name of a source lies directly in the directory at a place. -/
def HoldsSource (t : FileTree) (place : Place) (name : String) : Prop :=
  isSource name = true ∧ ∃ content, t.node? (place ++ [name]) = some (.file content)

section Directories

attribute [local simp] bind Except.bind pure Except.pure throw throwThe MonadExceptOf.throw

theorem isDirectory_iff : t.isDirectory path = true ↔ ∃ place, t.IsDirectoryAt path place := by
  unfold isDirectory stat IsDirectoryAt
  match hlocate : t.locate path with
  | .error _ => simp
  | .ok (.directory _) => simp
  | .ok (.entry parent name slash) =>
    match hnode : t.node? (parent ++ [name]) with
    | none | some .directory => simp [hnode]
    | some (.file _) => cases slash <;> simp [hnode]

theorem IsDirectoryAt.list_eq (h : t.IsDirectoryAt path place) :
    t.list path = .ok (t.childNames place) := by
  obtain hlocate | ⟨parent, name, slash, hlocate, hnode, rfl⟩ := h
  · simp [list, hlocate]
  · simp [list, hlocate, hnode]

theorem walk_append (t : FileTree) (here : Place) (front back : List String) :
    t.walk here (front ++ back) = (t.walk here front).bind fun there => t.walk there back := by
  fun_induction walk t here front with
  | case1 here => rfl
  | case2 here parts ih => simpa [walk] using ih
  | case3 here parts hdot ih => simpa [walk] using ih
  | case4 here part parts hdot hdots hnode ih => simpa [walk, hdot, hdots, hnode] using ih
  | case5 here part parts hdot hdots content hnode => simp [walk, hdot, hdots, hnode]
  | case6 here part parts hdot hdots hnode => simp [walk, hdot, hdots, hnode]

theorem pathNames_frontOf (path : String) : pathNames (frontOf path) = pathNames path := by
  rw [frontOf]
  split
  next => rfl
  next =>
    have hparts : pathParts (path ++ "/").toList = pathParts path.toList ++ [[]] := by
      rw [String.toList_append]
      exact pathParts_append_slash path.toList []
    rw [pathNames, hparts]
    simp [pathNames]

theorem start_frontOf (t : FileTree) (h : path ≠ "") : t.start (frontOf path) = t.start path := by
  have hne : path.toList ≠ [] := mt String.toList_eq_nil_iff.mp h
  rw [frontOf]
  split
  next => rfl
  next => rw [start, start, String.toList_append, List.head?_append_of_ne_nil _ hne]

theorem directoryAt_frontOf (t : FileTree) (h : path ≠ "") :
    t.directoryAt (frontOf path) = t.directoryAt path := by
  rw [directoryAt, directoryAt, start_frontOf t h, pathNames_frontOf]

theorem IsDirectoryAt.ne_empty (h : t.IsDirectoryAt path place) : path ≠ "" := by
  rintro rfl
  have hlocate : t.locate "" = .error .notFound := t.locate_of_nil rfl
  simp [IsDirectoryAt, hlocate] at h

/-- All the parts of a path that leads to a directory are directories. -/
theorem IsDirectoryAt.directoryAt_eq (h : t.IsDirectoryAt path place) :
    t.directoryAt path = .ok place := by
  have hne := h.ne_empty
  rw [directoryAt]
  obtain hnames | ⟨names, name, hnames⟩ := List.eq_nil_or_concat' (pathNames path)
  · have hlocate := t.locate_of_nil hnames
    rw [if_neg hne] at hlocate
    simp only [IsDirectoryAt, hlocate, Except.ok.injEq, Spot.directory.injEq, reduceCtorEq,
      false_and, exists_false, or_false] at h
    rw [hnames, ← h, walk]
  · have hlocate := t.locate_of_concat hnames
    rw [hnames, walk_append]
    cases hwalk : t.walk (t.start path) names with
    | error fault =>
      rw [hwalk] at hlocate
      simp [IsDirectoryAt, hlocate, Except.map] at h
    | ok parent =>
      rw [hwalk] at hlocate
      simp only [Except.map, spotAt] at hlocate
      simp only [IsDirectoryAt, hlocate] at h
      split_ifs at h with hdot hdots
      · simpa [walk, hdot] using h
      · simpa [walk, hdots] using h
      · have hentry : t.node? (parent ++ [name]) = some .directory ∧ parent ++ [name] = place := by
          simpa [eq_comm] using h
        obtain ⟨hnode, rfl⟩ := hentry
        simp [walk, hdot, hdots, hnode]

end Directories

section Children

/-- A child with the name of a source is found as a file just if it is a regular one. -/
theorem IsDirectoryAt.isFile_childPath (h : t.IsDirectoryAt path place)
    (hsource : isSource name = true) (hslash : '/' ∉ name.toList) :
    t.isFile (childPath path name) = true ↔
      ∃ content, t.node? (place ++ [name]) = some (.file content) := by
  have hne (other : String) (hother : isSource other = false) : name ≠ other := by
    rintro rfl
    rw [hsource] at hother
    cases hother
  have hleads (p : Place) : t.LeadsTo (childPath path name) p ↔ p = place ++ [name] := by
    rw [childPath_eq, leadsTo_append_iff (isFront_frontOf path) (hne "" (by decide)) hslash,
      t.directoryAt_frontOf h.ne_empty, h.directoryAt_eq]
    simp [hne "." (by decide), hne ".." (by decide)]
  simp [isFile_iff, read_eq_ok_iff, hleads]

theorem mem_childNames_of_node? (h : t.node? (place ++ [name]) = some node) :
    name ∈ t.childNames place := by
  rw [node?, if_neg (List.concat_ne_nil name place), List.lookup_eq_some_iff] at h
  obtain ⟨front, back, hentries, -⟩ := h
  rw [childNames, List.mem_filterMap]
  exact ⟨(place ++ [name], node), by simp [hentries], by simp⟩

/-- The sources that a directory holds are found at their paths. -/
theorem Proper.mem_found_iff (hproper : t.Proper) (h : t.IsDirectoryAt target place) :
    path ∈ ((sourceNames (t.childNames place)).map (childPath target)).filter t.isFile ↔
      ∃ name, t.HoldsSource place name ∧ path = childPath target name := by
  have hnames (name : String) :
      name ∈ sourceNames (t.childNames place) ↔
        name ∈ t.childNames place ∧ isSource name = true := by
    rw [sourceNames, (List.mergeSort_perm _ _).mem_iff, List.mem_filter]
  rw [List.mem_filter, List.mem_map]
  constructor
  · rintro ⟨⟨name, hname, rfl⟩, hfile⟩
    obtain ⟨hchild, hsource⟩ := (hnames name).mp hname
    have hslash := hproper.slash_notMem_childName hchild
    exact ⟨name, ⟨hsource, (h.isFile_childPath hsource hslash).mp hfile⟩, rfl⟩
  · rintro ⟨name, ⟨hsource, content, hnode⟩, rfl⟩
    have hchild := mem_childNames_of_node? hnode
    have hslash := hproper.slash_notMem_childName hchild
    exact ⟨⟨name, (hnames name).mpr ⟨hchild, hsource⟩, rfl⟩,
      (h.isFile_childPath hsource hslash).mpr ⟨content, hnode⟩⟩

end Children

end FileTree

/-- Paths come in ascending order, as texts and part by part. -/
def Ascending (paths : List String) : Prop :=
  paths.Pairwise fun p q => p < q ∧ pathNames p < pathNames q

section Order

variable {t : FileTree} {place : Place} {front name other : String}

theorem append_lt_append (front : String) (h : name < other) : front ++ name < front ++ other := by
  change (front ++ name).toList < (front ++ other).toList
  rw [String.toList_append, String.toList_append]
  exact List.append_left_lt h

theorem sorted_sourceNames (names : List String) : (sourceNames names).Pairwise (· ≤ ·) := by
  have htrans (a b c : String) (hab : decide (a ≤ b) = true) (hbc : decide (b ≤ c) = true) :
      decide (a ≤ c) = true :=
    decide_eq_true (String.le_trans (of_decide_eq_true hab) (of_decide_eq_true hbc))
  have htotal (a b : String) : (decide (a ≤ b) || decide (b ≤ a)) = true := by
    simpa using String.le_total a b
  simpa [sourceNames] using List.pairwise_mergeSort htrans htotal (names.filter isSource)

/-- Paths of entries of one directory are in the order of the entries' names. -/
theorem childPath_lt (directory : String) (hname : isSource name = true)
    (hslash : '/' ∉ name.toList) (hother : isSource other = true) (hslash' : '/' ∉ other.toList)
    (hlt : name < other) : childPath directory name < childPath directory other ∧
      pathNames (childPath directory name) < pathNames (childPath directory other) := by
  have hne {name : String} (hname : isSource name = true) : name ≠ "" := by
    rintro rfl
    cases hname
  have hfront := isFront_frontOf directory
  rw [childPath_eq, childPath_eq, pathNames_append hfront (hne hname) hslash,
    pathNames_append hfront (hne hother) hslash']
  exact ⟨append_lt_append _ hlt, List.append_left_lt (List.Lex.rel hlt)⟩

theorem FileTree.Proper.ascending_found (hproper : t.Proper) (target : String) (place : Place) :
    Ascending (((sourceNames (t.childNames place)).map (childPath target)).filter t.isFile) := by
  have hperm : (sourceNames (t.childNames place)).Perm ((t.childNames place).filter isSource) :=
    List.mergeSort_perm _ _
  have hnodup : (sourceNames (t.childNames place)).Nodup :=
    hperm.nodup_iff.mpr ((hproper.nodup_childNames place).filter _)
  have hstrict : (sourceNames (t.childNames place)).Pairwise (· < ·) :=
    (sorted_sourceNames _).imp₂ (fun _ _ => Std.lt_of_le_of_ne) hnodup
  refine (List.pairwise_map.mpr (hstrict.imp_of_mem ?_)).filter _
  intro name other hname hother hlt
  obtain ⟨hchild, hsource⟩ := List.mem_filter.mp (hperm.mem_iff.mp hname)
  obtain ⟨hchild', hsource'⟩ := List.mem_filter.mp (hperm.mem_iff.mp hother)
  exact childPath_lt target hsource (hproper.slash_notMem_childName hchild) hsource'
    (hproper.slash_notMem_childName hchild') hlt

/-- Paths in ascending order are told by which they are. -/
theorem Ascending.eq_of_mem_iff {ps qs : List String} (hps : Ascending ps) (hqs : Ascending qs)
    (h : ∀ path, path ∈ ps ↔ path ∈ qs) : ps = qs :=
  (hps.imp And.left).eq_of_mem_iff (hqs.imp And.left) h

end Order

namespace FileTree

variable {t u : FileTree} {path target : String} {place p : Place} {node : FileNode}

section Enumeration

theorem lookup_eq_some_iff_mem {entries : List (Place × FileNode)}
    (h : (entries.map Prod.fst).Nodup) : entries.lookup p = some node ↔ (p, node) ∈ entries := by
  induction entries with
  | nil => simp
  | cons e entries ih =>
    obtain ⟨q, other⟩ := e
    obtain ⟨hq, hentries⟩ := List.nodup_cons.mp h
    rw [List.lookup_cons, List.mem_cons]
    by_cases heq : p = q
    · subst heq
      have hnot : (p, node) ∉ entries := fun hmem => hq (List.mem_map.mpr ⟨_, hmem, rfl⟩)
      simp [hnot, eq_comm]
    · simpa [heq, beq_eq_false_iff_ne.mpr heq] using ih hentries

theorem Proper.of_perm (h : t.Proper) (hperm : u.entries.Perm t.entries) : u.Proper where
  nodup := (hperm.map Prod.fst).nodup_iff.mpr h.nodup
  slash_notMem e he := h.slash_notMem e (hperm.mem_iff.mp he)

/-- The order of the entries does not matter to what is at a place. -/
theorem Proper.node?_of_perm (h : t.Proper) (hperm : u.entries.Perm t.entries) :
    u.node? = t.node? := by
  have hu := h.of_perm hperm
  funext p
  by_cases hp : p = []
  · simp [node?, hp]
  · refine Option.ext fun node => ?_
    rw [node?, node?, if_neg hp, if_neg hp, lookup_eq_some_iff_mem hu.nodup,
      lookup_eq_some_iff_mem h.nodup, hperm.mem_iff]

theorem IsDirectoryAt.of_node? (h : t.IsDirectoryAt path place)
    (hwork : u.workDirectory = t.workDirectory) (hnode : u.node? = t.node?) :
    u.IsDirectoryAt path place := by
  have hsame : t.SameDirectories u := ⟨hwork, fun p => by rw [hnode]⟩
  obtain hlocate | ⟨parent, name, slash, hlocate, hdirectory, rfl⟩ := h
  · exact .inl (hsame.locate_eq_ok hlocate)
  · exact .inr ⟨parent, name, slash, hsame.locate_eq_ok hlocate, hnode ▸ hdirectory, rfl⟩

end Enumeration

section Discovery

/-- The paths of the sources that a directory holds, and no others, in ascending order. -/
structure Finds (t : FileTree) (target : String) (place : Place) (found : List String) : Prop where
  ascending : Ascending found
  mem_iff : ∀ path, path ∈ found ↔ ∃ name, t.HoldsSource place name ∧ path = childPath target name

theorem Finds.unique {found found' : List String} (h : t.Finds target place found)
    (h' : t.Finds target place found') : found = found' :=
  h.ascending.eq_of_mem_iff h'.ascending fun path => by rw [h.mem_iff, h'.mem_iff]

theorem Finds.eq_nil_iff {found : List String} (h : t.Finds target place found) :
    found = [] ↔ ∀ name, ¬t.HoldsSource place name := by
  rw [List.eq_nil_iff_forall_not_mem]
  constructor
  · intro hnone name hname
    exact hnone _ ((h.mem_iff _).mpr ⟨name, hname, rfl⟩)
  · intro hnone path hpath
    obtain ⟨name, hname, -⟩ := (h.mem_iff path).mp hpath
    exact hnone name hname

/-- What is told of a directory in which certain sources were found. -/
def foundIn (target : String) (found : List String) : Except FileError (List String) :=
  if found = [] then .error (.withoutSources target) else .ok found

theorem Proper.sourcesAt_directory (hproper : t.Proper) (h : t.IsDirectoryAt target place) :
    ∃ found, t.Finds target place found ∧ ((sourcesAt target).run t).1 = foundIn target found := by
  refine ⟨_, ⟨hproper.ascending_found target place, fun path => hproper.mem_found_iff h⟩, ?_⟩
  rw [sourcesAt_run (isDirectory_iff.mpr ⟨place, h⟩) h.list_eq, foundIn]
  split
  next heq => rw [if_pos heq]
  next hne => rw [if_neg hne]

theorem sourcesAt_other (h : ∀ place, ¬t.IsDirectoryAt target place) :
    ((sourcesAt target).run t).1 =
      if isSource target then .ok [target] else .error (.notSource target) := by
  have hfalse : t.isDirectory target = false := by
    rw [← Bool.not_eq_true, isDirectory_iff]
    exact not_exists.mpr h
  rw [sourcesAt, FileTask.bind_eq, FileTask.request, FileTask.run_bind, FileTask.run_ask]
  simp only [FileTree.answer, FileTask.run, hfalse, Bool.false_eq_true, if_false]
  split <;> rfl

theorem Finds.isSource_of_mem {found : List String} (hproper : t.Proper)
    (h : t.Finds target place found) (hpath : path ∈ found) : isSource path = true := by
  obtain ⟨name, ⟨hname, content, hnode⟩, rfl⟩ := (h.mem_iff path).mp hpath
  have hslash := hproper.slash_notMem_childName (mem_childNames_of_node? hnode)
  obtain ⟨stem, -, hsplit⟩ := exists_stem hname hslash (isFront_frontOf target)
  rw [childPath_eq]
  exact isSource_iff.mpr ⟨_, _, _, hsplit⟩

/-- What is found at a path depends on what is at each place only. -/
theorem Proper.sourcesAt_congr (hproper : t.Proper) (hu : u.Proper)
    (hwork : u.workDirectory = t.workDirectory) (hnode : u.node? = t.node?) (target : String) :
    ((sourcesAt target).run u).1 = ((sourcesAt target).run t).1 := by
  by_cases hdirectory : ∃ place, t.IsDirectoryAt target place
  · obtain ⟨place, h⟩ := hdirectory
    obtain ⟨found, hfound, hrun⟩ := hproper.sourcesAt_directory h
    obtain ⟨found', hfound', hrun'⟩ := hu.sourcesAt_directory (h.of_node? hwork hnode)
    have hsame : t.Finds target place found' :=
      ⟨hfound'.ascending, by simpa only [HoldsSource, hnode] using hfound'.mem_iff⟩
    rw [hrun, hrun', hfound.unique hsame]
  · have hnone := not_exists.mp hdirectory
    have hnone' (place : Place) : ¬u.IsDirectoryAt target place := fun h =>
      hnone place (h.of_node? hwork.symm hnode.symm)
    rw [sourcesAt_other hnone, sourcesAt_other hnone']

end Discovery

end FileTree

/-- In a directory just the sources that lie directly in it are found, each of them once and in
ascending order, and there are none only if it is told so. Any other path is a source itself or is
refused, be there a file or not. The order in which entries are listed does not matter. -/
theorem sourcesAt_complete {t : FileTree} (hproper : t.Proper) (target : String) :
    (∀ place, t.IsDirectoryAt target place →
        (∃ found, t.Finds target place found ∧ (∀ path ∈ found, isSource path = true) ∧
          ((sourcesAt target).run t).1 = FileTree.foundIn target found) ∧
        (((sourcesAt target).run t).1 = .error (.withoutSources target) ↔
          ∀ name, ¬t.HoldsSource place name)) ∧
      ((∀ place, ¬t.IsDirectoryAt target place) →
        ((sourcesAt target).run t).1 =
          if isSource target then .ok [target] else .error (.notSource target)) ∧
      ∀ u : FileTree, u.entries.Perm t.entries → u.workDirectory = t.workDirectory →
        ((sourcesAt target).run u).1 = ((sourcesAt target).run t).1 := by
  refine ⟨fun place h => ?_, FileTree.sourcesAt_other, fun u hperm hwork => ?_⟩
  · obtain ⟨found, hfound, hrun⟩ := hproper.sourcesAt_directory h
    refine ⟨⟨found, hfound, fun path => hfound.isSource_of_mem hproper, hrun⟩, ?_⟩
    rw [hrun, FileTree.foundIn, ← hfound.eq_nil_iff]
    split_ifs with hnil <;> simp [hnil]
  · exact hproper.sourcesAt_congr (hproper.of_perm hperm) hwork (hproper.node?_of_perm hperm) target

/-- A directory with sources among other files, with a directory that is called like a source, and a
source below it. -/
def mixedTree : FileTree where
  entries :=
    [(["w"], .directory), (["w", "src"], .directory), (["w", "src", "..jack"], .file .empty),
     (["w", "src", ".jack"], .file .empty), (["w", "src", "B.jack"], .file .empty),
     (["w", "src", "B.vm"], .file .empty), (["w", "src", "b.c.jack"], .file .empty),
     (["w", "src", "x.jack"], .directory), (["w", "src", "x.jack", "y.jack"], .file .empty)]
  workDirectory := ["w"]

theorem sourcesAt_complete_mixed :
    mixedTree.Proper ∧ mixedTree.IsDirectoryAt "src/" ["w", "src"] ∧
      ((sourcesAt "src/").run ⟨mixedTree.entries.reverse, ["w"]⟩).1 =
        .ok ["src/..jack", "src/B.jack", "src/b.c.jack"] ∧
      (∀ place, ¬mixedTree.IsDirectoryAt "src/z.jack" place) ∧
      ((sourcesAt "src/z.jack").run mixedTree).1 = .ok ["src/z.jack"] := by
  have hproper : mixedTree.Proper := ⟨by decide, by decide⟩
  have hdirectory : mixedTree.IsDirectoryAt "src/" ["w", "src"] :=
    .inr ⟨["w"], "src", true, by rfl, by rfl, rfl⟩
  have hother (place : Place) : ¬mixedTree.IsDirectoryAt "src/z.jack" place := fun h => by
    have hfalse : mixedTree.isDirectory "src/z.jack" = false := by decide
    rw [FileTree.isDirectory_iff.mpr ⟨place, h⟩] at hfalse
    cases hfalse
  have hlist : mixedTree.list "src/" =
      .ok ["..jack", ".jack", "B.jack", "B.vm", "b.c.jack", "x.jack"] := by rfl
  have hnames : sourceNames ["..jack", ".jack", "B.jack", "B.vm", "b.c.jack", "x.jack"] =
      ["..jack", "B.jack", "b.c.jack", "x.jack"] := List.mergeSort_of_pairwise (by decide)
  have hsources : ((sourcesAt "src/").run mixedTree).1 =
      .ok ["src/..jack", "src/B.jack", "src/b.c.jack"] := by
    rw [sourcesAt_run (FileTree.isDirectory_iff.mpr ⟨_, hdirectory⟩) hlist, hnames]
    decide
  have hreverse := (sourcesAt_complete hproper "src/").2.2 ⟨mixedTree.entries.reverse, ["w"]⟩
    (List.reverse_perm _) rfl
  have hsource := (sourcesAt_complete hproper "src/z.jack").2.1 hother
  exact ⟨hproper, hdirectory, hreverse.trans hsources, hother, hsource⟩

end JackVM
