import JackVM.Proofs.OutputReplacement
import JackVM.Proofs.WorkerRuns

namespace JackVM

/-- No two entries are at one place, and names do not hold what parts names in paths. -/
structure FileTree.Proper (t : FileTree) : Prop where
  nodup : (t.entries.map Prod.fst).Nodup
  slash_notMem : ∀ e ∈ t.entries, ∀ name ∈ e.1, '/' ∉ name.toList

/-- The text in front of the names of a directory's entries. -/
def frontOf (directory : String) : String :=
  if directory.toList.getLast? = some '/' then directory else directory ++ "/"

section

open FileTree

variable {t : FileTree} {target : String} {sources : List String} {place : Place} {name : String}

theorem childPath_eq (directory name : String) :
    childPath directory name = frontOf directory ++ name := by
  rw [childPath, frontOf]
  split <;> rfl

theorem isFront_frontOf (directory : String) : IsFront (frontOf directory).toList := by
  rw [frontOf]
  split
  next hlast =>
    obtain ⟨cs, hcs⟩ := List.getLast?_eq_some_iff.mp hlast
    exact .inr ⟨cs, hcs⟩
  next => exact .inr ⟨directory.toList, by simp⟩

theorem FileTree.Proper.nodup_childNames (h : t.Proper) (place : Place) :
    (t.childNames place).Nodup := by
  have hplaces : t.childNames place = (t.entries.map Prod.fst).filterMap fun p =>
      if p.dropLast = place then p.getLast? else none := by
    rw [List.filterMap_map]
    rfl
  rw [hplaces]
  refine h.nodup.filterMap fun p q name hp hq => ?_
  have hplace {r : Place} (hr : name ∈ if r.dropLast = place then r.getLast? else none) :
      r = place ++ [name] := by
    split_ifs at hr with hdrop
    · rw [← hdrop]
      exact (List.dropLast_append_getLast? name hr).symm
    · cases hr
  rw [hplace hp, hplace hq]

theorem FileTree.Proper.slash_notMem_childName (h : t.Proper) (hname : name ∈ t.childNames place) :
    '/' ∉ name.toList := by
  obtain ⟨e, he, hlast⟩ := List.mem_filterMap.mp hname
  split_ifs at hlast
  exact h.slash_notMem e he name (List.mem_of_getLast? hlast)

theorem exists_place_of_list {names : List String} (h : t.list target = .ok names) :
    ∃ place, names = t.childNames place := by
  unfold list at h
  match hlocate : t.locate target with
  | .error fault => simp [hlocate, bind, Except.bind] at h
  | .ok (.directory place) =>
    simp only [hlocate, bind, Except.bind, pure, Except.pure, Except.ok.injEq] at h
    exact ⟨place, h.symm⟩
  | .ok (.entry parent name slash) =>
    simp only [hlocate, bind, Except.bind] at h
    match hnode : t.node? (parent ++ [name]) with
    | none | some (.file _) =>
      simp [hnode, throw, throwThe, MonadExceptOf.throw] at h
    | some .directory =>
      simp only [hnode, pure, Except.pure, Except.ok.injEq] at h
      exact ⟨_, h.symm⟩

open FileTask

theorem keepFiles_run (paths : List String) (t : FileTree) :
    (keepFiles paths).run t = (paths.filter t.isFile, t) := by
  induction paths with
  | nil => rfl
  | cons path paths ih =>
    rw [keepFiles, bind_eq, request, run_bind, run_ask]
    simp only [FileTree.answer, FileTask.run, bind_eq, run_bind, ih, pure_eq, List.filter_cons]

theorem sourcesAt_run {names : List String} (hdirectory : t.isDirectory target = true)
    (hlist : t.list target = .ok names) :
    ((sourcesAt target).run t).1 =
      match ((sourceNames names).map (childPath target)).filter t.isFile with
      | [] => .error (.withoutSources target)
      | found => .ok found := by
  rw [sourcesAt, bind_eq, request, run_bind, run_ask]
  simp only [FileTree.answer, FileTask.run, hdirectory, if_true, request, bind_eq, run_bind,
    hlist, keepFiles_run]
  cases ((sourceNames names).map (childPath target)).filter t.isFile <;> rfl

/-- The sources of a directory are files with names of its entries. -/
theorem sources_of_directory (hdirectory : t.isDirectory target = true)
    (hsources : ((sourcesAt target).run t).1 = .ok sources) :
    sources ≠ [] ∧ ∃ place, sources =
      ((sourceNames (t.childNames place)).map (childPath target)).filter t.isFile := by
  cases hlist : t.list target with
  | error fault =>
    rw [sourcesAt, bind_eq, request, run_bind, run_ask] at hsources
    simp only [FileTree.answer, FileTask.run, hdirectory, if_true, request, bind_eq, run_bind,
      hlist, pure_eq] at hsources
    cases hsources
  | ok names =>
    obtain ⟨place, rfl⟩ := exists_place_of_list hlist
    rw [sourcesAt_run hdirectory hlist] at hsources
    split at hsources
    next => cases hsources
    next found hfound =>
      cases hsources
      exact ⟨hfound, place, rfl⟩

theorem nodup_sources (hproper : t.Proper) (place : Place) :
    (((sourceNames (t.childNames place)).map (childPath target)).filter t.isFile).Nodup := by
  have hnames : (sourceNames (t.childNames place)).Nodup :=
    (List.mergeSort_perm _ _).nodup_iff.mpr ((hproper.nodup_childNames place).filter _)
  refine (hnames.map fun name other heq => ?_).filter _
  rw [childPath_eq, childPath_eq] at heq
  have hchars := congrArg String.toList heq
  rw [String.toList_append, String.toList_append, List.append_cancel_left_eq] at hchars
  exact String.toList_inj.mp hchars

/-- The name of a source, which has no slash in it, is split at its last dot. -/
theorem exists_stem (hsource : isSource name = true) (hslash : '/' ∉ name.toList)
    {front : String} (hfront : IsFront front.toList) :
    ∃ stem : String, name = stem ++ ".jack" ∧ PathSplit (front ++ name).toList front.toList
      stem.toList sourceExtension.toList "".toList := by
  obtain ⟨front', stem, tail, hsplit⟩ := isSource_iff.mp hsource
  have hpath := hsplit.path_eq
  rw [hpath] at hslash
  simp only [List.mem_append, not_or] at hslash
  obtain ⟨⟨hfront', -⟩, htail'⟩ := hslash
  have hnoFront : front'.toList = [] := by
    obtain h | ⟨cs, hcs⟩ := hsplit.isFront
    · exact h
    · simp [hcs] at hfront'
  have hnoTail : tail.toList = [] := by
    have htrailing := hsplit.trailing
    generalize tail.toList = cs at htrailing htail'
    cases htrailing with
    | nil => rfl
    | slash _ | dot _ => simp at htail'
  rw [hnoFront, hnoTail] at hpath
  have hname : name = stem ++ ".jack" := by
    apply String.toList_inj.mp
    simpa [sourceExtension] using hpath
  refine ⟨stem, hname, ?_, hfront, hsplit.stem_ne_nil, hsplit.slash_notMem_stem,
    hsplit.slash_notMem_extension, hsplit.dot_notMem_extension, .nil⟩
  simp [hname, sourceExtension]

/-- The places where a source in a directory is built all have its stem. -/
theorem workPaths_of_stem {front stem path : String} {parent : Place}
    (h : PathSplit (front ++ (stem ++ ".jack")).toList front.toList stem.toList
      sourceExtension.toList "".toList)
    (hparent : t.directoryAt front = .ok parent)
    (hpath : path ∈ workPaths (front ++ (stem ++ ".jack"))) :
    t.Locates path ∧ ∀ p, t.LeadsTo path p →
      ∃ extension ∈ [".jack", ".vm", ".vm.tmp"], p = parent ++ [stem ++ extension] := by
  have hleads (extension : String) (hmem : extension ∈ [".jack", ".vm", ".vm.tmp"])
      (heq : path = front ++ stem ++ extension) :
      t.Locates path ∧ ∀ p, t.LeadsTo path p →
        ∃ extension ∈ [".jack", ".vm", ".vm.tmp"], p = parent ++ [stem ++ extension] := by
    have hlong : 3 ≤ extension.length ∧ '/' ∉ extension.toList := by
      simp only [List.mem_cons, List.not_mem_nil, or_false] at hmem
      obtain rfl | rfl | rfl := hmem <;> decide
    have hiff (p : Place) := leadsTo_stem_iff (t := t) (p := p) h.isFront hparent
      h.slash_notMem_stem hlong.1 hlong.2
    rw [heq]
    exact ⟨.inl ⟨_, (hiff _).mpr rfl⟩, fun p hp => ⟨extension, hmem, (hiff p).mp hp⟩⟩
  by_cases hdots : stem = "."
  · subst hdots
    have houtput := outputPath_dots h
    have hother : path = front ++ ("." ++ ".jack") ∨ path = front ++ ".." := by
      rw [workPaths, houtput, temporaryPath_dots h.isFront] at hpath
      simpa using hpath
    obtain heq | heq := hother
    · exact hleads ".jack" (by simp) (by rw [heq, String.append_assoc])
    · have hlocate : t.locate path = .ok (.directory parent.dropLast) := by
        rw [heq, t.locate_append h.isFront (by decide) (by decide), hparent]
        rfl
      exact ⟨.inr ⟨_, hlocate⟩, fun p hp => absurd hp (not_leadsTo_of_directory hlocate)⟩
  · have houtput := outputPath_eq h fun hstem => absurd hstem hdots
    rw [workPaths, houtput, temporaryPath_eq h hdots] at hpath
    simp only [List.mem_cons, List.not_mem_nil, or_false] at hpath
    obtain heq | heq | heq := hpath
    · exact hleads ".jack" (by simp) (by rw [heq, String.append_assoc])
    · exact hleads ".vm" (by simp) heq
    · exact hleads ".vm.tmp" (by simp) heq

/-- Two stems are the same if what they are followed by ends in one of three different ways. -/
theorem stem_eq_of_append {stem stem' extension extension' : String}
    (hextension : extension ∈ [".jack", ".vm", ".vm.tmp"])
    (hextension' : extension' ∈ [".jack", ".vm", ".vm.tmp"])
    (heq : stem ++ extension = stem' ++ extension') : stem = stem' :=
  base_eq_of_append (by decide) hextension hextension' heq

/-- The sources found in a directory are built in different places. -/
theorem apart_of_directory (hproper : t.Proper) (hdirectory : t.isDirectory target = true)
    (hsources : ((sourcesAt target).run t).1 = .ok sources) : t.Apart sources := by
  obtain ⟨-, place, heq⟩ := sources_of_directory hdirectory hsources
  have hfront := isFront_frontOf target
  have hparts (source : String) (hsource : source ∈ sources) :
      ∃ (stem : String) (parent : Place), source = frontOf target ++ (stem ++ ".jack") ∧
        t.directoryAt (frontOf target) = .ok parent ∧
        PathSplit source.toList (frontOf target).toList stem.toList sourceExtension.toList
          "".toList := by
    rw [heq] at hsource
    obtain ⟨hmem, hfile⟩ := List.mem_filter.mp hsource
    obtain ⟨name, hname, rfl⟩ := List.mem_map.mp hmem
    obtain ⟨hchild, hjack⟩ := List.mem_filter.mp ((List.mergeSort_perm _ _).mem_iff.mp hname)
    have hslash := hproper.slash_notMem_childName hchild
    obtain ⟨stem, rfl, hsplit⟩ := exists_stem hjack hslash hfront
    rw [childPath_eq] at hfile ⊢
    obtain ⟨content, hread⟩ := isFile_iff.mp hfile
    obtain ⟨-, parent, hparent⟩ := directoryAt_of_read hsplit hread
    exact ⟨stem, parent, rfl, hparent, hsplit⟩
  refine ⟨fun source hsource path hpath => ?_, ?_⟩
  · obtain ⟨stem, parent, rfl, hparent, hsplit⟩ := hparts source hsource
    exact (workPaths_of_stem hsplit hparent hpath).1
  · have hnodup : sources.Nodup := heq ▸ nodup_sources hproper place
    refine hnodup.pairwise_of_forall_ne fun source hsource other hother hne => ?_
    obtain ⟨stem, parent, rfl, hparent, hsplit⟩ := hparts source hsource
    obtain ⟨stem', parent', rfl, hparent', hsplit'⟩ := hparts other hother
    cases hparent.symm.trans hparent'
    rintro p ⟨path, hpath, hp⟩ ⟨path', hpath', hp'⟩
    refine hne ?_
    obtain ⟨extension, hextension, rfl⟩ := (workPaths_of_stem hsplit hparent hpath).2 p hp
    obtain ⟨extension', hextension', heq'⟩ :=
      (workPaths_of_stem hsplit' hparent hpath').2 _ hp'
    have hends : stem ++ extension = stem' ++ extension' := by simpa using heq'
    rw [stem_eq_of_append hextension hextension' hends]

end

end JackVM
