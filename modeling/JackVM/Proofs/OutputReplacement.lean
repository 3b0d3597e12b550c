import JackVM.Proofs.BuildSteps

namespace JackVM

/-- How a build goes whose output is put together in a temporary file: all or nothing. -/
structure FileTree.AllOrNothing (t : FileTree) (path output temporary : String) : Prop where
  /-- A file that does not compile has no output afterwards, and all else is as before. -/
  failed : ∀ e, t.codeAt path = .error e →
    ((buildFile path).run t).1 = .error e ∧
      ((buildFile path).run t).2.isFile output = false ∧
      t.SameBut ((buildFile path).run t).2 [output]
  /-- After a success, the output is there as a whole, the temporary file is gone, and all else is
  as before. -/
  succeeded : ∀ given, ((buildFile path).run t).1 = .ok given →
    given = output ∧
      (∃ code, t.codeAt path = .ok code ∧
        ((buildFile path).run t).2.read output = .ok code.toUTF8) ∧
      ((buildFile path).run t).2.stat temporary = .error .notFound ∧
      t.SameBut ((buildFile path).run t).2 [output, temporary]
  /-- A file that compiles is a success, unless a directory is in the way. -/
  succeeds : ∀ code, t.codeAt path = .ok code → t.isDirectory output = false →
    t.isDirectory temporary = false → ((buildFile path).run t).1 = .ok output
  /-- On the way the output is never there but as it was before or as a whole. -/
  always : ∀ u, (buildFile path).Meets t u → ∀ content, u.read output = .ok content →
    t.read output = .ok content ∨ ∃ code, t.codeAt path = .ok code ∧ content = code.toUTF8

section

open FileTree FileTask

variable {t u : FileTree} {path output temporary : String}

theorem allOrNothing_of_error {e : FileError} (hs : isSource path = true)
    (houtput : outputPath path = output) (h : t.codeAt path = .error e) :
    t.AllOrNothing path output temporary where
  failed e' he' := by
    cases h.symm.trans he'
    rw [buildFile_run_of_error hs h, houtput]
    exact ⟨rfl, isFile_after_remove t output, sameBut_after_remove t output⟩
  succeeded given hgiven := by
    rw [buildFile_run_of_error hs h] at hgiven
    cases hgiven
  succeeds code hcode := by
    cases h.symm.trans hcode
  always u hu content hread := by
    obtain rfl | hremove := buildFile_meets_of_error hs h hu
    · exact .inl hread
    · rw [houtput] at hremove
      exact absurd hread (read_ne_ok_of_remove hremove content)

variable {p q : Place} {text : String}

/-- The tree in which a new file has taken the place of an output. -/
def FileTree.replaced (t : FileTree) (p q : Place) (node : FileNode) : FileTree :=
  ((t.set q node).erase q).set p node

theorem node?_replaced (hp : p ≠ []) (hq : q ≠ []) (node : FileNode) (r : Place) :
    (t.replaced p q node).node? r =
      if r = p then some node else if r = q then none else t.node? r := by
  rw [replaced, node?_set _ _ _ _ hp, node?_erase, node?_set _ _ _ _ hq]
  grind

theorem replaceOutput_succeeds (htemporary : temporaryPath output = temporary)
    (hp : t.LeadsTo output p) (hq : t.LeadsTo temporary q) (hpd : t.node? p ≠ some .directory)
    (hqd : t.node? q ≠ some .directory) (text : String) :
    (replaceOutput output text).run t = (.ok (), t.replaced p q (.file text.toUTF8)) := by
  have hsame : t.SameDirectories (t.set q (.file text.toUTF8)) := set_sameDirectories hq.ne_nil hqd
  have hnode : (t.set q (.file text.toUTF8)).node? q = some (.file text.toUTF8) := by
    rw [node?_set _ _ _ _ hq.ne_nil, if_pos rfl]
  apply replaceOutput_run_ok
  · rw [htemporary]
    exact hq.write_eq hqd _
  · rw [htemporary]
    exact rename_eq_ok_iff.mpr ⟨q, p, text.toUTF8, hsame.leadsTo_iff.mpr hq,
      hsame.leadsTo_iff.mpr hp, hnode, mt (hsame.directory_iff p).mp hpd, rfl⟩

theorem replaceOutput_ok (htemporary : temporaryPath output = temporary)
    (hp : t.LeadsTo output p) (hq : t.LeadsTo temporary q)
    (h : ((replaceOutput output text).run t).1 = .ok ()) :
    t.node? p ≠ some .directory ∧ t.node? q ≠ some .directory := by
  cases hwrite : t.write (temporaryPath output) text.toUTF8 with
  | error fault =>
    rw [(replaceOutput_leaves hwrite).run_eq] at h
    cases h
  | ok written =>
    have hsame := write_sameDirectories hwrite
    cases hrename : written.rename (temporaryPath output) output with
    | error fault =>
      rw [replaceOutput_run_error hwrite hrename] at h
      cases h
    | ok after =>
      rw [htemporary] at hwrite hrename
      obtain ⟨q', hq', hqd, -⟩ := write_eq_ok_iff.mp hwrite
      obtain ⟨_, p', _, -, hp', -, hpd, -⟩ := rename_eq_ok_iff.mp hrename
      rw [hsame.leadsTo_iff] at hp'
      rw [hp.unique hp', hq.unique hq']
      exact ⟨mt (hsame.directory_iff p').mpr hpd, hqd⟩

theorem sameBut_replaced (hp : t.LeadsTo output p) (hq : t.LeadsTo temporary q)
    (node : FileNode) : t.SameBut (t.replaced p q node) [output, temporary] := by
  refine ⟨rfl, fun r hr => ?_⟩
  have hrp : r ≠ p := by
    rintro rfl
    exact hr output (by simp) hp
  have hrq : r ≠ q := by
    rintro rfl
    exact hr temporary (by simp) hq
  rw [node?_replaced hp.ne_nil hq.ne_nil, if_neg hrp, if_neg hrq]

/-- Writing the temporary file, in part or as a whole, leaves the output alone. -/
theorem read_of_write {part content : ByteArray} (hp : t.LeadsTo output p)
    (hq : t.LeadsTo temporary q) (hne : p ≠ q) (hwrite : t.write temporary part = .ok u)
    (hread : u.read output = .ok content) : t.read output = .ok content := by
  have hsame := write_sameDirectories hwrite
  obtain ⟨q', hq', -, rfl⟩ := write_eq_ok_iff.mp hwrite
  refine (hsame.read_eq_ok_iff fun p' hp' => ?_).mp hread
  rw [node?_set _ _ _ _ hq'.ne_nil, hp'.unique hp, hq'.unique hq, if_neg hne]

theorem read_of_meets {content : ByteArray} (htemporary : temporaryPath output = temporary)
    (hp : t.LeadsTo output p) (hq : t.LeadsTo temporary q) (hne : p ≠ q)
    (hu : (replaceOutput output text).Meets t u) (hread : u.read output = .ok content) :
    t.read output = .ok content ∨ content = text.toUTF8 := by
  cases hwrite : t.write (temporaryPath output) text.toUTF8 with
  | error fault =>
    rw [(replaceOutput_leaves hwrite).meets_eq u hu] at hread
    exact .inl hread
  | ok written =>
    obtain rfl | ⟨n, hpart⟩ | rfl | hrename := replaceOutput_meets hwrite hu
    · exact .inl hread
    · exact .inl (read_of_write hp hq hne (htemporary ▸ hpart) hread)
    · exact .inl (read_of_write hp hq hne (htemporary ▸ hwrite) hread)
    -- the rename is the only step that touches the output, and the task ends with it
    · have hend := replaceOutput_run_ok hwrite hrename
      obtain ⟨hpd, hqd⟩ := replaceOutput_ok htemporary hp hq (congrArg Prod.fst hend)
      rw [replaceOutput_succeeds htemporary hp hq hpd hqd] at hend
      obtain ⟨r, hr, hnode⟩ := read_eq_ok_iff.mp hread
      rw [hu.sameDirectories.leadsTo_iff] at hr
      rw [← (Prod.mk.inj hend).2, node?_replaced hp.ne_nil hq.ne_nil, if_pos (hr.unique hp)]
        at hnode
      cases hnode
      exact .inr rfl

theorem allOrNothing_of_code {code : String} (hs : isSource path = true)
    (houtput : outputPath path = output) (htemporary : temporaryPath output = temporary)
    (h : t.codeAt path = .ok code) (hp : t.LeadsTo output p) (hq : t.LeadsTo temporary q)
    (hne : p ≠ q) : t.AllOrNothing path output temporary := by
  have hrun := buildFile_run_of_code hs h
  rw [houtput] at hrun
  constructor
  case failed =>
    intro e he
    cases h.symm.trans he
  case succeeded =>
    intro given hgiven
    have hok : ((replaceOutput output code).run t).1 = .ok () := by
      rw [hrun] at hgiven
      cases hresult : ((replaceOutput output code).run t).1 with
      | error e => simp [hresult, Except.map] at hgiven
      | ok _ => rfl
    obtain ⟨hpd, hqd⟩ := replaceOutput_ok htemporary hp hq hok
    have hsame := (FileTask.meets_run (buildFile path) t).sameDirectories
    rw [replaceOutput_succeeds htemporary hp hq hpd hqd] at hrun
    rw [hrun] at hgiven hsame ⊢
    cases hgiven
    refine ⟨rfl, ⟨code, h, ?_⟩, ?_, sameBut_replaced hp hq _⟩
    · refine read_eq_ok_iff.mpr ⟨p, hsame.leadsTo_iff.mpr hp, ?_⟩
      rw [node?_replaced hp.ne_nil hq.ne_nil, if_pos rfl]
    · refine (hsame.leadsTo_iff.mpr hq).stat_eq ?_
      rw [node?_replaced hp.ne_nil hq.ne_nil, if_neg hne.symm, if_pos rfl]
  case succeeds =>
    intro _ _ hpd hqd
    have hpd' : t.node? p ≠ some .directory := fun hnode => by
      simp [hp.isDirectory hnode] at hpd
    have hqd' : t.node? q ≠ some .directory := fun hnode => by
      simp [hq.isDirectory hnode] at hqd
    rw [hrun, replaceOutput_succeeds htemporary hp hq hpd' hqd']
    rfl
  case always =>
    intro u hu content hread
    obtain rfl | hu := buildFile_meets_of_code hs h hu
    · exact .inl hread
    · rw [houtput] at hu
      exact (read_of_meets htemporary hp hq hne hu hread).imp id fun heq => ⟨code, h, heq⟩

/-- A file can be read only if nothing stands behind its name, and if its directory is there. -/
theorem directoryAt_of_read {front stem ext tail : String} {content : ByteArray}
    (h : PathSplit path.toList front.toList stem.toList ext.toList tail.toList)
    (hread : t.read path = .ok content) :
    tail = "" ∧ ∃ parent, t.directoryAt front = .ok parent := by
  obtain ⟨p, hp, -⟩ := read_eq_ok_iff.mp hread
  -- by what stands behind the name last: a slash asks for a directory, and a dot is one
  have hpath := h.path_eq
  have htrailing := h.trailing
  generalize htail : tail.toList = cs at hpath htrailing
  cases htrailing with
  | nil =>
    have hname : path = front ++ .ofList (stem.toList ++ '.' :: ext.toList) := by
      apply String.toList_inj.mp
      simpa using hpath
    have hslash : '/' ∉ (String.ofList (stem.toList ++ '.' :: ext.toList)).toList := by
      simp [h.slash_notMem_stem, h.slash_notMem_extension]
    have hne : String.ofList (stem.toList ++ '.' :: ext.toList) ≠ "" := by
      intro hempty
      have hchars := congrArg String.toList hempty
      simp at hchars
    rw [hname, leadsTo_append_iff h.isFront hne hslash] at hp
    obtain ⟨-, -, parent, hparent, -⟩ := hp
    exact ⟨String.toList_eq_nil_iff.mp htail, parent, hparent⟩
  | @slash cs =>
    have hlast : path.toList.getLast? = some '/' := by
      rw [hpath, ← List.append_assoc, List.getLast?_concat]
    exact absurd hlast hp.getLast?_ne
  | @dot cs =>
    have hname : path =
        .ofList (front.toList ++ (stem.toList ++ '.' :: ext.toList) ++ cs ++ ['/']) ++ "." := by
      apply String.toList_inj.mp
      simp [hpath]
    have hfront : IsFront (String.ofList
        (front.toList ++ (stem.toList ++ '.' :: ext.toList) ++ cs ++ ['/'])).toList :=
      .inr ⟨_, String.toList_ofList⟩
    rw [hname, leadsTo_append_iff hfront (by decide) (by decide)] at hp
    exact absurd rfl hp.1

theorem exists_read_of_codeAt {code : String} (h : t.codeAt path = .ok code) :
    ∃ content, t.read path = .ok content := by
  cases hread : t.read path with
  | ok content => exact ⟨content, rfl⟩
  | error fault =>
    rw [codeAt, textAt, hread] at h
    cases h

/-- The output and the temporary file of a file that was read are two entries of one directory. -/
theorem allOrNothing_of_split {front stem tail : String} (hs : isSource path = true)
    (h : PathSplit path.toList front.toList stem.toList sourceExtension.toList tail.toList)
    (hdots : ¬ (stem = "." ∧ tail = "")) :
    t.AllOrNothing path (front ++ stem ++ ".vm") (front ++ stem ++ ".vm.tmp") := by
  have houtput := outputPath_eq h fun hstem htail => hdots ⟨hstem, htail⟩
  cases hcode : t.codeAt path with
  | error e => exact allOrNothing_of_error hs houtput hcode
  | ok code =>
    obtain ⟨content, hread⟩ := exists_read_of_codeAt hcode
    obtain ⟨rfl, parent, hparent⟩ := directoryAt_of_read h hread
    have htemporary := temporaryPath_eq h fun hstem => hdots ⟨hstem, rfl⟩
    have hleads {extension : String} (hlong : 3 ≤ extension.length)
        (hslash : '/' ∉ extension.toList) :
        t.LeadsTo (front ++ stem ++ extension) (parent ++ [stem ++ extension]) :=
      (leadsTo_stem_iff h.isFront hparent h.slash_notMem_stem hlong hslash).mpr rfl
    refine allOrNothing_of_code hs houtput htemporary hcode (hleads (by decide) (by decide))
      (hleads (by decide) (by decide)) ?_
    simp

/-- A build is in vain where neither the output nor the temporary file can be one. -/
theorem buildFile_leaves (hs : isSource path = true)
    (houtput : ∀ p, ¬ t.LeadsTo (outputPath path) p)
    (htemporary : ∀ p, ¬ t.LeadsTo (temporaryPath (outputPath path)) p) :
    ∃ e, (buildFile path).Leaves t (.error e) ∧ ∀ e', t.codeAt path = .error e' → e = e' := by
  cases hcode : t.codeAt path with
  | error e =>
    refine ⟨e, ?_, fun e' he' => Except.error.inj he'⟩
    have hremove (u : FileTree) : t.remove (outputPath path) ≠ .ok u := by
      intro hremove
      obtain ⟨p, hp, -⟩ := remove_eq_ok_iff.mp hremove
      exact houtput p hp
    refine ⟨?_, fun u hu => ?_⟩
    · rw [buildFile_run_of_error hs hcode]
      cases hfault : t.remove (outputPath path) with
      | error fault => rfl
      | ok u => exact absurd hfault (hremove u)
    · exact (buildFile_meets_of_error hs hcode hu).resolve_right (hremove u)
  | ok code =>
    cases hwrite : t.write (temporaryPath (outputPath path)) code.toUTF8 with
    | ok u =>
      obtain ⟨p, hp, -⟩ := write_eq_ok_iff.mp hwrite
      exact absurd hp (htemporary p)
    | error fault =>
      have hleaves := replaceOutput_leaves hwrite
      refine ⟨.file (outputPath path) fault, ⟨?_, fun u hu => ?_⟩, fun e' he' => by cases he'⟩
      · rw [buildFile_run_of_code hs hcode, hleaves.run_eq]
        rfl
      · exact (buildFile_meets_of_code hs hcode hu).elim id (hleaves.meets_eq u)

end

/-- A build reports a path that is no source and changes nothing. From a source it makes the output
beside it through a temporary file, or removes it, and nothing but the whole of either is ever seen.
A source whose stem is a dot is the exception: what its output would be called names no file, so
that its build is in vain and an output of earlier stays. -/
theorem buildFile_replacesOrRemoves (t : FileTree) (path : String) :
    (isSource path = false → (buildFile path).Leaves t (.error (.notSource path))) ∧
      (isSource path = true ↔ ∃ front stem tail : String,
        PathSplit path.toList front.toList stem.toList sourceExtension.toList tail.toList) ∧
      ∀ front stem tail : String,
        PathSplit path.toList front.toList stem.toList sourceExtension.toList tail.toList →
          (¬ (stem = "." ∧ tail = "") →
            t.AllOrNothing path (front ++ stem ++ ".vm") (front ++ stem ++ ".vm.tmp")) ∧
          (stem = "." ∧ tail = "" →
            outputPath path = front ++ ".." ∧ ∃ e, (buildFile path).Leaves t (.error e) ∧
              ∀ e', t.codeAt path = .error e' → e = e') := by
  refine ⟨fun hs => ?_, isSource_iff, fun front stem tail hsplit => ?_⟩
  · rw [buildFile, if_neg (by simp [hs])]
    exact FileTask.leaves_done _ t
  have hs : isSource path = true := isSource_iff.mpr ⟨front, stem, tail, hsplit⟩
  refine ⟨allOrNothing_of_split hs hsplit, ?_⟩
  rintro ⟨rfl, rfl⟩
  have houtput := outputPath_dots hsplit
  have hnowhere (p : Place) : ¬ t.LeadsTo (front ++ "..") p := by
    rw [FileTree.leadsTo_append_iff hsplit.isFront (by decide) (by decide)]
    exact fun hp => hp.2.1 rfl
  refine ⟨houtput, buildFile_leaves hs (houtput ▸ hnowhere) ?_⟩
  rwa [houtput, temporaryPath_dots hsplit.isFront]

end JackVM
