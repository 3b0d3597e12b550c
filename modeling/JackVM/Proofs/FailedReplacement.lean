import JackVM.Proofs.OutputReplacement

namespace JackVM

namespace FileTree

variable {t u : FileTree} {path output : String} {q : Place}

/-- A file can be written where a path leads to an entry of a directory that is not a directory
itself. -/
def CanWrite (t : FileTree) (path : String) : Prop :=
  ∃ p, t.LeadsTo path p ∧ t.node? p ≠ some .directory

theorem canWrite_of_write {content : ByteArray} (h : t.write path content = .ok u) :
    t.CanWrite path := by
  obtain ⟨p, hp, hnode, -⟩ := write_eq_ok_iff.mp h
  exact ⟨p, hp, hnode⟩

theorem SameDirectories.canWrite_iff (h : t.SameDirectories u) :
    u.CanWrite path ↔ t.CanWrite path := by
  simp only [CanWrite, h.leadsTo_iff, ne_eq, h.directory_iff]

/-- What is at a path is as before if the entry it leads to is, also where a slash behind it asks
for a directory. -/
theorem SameDirectories.stat_eq_ok (h : t.SameDirectories u)
    (hentry : ∀ parent name slash, t.locate path = .ok (.entry parent name slash) →
      u.node? (parent ++ [name]) = t.node? (parent ++ [name])) {node : FileNode}
    (hstat : t.stat path = .ok node) : u.stat path = .ok node := by
  match hlocate : t.locate path with
  | .error fault => simp [stat, hlocate, bind, Except.bind] at hstat
  | .ok (.directory place) =>
    have hlocate' := h.locate_eq_ok hlocate
    simp only [stat, hlocate, bind, Except.bind] at hstat
    simpa only [stat, hlocate', bind, Except.bind] using hstat
  | .ok (.entry parent name slash) =>
    have hlocate' := h.locate_eq_ok hlocate
    have hnode := hentry parent name slash hlocate
    simp only [stat, hlocate, bind, Except.bind] at hstat
    simpa only [stat, hlocate', bind, Except.bind, hnode] using hstat

theorem SameDirectories.stat_eq_ok_iff (h : t.SameDirectories u)
    (hentry : ∀ parent name slash, t.locate path = .ok (.entry parent name slash) →
      u.node? (parent ++ [name]) = t.node? (parent ++ [name])) {node : FileNode} :
    u.stat path = .ok node ↔ t.stat path = .ok node := by
  refine ⟨fun hstat => h.symm.stat_eq_ok ?_ hstat, h.stat_eq_ok hentry⟩
  intro parent name slash hlocate
  exact (hentry parent name slash (h.symm.locate_eq_ok hlocate)).symm

/-- The entry for an output is not the one for its temporary file. The only outputs that share a
path with it are those whose path names no file. -/
theorem LeadsTo.ne_of_temporary (hq : t.LeadsTo (temporaryPath output) q)
    (hne : temporaryPath output ≠ output) {parent : Place} {name : String} {slash : Bool}
    (hlocate : t.locate output = .ok (.entry parent name slash)) : parent ++ [name] ≠ q := by
  have hcases := @withExtension_cases (codeExtension ++ ".tmp").toList (by decide) (by decide)
    output.toList
  obtain hsame | ⟨front, old, tail, new, hpath, hfront, htail, hold, hslash, hnew, hslash', hdiffer,
    hpath'⟩ := hcases
  · exact absurd (String.toList_inj.mp (by simpa [temporaryPath] using hsame)) hne
  obtain ⟨parent', name', hlocate', rfl⟩ := hq
  have hpath' : (temporaryPath output).toList = front ++ new ++ [] := by
    simpa [temporaryPath] using hpath'
  obtain ⟨hlast, hdot, -⟩ := getLast?_pathNames_of_entry hlocate
  obtain ⟨hlast', hdot', -⟩ := getLast?_pathNames_of_entry hlocate'
  have hname : name = .ofList old := by
    obtain h | h := getLast?_pathNames hpath hfront hold hslash htail
    · exact Option.some.inj (hlast.symm.trans h)
    · exact absurd (Option.some.inj (hlast.symm.trans h)) hdot
  have hname' : name' = .ofList new := by
    obtain h | h := getLast?_pathNames hpath' hfront hnew hslash' .nil
    · exact Option.some.inj (hlast'.symm.trans h)
    · exact absurd (Option.some.inj (hlast'.symm.trans h)) hdot'
  intro heq
  have hsame : name = name' := by
    have hends := congrArg List.getLast? heq
    simpa using hends
  rw [hname, hname', String.ofList_inj] at hsame
  exact hdiffer hsame.symm

end FileTree

open FileTree FileTask

variable {t : FileTree} {output : String}

/-- Where the temporary file can be written but not take the output's place, it stays. -/
theorem replaceOutput_strands (text : String) (htemporary : t.CanWrite (temporaryPath output))
    (houtput : ¬ t.CanWrite output) :
    ∃ fault after, (replaceOutput output text).run t = (.error (.file output fault), after) ∧
      after.read (temporaryPath output) = .ok text.toUTF8 ∧
      (∀ node, after.stat output = .ok node ↔ t.stat output = .ok node) ∧
      t.SameBut after [temporaryPath output] := by
  have hne : temporaryPath output ≠ output := by
    intro heq
    rw [heq] at htemporary
    exact houtput htemporary
  obtain ⟨q, hq, hnode⟩ := htemporary
  have hwrite := hq.write_eq hnode text.toUTF8
  have hsame := write_sameDirectories hwrite
  cases hrename : (t.set q (.file text.toUTF8)).rename (temporaryPath output) output with
  | ok after =>
    obtain ⟨_, p, _, -, hp, -, hpd, -⟩ := rename_eq_ok_iff.mp hrename
    exact absurd (hsame.canWrite_iff.mp ⟨p, hp, hpd⟩) houtput
  | error fault =>
    refine ⟨fault, _, replaceOutput_run_error hwrite hrename, ?_, fun node => ?_, rfl, ?_⟩
    · refine read_eq_ok_iff.mpr ⟨q, hsame.leadsTo_iff.mpr hq, ?_⟩
      rw [node?_set _ _ _ _ hq.ne_nil, if_pos rfl]
    · apply hsame.stat_eq_ok_iff
      intro parent name slash hlocate
      rw [node?_set _ _ _ _ hq.ne_nil, if_neg (hq.ne_of_temporary hne hlocate)]
    · intro p hp
      have hpq : p ≠ q := by
        rintro rfl
        exact hp _ (List.mem_singleton_self _) hq
      rw [node?_set _ _ _ _ hq.ne_nil, if_neg hpq]

/-- An output is replaced exactly if the temporary file and the output can both be written. Where
the temporary file cannot, nothing changes at any time. Where only the output cannot, it is as
before, and so is all else but the temporary file, which was written and stays. -/
theorem replaceOutput_failure (t : FileTree) (output text : String) :
    ((∃ e, ((replaceOutput output text).run t).1 = .error e) ↔
        ¬ (t.CanWrite (temporaryPath output) ∧ t.CanWrite output)) ∧
      (¬ t.CanWrite (temporaryPath output) →
        ∃ fault, (replaceOutput output text).Leaves t (.error (.file output fault))) ∧
      (t.CanWrite (temporaryPath output) → ¬ t.CanWrite output →
        ∃ fault after, (replaceOutput output text).run t = (.error (.file output fault), after) ∧
          after.read (temporaryPath output) = .ok text.toUTF8 ∧
          (∀ node, after.stat output = .ok node ↔ t.stat output = .ok node) ∧
          t.SameBut after [temporaryPath output]) := by
  have hunwritten (htemporary : ¬ t.CanWrite (temporaryPath output)) :
      ∃ fault, (replaceOutput output text).Leaves t (.error (.file output fault)) := by
    cases hwrite : t.write (temporaryPath output) text.toUTF8 with
    | ok u => exact absurd (canWrite_of_write hwrite) htemporary
    | error fault => exact ⟨fault, replaceOutput_leaves hwrite⟩
  refine ⟨⟨?_, ?_⟩, hunwritten, replaceOutput_strands text⟩
  · rintro ⟨e, he⟩ ⟨⟨q, hq, hqd⟩, p, hp, hpd⟩
    rw [replaceOutput_succeeds rfl hp hq hpd hqd] at he
    cases he
  · intro hneither
    by_cases htemporary : t.CanWrite (temporaryPath output)
    · have houtput : ¬ t.CanWrite output := fun houtput => hneither ⟨htemporary, houtput⟩
      obtain ⟨fault, after, hrun, -⟩ := replaceOutput_strands text htemporary houtput
      exact ⟨_, congrArg Prod.fst hrun⟩
    · obtain ⟨fault, hleaves⟩ := hunwritten htemporary
      exact ⟨_, congrArg Prod.fst hleaves.run_eq⟩

/-- A directory in the place of the output. -/
example :
    (((replaceOutput "X.vm" "return\n").run ⟨[(["X.vm"], .directory)], []⟩).2.isFile
      "X.vm.tmp") = true := by
  decide +kernel

end JackVM
