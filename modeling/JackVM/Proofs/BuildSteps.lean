import JackVM.SourceFiles
import JackVM.Proofs.TreeChanges

namespace JackVM

/-- The text of a file, or why there is none. -/
def FileTree.textAt (t : FileTree) (path : String) : Except FileError String :=
  match t.read path with
  | .error fault => .error (.file path fault)
  | .ok content =>
    match String.fromUTF8? content with
    | none => .error (.file path .invalidText)
    | some text => .ok text

/-- The code for the text of a file, or why there is none. -/
def FileTree.codeAt (t : FileTree) (path : String) : Except FileError String :=
  match t.textAt path with
  | .error e => .error e
  | .ok source => (compileText source).mapError .compile

section

open FileTask

variable {t u : FileTree} {path output text : String}

theorem readText_eq (path : String) :
    readText path = ask (.read path) fun answer =>
      match answer with
      | .error fault => done (.error (.file path fault))
      | .ok content =>
        match String.fromUTF8? content with
        | some text => done (.ok text)
        | none => done (.error (.file path .invalidText)) := rfl

theorem readText_leaves (t : FileTree) (path : String) :
    (readText path).Leaves t (t.textAt path) := by
  rw [readText_eq, FileTree.textAt]
  refine leaves_ask (fun _ h => h) rfl ?_
  simp only [FileTree.answer]
  cases t.read path with
  | error fault => exact leaves_done _ t
  | ok content =>
    cases htext : String.fromUTF8? content <;> simpa only [htext] using leaves_done _ t

theorem codeOfFile_leaves (t : FileTree) (path : String) :
    (codeOfFile path).Leaves t (t.codeAt path) := by
  refine (readText_leaves t path).bind ?_
  rw [FileTree.codeAt]
  cases t.textAt path with
  | error e => exact leaves_done _ t
  | ok source =>
    cases hcode : compileText source <;>
      simpa only [hcode, Except.mapError, pure_eq] using leaves_done _ t

theorem dropOutput_run (t : FileTree) (output : String) :
    ((dropOutput output).run t).2 = (t.changed (t.remove output)).2 := by
  rw [dropOutput, bind_eq, run_bind, request, run_ask, FileTree.answer]
  cases hremove : t.remove output with
  | ok after => rfl
  | error fault => cases fault <;> rfl

theorem dropOutput_meets (h : (dropOutput output).Meets t u) :
    u = t ∨ t.remove output = .ok u := by
  have hend : u = t ∨ u = (t.changed (t.remove output)).2 := by
    rw [dropOutput, bind_eq] at h
    obtain h | h := meets_bind h
    · cases h with
      | amid h => exact .inl h
      | after h => exact .inr h.eq_of_done
    · right
      rw [request, run_ask, FileTree.answer] at h
      cases hremove : t.remove output with
      | ok after =>
        rw [hremove] at h
        exact Meets.eq_of_done h
      | error fault =>
        rw [hremove] at h
        cases fault <;> exact Meets.eq_of_done h
  obtain rfl | rfl := hend
  · exact .inl rfl
  · cases hremove : t.remove output with
    | ok after => exact .inr rfl
    | error fault => exact .inl rfl

theorem replaceOutput_eq (output text : String) :
    replaceOutput output text =
      ask (.write (temporaryPath output) text.toUTF8) fun answer =>
        match answer with
        | .error fault =>
          ask (.remove (temporaryPath output)) fun _ => done (.error (.file output fault))
        | .ok _ =>
          ask (.rename (temporaryPath output) output) fun answer =>
            match answer with
            | .error fault => done (.error (.file output fault))
            | .ok _ => done (.ok ()) := by
  unfold replaceOutput
  apply congrArg (ask _)
  funext answer
  cases answer with
  | error fault => rfl
  | ok _ =>
    apply congrArg (ask _)
    funext answer
    cases answer <;> rfl

theorem replaceOutput_leaves {fault : FileFault}
    (h : t.write (temporaryPath output) text.toUTF8 = .error fault) :
    (replaceOutput output text).Leaves t (.error (.file output fault)) := by
  rw [replaceOutput_eq]
  refine leaves_ask ?_ ?_ ?_
  · rintro u (hu | ⟨n, hu⟩)
    · exact hu
    · exact absurd hu (FileTree.write_ne_ok h _ u)
  · rw [FileTree.answer, h, FileTree.changed_error]
  · simp only [FileTree.answer, h, FileTree.changed_error]
    refine leaves_ask (fun _ hu => hu) ?_ (leaves_done _ t)
    cases hremove : t.remove (temporaryPath output) with
    | error fault => rw [FileTree.answer, hremove, FileTree.changed_error]
    | ok u => exact absurd hremove (FileTree.remove_ne_ok h u)

variable {written : FileTree}

theorem replaceOutput_run_error {fault : FileFault}
    (hwrite : t.write (temporaryPath output) text.toUTF8 = .ok written)
    (hrename : written.rename (temporaryPath output) output = .error fault) :
    (replaceOutput output text).run t = (.error (.file output fault), written) := by
  rw [replaceOutput_eq, run_ask]
  simp only [FileTree.answer, hwrite, FileTree.changed_ok, run_ask, hrename,
    FileTree.changed_error, FileTask.run]

theorem replaceOutput_run_ok
    (hwrite : t.write (temporaryPath output) text.toUTF8 = .ok written)
    (hrename : written.rename (temporaryPath output) output = .ok u) :
    (replaceOutput output text).run t = (.ok (), u) := by
  rw [replaceOutput_eq, run_ask]
  simp only [FileTree.answer, hwrite, FileTree.changed_ok, run_ask, hrename,
    FileTask.run]

theorem replaceOutput_meets
    (hwrite : t.write (temporaryPath output) text.toUTF8 = .ok written)
    (h : (replaceOutput output text).Meets t u) :
    u = t ∨ (∃ n, t.write (temporaryPath output) (text.toUTF8.extract 0 n) = .ok u) ∨
      u = written ∨ written.rename (temporaryPath output) output = .ok u := by
  rw [replaceOutput_eq] at h
  cases h with
  | amid h => exact h.imp id .inl
  | after h =>
    simp only [FileTree.answer, hwrite, FileTree.changed_ok] at h
    cases h with
    | amid h => exact .inr (.inr (.inl h))
    | after h =>
      cases hrename : written.rename (temporaryPath output) output with
      | error fault =>
        simp only [FileTree.answer, hrename, FileTree.changed_error] at h
        cases h
        exact .inr (.inr (.inl rfl))
      | ok after =>
        simp only [FileTree.answer, hrename, FileTree.changed_ok] at h
        cases h
        exact .inr (.inr (.inr rfl))

theorem buildFile_of_source (h : isSource path = true) :
    buildFile path =
      (codeOfFile path).bind fun compiled =>
        match compiled with
        | .error e => (dropOutput (outputPath path)).bind fun _ => done (.error e)
        | .ok code =>
          (replaceOutput (outputPath path) code).bind fun replaced =>
            match replaced with
            | .error e => done (.error e)
            | .ok _ => done (.ok (outputPath path)) := by
  rw [buildFile, if_pos h]
  rfl

theorem buildFile_run_of_error {e : FileError} (hs : isSource path = true)
    (h : t.codeAt path = .error e) :
    (buildFile path).run t = (.error e, (t.changed (t.remove (outputPath path))).2) := by
  rw [buildFile_of_source hs, run_bind, (codeOfFile_leaves t path).run_eq, h]
  simp only [run_bind, dropOutput_run, FileTask.run]

theorem buildFile_meets_of_error {e : FileError} (hs : isSource path = true)
    (h : t.codeAt path = .error e) (hu : (buildFile path).Meets t u) :
    u = t ∨ t.remove (outputPath path) = .ok u := by
  rw [buildFile_of_source hs] at hu
  obtain hu | hu := meets_bind hu
  · exact .inl ((codeOfFile_leaves t path).meets_eq u hu)
  · rw [(codeOfFile_leaves t path).run_eq, h] at hu
    obtain hu | hu := meets_bind hu
    · exact dropOutput_meets hu
    · cases hu
      rw [dropOutput_run]
      cases hremove : t.remove (outputPath path) with
      | error fault => exact .inl rfl
      | ok after => exact .inr rfl

theorem buildFile_run_of_code {code : String} (hs : isSource path = true)
    (h : t.codeAt path = .ok code) :
    (buildFile path).run t =
      (((replaceOutput (outputPath path) code).run t).1.map fun _ => outputPath path,
        ((replaceOutput (outputPath path) code).run t).2) := by
  rw [buildFile_of_source hs, run_bind, (codeOfFile_leaves t path).run_eq, h]
  simp only [run_bind]
  cases ((replaceOutput (outputPath path) code).run t).1 <;> rfl

theorem buildFile_meets_of_code {code : String} (hs : isSource path = true)
    (h : t.codeAt path = .ok code) (hu : (buildFile path).Meets t u) :
    u = t ∨ (replaceOutput (outputPath path) code).Meets t u := by
  rw [buildFile_of_source hs] at hu
  obtain hu | hu := meets_bind hu
  · exact .inl ((codeOfFile_leaves t path).meets_eq u hu)
  · rw [(codeOfFile_leaves t path).run_eq, h] at hu
    obtain hu | hu := meets_bind hu
    · exact .inr hu
    · have hend := meets_run (replaceOutput (outputPath path) code) t
      generalize (replaceOutput (outputPath path) code).run t = ending at hu hend
      obtain ⟨_ | _, after⟩ := ending
      · rw [Meets.eq_of_done hu]
        exact .inr hend
      · rw [Meets.eq_of_done hu]
        exact .inr hend

end

end JackVM
