import JackVM.FileTask
import JackVM.Proofs.PathPlaces

namespace JackVM

namespace FileTree

variable {t u : FileTree} {path : String} {p q : Place} {content : ByteArray}

section

attribute [local simp] bind Except.bind pure Except.pure throw throwThe MonadExceptOf.throw

theorem stat_eq_file_iff :
    t.stat path = .ok (.file content) ↔
      ∃ p, t.LeadsTo path p ∧ t.node? p = some (.file content) := by
  unfold stat
  match hlocate : t.locate path with
  | .error _ => simp [not_leadsTo_of_error hlocate]
  | .ok (.directory _) => simp [not_leadsTo_of_directory hlocate]
  | .ok (.entry parent name slash) =>
    match hnode : t.node? (parent ++ [name]) with
    | none | some .directory => simp [leadsTo_iff hlocate, hnode]
    | some (.file _) => cases slash <;> simp [leadsTo_iff hlocate, hnode]

theorem read_eq_ok_iff :
    t.read path = .ok content ↔ ∃ p, t.LeadsTo path p ∧ t.node? p = some (.file content) := by
  rw [← stat_eq_file_iff, read]
  match t.stat path with
  | .error _ | .ok .directory | .ok (.file _) => simp

theorem write_eq_ok_iff :
    t.write path content = .ok u ↔
      ∃ p, t.LeadsTo path p ∧ t.node? p ≠ some .directory ∧ u = t.set p (.file content) := by
  unfold write
  match hlocate : t.locate path with
  | .error _ => simp [not_leadsTo_of_error hlocate]
  | .ok (.directory _) => simp [not_leadsTo_of_directory hlocate]
  | .ok (.entry parent name true) => simp [leadsTo_iff hlocate]
  | .ok (.entry parent name false) =>
    match hnode : t.node? (parent ++ [name]) with
    | none | some .directory | some (.file _) => simp [leadsTo_iff hlocate, hnode, eq_comm]

theorem remove_eq_ok_iff :
    t.remove path = .ok u ↔
      ∃ p, t.LeadsTo path p ∧ (∃ content, t.node? p = some (.file content)) ∧ u = t.erase p := by
  unfold remove
  match hlocate : t.locate path with
  | .error _ => simp [not_leadsTo_of_error hlocate]
  | .ok (.directory _) => simp [not_leadsTo_of_directory hlocate]
  | .ok (.entry parent name slash) =>
    match hnode : t.node? (parent ++ [name]) with
    | none | some .directory => simp [leadsTo_iff hlocate, hnode]
    | some (.file _) => cases slash <;> simp [leadsTo_iff hlocate, hnode, eq_comm]

theorem rename_eq_ok_iff {source target : String} :
    t.rename source target = .ok u ↔
      ∃ p q content, t.LeadsTo source p ∧ t.LeadsTo target q ∧ t.node? p = some (.file content) ∧
        t.node? q ≠ some .directory ∧ u = (t.erase p).set q (.file content) := by
  unfold rename
  match hold : t.locate source, hnew : t.locate target with
  | .error _, _ => simp [not_leadsTo_of_error hold]
  | .ok (.directory _), .error _ | .ok (.directory _), .ok _ =>
    simp [not_leadsTo_of_directory hold]
  | .ok (.entry _ _ _), .error _ => simp [not_leadsTo_of_error hnew]
  | .ok (.entry _ _ _), .ok (.directory _) => simp [not_leadsTo_of_directory hnew]
  | .ok (.entry parent name slash), .ok (.entry parent' name' slash') =>
    match hnode : t.node? (parent ++ [name]) with
    | none | some .directory => simp [leadsTo_iff hold, hnode]
    | some (.file _) =>
      match hnode' : t.node? (parent' ++ [name']) with
      | none | some .directory | some (.file _) =>
        cases slash <;> cases slash' <;>
          simp [leadsTo_iff hold, leadsTo_iff hnew, hnode, hnode', eq_comm]

theorem LeadsTo.stat_eq (hp : t.LeadsTo path p) (hnode : t.node? p = none) :
    t.stat path = .error .notFound := by
  obtain ⟨parent, name, hlocate, rfl⟩ := hp
  simp [stat, hlocate, hnode]

theorem LeadsTo.isDirectory (hp : t.LeadsTo path p) (hnode : t.node? p = some .directory) :
    t.isDirectory path = true := by
  obtain ⟨parent, name, hlocate, rfl⟩ := hp
  simp [FileTree.isDirectory, stat, hlocate, hnode]

end

theorem isFile_iff : t.isFile path = true ↔ ∃ content, t.read path = .ok content := by
  simp only [read_eq_ok_iff, ← stat_eq_file_iff, isFile]
  split
  next content hstat => simp [hstat]
  next hother => simpa using hother

theorem LeadsTo.write_eq (hp : t.LeadsTo path p) (hnode : t.node? p ≠ some .directory)
    (content : ByteArray) : t.write path content = .ok (t.set p (.file content)) :=
  write_eq_ok_iff.mpr ⟨p, hp, hnode, rfl⟩

/-- Where one content cannot be written, no other can. -/
theorem write_ne_ok {fault : FileFault} (h : t.write path content = .error fault)
    (other : ByteArray) (u : FileTree) : t.write path other ≠ .ok u := by
  intro hok
  obtain ⟨p, hp, hnode, -⟩ := write_eq_ok_iff.mp hok
  rw [hp.write_eq hnode] at h
  cases h

/-- Where nothing can be written, nothing can be removed. -/
theorem remove_ne_ok {fault : FileFault} (h : t.write path content = .error fault)
    (u : FileTree) : t.remove path ≠ .ok u := by
  intro hok
  obtain ⟨p, hp, ⟨old, hnode⟩, -⟩ := remove_eq_ok_iff.mp hok
  rw [hp.write_eq (by simp [hnode])] at h
  cases h

theorem set_sameDirectories (hne : p ≠ []) (hp : t.node? p ≠ some .directory) :
    t.SameDirectories (t.set p (.file content)) where
  workDirectory := rfl
  directory_iff q := by
    rw [node?_set t p q _ hne]
    by_cases hq : q = p
    · simp [hq, hp]
    · simp [hq]

theorem erase_sameDirectories (hp : t.node? p ≠ some .directory) :
    t.SameDirectories (t.erase p) where
  workDirectory := rfl
  directory_iff q := by
    rw [node?_erase]
    by_cases hq : q = p
    · subst hq
      by_cases hne : q = []
      · simp [hne]
      · simp [hne, hp]
    · simp [hq]

theorem write_sameDirectories (h : t.write path content = .ok u) : t.SameDirectories u := by
  obtain ⟨p, hp, hnode, rfl⟩ := write_eq_ok_iff.mp h
  exact set_sameDirectories hp.ne_nil hnode

theorem remove_sameDirectories (h : t.remove path = .ok u) : t.SameDirectories u := by
  obtain ⟨p, -, ⟨content, hnode⟩, rfl⟩ := remove_eq_ok_iff.mp h
  exact erase_sameDirectories (by simp [hnode])

theorem rename_sameDirectories {source target : String} (h : t.rename source target = .ok u) :
    t.SameDirectories u := by
  obtain ⟨p, q, content, -, hq, hp, hnode, rfl⟩ := rename_eq_ok_iff.mp h
  have herase : t.SameDirectories (t.erase p) := erase_sameDirectories (by simp [hp])
  exact herase.trans (set_sameDirectories hq.ne_nil (mt (herase.directory_iff q).mp hnode))

@[simp]
theorem changed_ok (t u : FileTree) : t.changed (.ok u) = (.ok (), u) := rfl

@[simp]
theorem changed_error (t : FileTree) (fault : FileFault) :
    t.changed (.error fault) = (.error fault, t) := rfl

theorem changed_sameDirectories {after : Except FileFault FileTree}
    (h : ∀ u, after = .ok u → t.SameDirectories u) : t.SameDirectories (t.changed after).2 := by
  cases after with
  | error fault => exact .refl t
  | ok u => exact h u rfl

theorem answer_sameDirectories (t : FileTree) (q : FileRequest) :
    t.SameDirectories (t.answer q).2 := by
  cases q with
  | read | isDirectory | isFile | list => exact .refl t
  | write => exact changed_sameDirectories fun _ => write_sameDirectories
  | rename => exact changed_sameDirectories fun _ => rename_sameDirectories
  | remove => exact changed_sameDirectories fun _ => remove_sameDirectories

/-- A file reads as before if what the path leads to is as before. -/
theorem SameDirectories.read_eq_ok_iff (h : t.SameDirectories u)
    (hnode : ∀ p, t.LeadsTo path p → u.node? p = t.node? p) :
    u.read path = .ok content ↔ t.read path = .ok content := by
  rw [FileTree.read_eq_ok_iff, FileTree.read_eq_ok_iff]
  apply exists_congr
  intro p
  rw [h.leadsTo_iff, and_congr_right_iff]
  intro hp
  rw [hnode p hp]

/-- Whether another tree can be met while a tree answers a request: the tree itself, and where a
file is written, the tree with any first part of its content. -/
def Amid (t : FileTree) : FileRequest → FileTree → Prop
  | .write path content, u => u = t ∨ ∃ n, t.write path (content.extract 0 n) = .ok u
  | _, u => u = t

theorem Amid.sameDirectories {q : FileRequest} (h : t.Amid q u) : t.SameDirectories u := by
  cases q with
  | write path content =>
    obtain rfl | ⟨n, hwrite⟩ := h
    · exact .refl u
    · exact write_sameDirectories hwrite
  | read | rename | remove | isDirectory | isFile | list =>
    cases h
    exact .refl t

/-- A tree is like another but for what some paths lead to. -/
structure SameBut (t u : FileTree) (paths : List String) : Prop where
  workDirectory : u.workDirectory = t.workDirectory
  node?_eq : ∀ p, (∀ path ∈ paths, ¬ t.LeadsTo path p) → u.node? p = t.node? p

theorem SameBut.refl (t : FileTree) (paths : List String) : t.SameBut t paths :=
  ⟨rfl, fun _ _ => rfl⟩

theorem read_ne_ok_of_remove (h : t.remove path = .ok u) (content : ByteArray) :
    u.read path ≠ .ok content := by
  intro hread
  obtain ⟨p, hp, -, rfl⟩ := remove_eq_ok_iff.mp h
  obtain ⟨q, hq, hnode⟩ := read_eq_ok_iff.mp hread
  rw [(remove_sameDirectories h).leadsTo_iff] at hq
  rw [hp.unique hq, node?_erase, if_pos ⟨rfl, hq.ne_nil⟩] at hnode
  cases hnode

/-- A path that was to be removed leads to no file, also where removing failed. -/
theorem isFile_after_remove (t : FileTree) (path : String) :
    (t.changed (t.remove path)).2.isFile path = false := by
  rw [← Bool.not_eq_true, isFile_iff]
  rintro ⟨content, hread⟩
  cases hremove : t.remove path with
  | ok u =>
    rw [hremove] at hread
    exact read_ne_ok_of_remove hremove content hread
  | error fault =>
    rw [hremove, changed_error] at hread
    obtain ⟨p, hp, hnode⟩ := read_eq_ok_iff.mp hread
    cases hremove.symm.trans (remove_eq_ok_iff.mpr ⟨p, hp, ⟨content, hnode⟩, rfl⟩)

theorem sameBut_after_remove (t : FileTree) (path : String) :
    t.SameBut (t.changed (t.remove path)).2 [path] := by
  cases hremove : t.remove path with
  | error fault => exact .refl t [path]
  | ok u =>
    obtain ⟨p, hp, -, rfl⟩ := remove_eq_ok_iff.mp hremove
    refine ⟨rfl, fun q hq => ?_⟩
    have hne : q ≠ p := by
      rintro rfl
      exact hq path (List.mem_singleton_self path) hp
    rw [changed_ok, node?_erase, if_neg fun h => hne h.1]

end FileTree

namespace FileTask

variable {α β : Type} {t u : FileTree}

@[simp]
theorem bind_eq (x : FileTask α) (f : α → FileTask β) : x >>= f = x.bind f := rfl

@[simp]
theorem pure_eq (a : α) : (pure a : FileTask α) = done a := rfl

theorem run_ask (q : FileRequest) (next : q.Answer → FileTask α) (t : FileTree) :
    (ask q next).run t = (next (t.answer q).1).run (t.answer q).2 := rfl

/-- A tree can be met on the way of a task: at its end, amid one of its requests or after one. -/
inductive Meets : FileTask α → FileTree → FileTree → Prop
  | done {a : α} {t : FileTree} : Meets (.done a) t t
  | amid {q : FileRequest} {next : q.Answer → FileTask α} {t u : FileTree} :
    t.Amid q u → Meets (ask q next) t u
  | after {q : FileRequest} {next : q.Answer → FileTask α} {t u : FileTree} :
    Meets (next (t.answer q).1) (t.answer q).2 u → Meets (ask q next) t u

theorem Meets.eq_of_done {a : α} (h : (FileTask.done a).Meets t u) : u = t := by
  cases h
  rfl

theorem meets_bind {x : FileTask α} {f : α → FileTask β} (h : (x.bind f).Meets t u) :
    x.Meets t u ∨ (f (x.run t).1).Meets (x.run t).2 u := by
  induction x generalizing t with
  | done a => exact .inr h
  | ask q next ih =>
    cases h with
    | amid hamid => exact .inl (.amid hamid)
    | after hnext => exact (ih _ hnext).imp .after id

/-- No work on files adds or removes a directory. -/
theorem Meets.sameDirectories {x : FileTask α} (h : x.Meets t u) : t.SameDirectories u := by
  induction h with
  | done => exact .refl _
  | amid hamid => exact hamid.sameDirectories
  | after _ ih => exact (FileTree.answer_sameDirectories _ _).trans ih

theorem meets_run (x : FileTask α) (t : FileTree) : x.Meets t (x.run t).2 := by
  induction x generalizing t with
  | done a => exact .done
  | ask q next ih => exact .after (ih _ _)

/-- A task gives a result and leaves the tree as it is, all the way. -/
structure Leaves (x : FileTask α) (t : FileTree) (a : α) : Prop where
  run_eq : x.run t = (a, t)
  meets_eq : ∀ u, x.Meets t u → u = t

theorem leaves_done (a : α) (t : FileTree) : (done a).Leaves t a :=
  ⟨rfl, fun _ h => h.eq_of_done⟩

theorem Leaves.bind {x : FileTask α} {f : α → FileTask β} {a : α} {b : β} (hx : x.Leaves t a)
    (hf : (f a).Leaves t b) : (x.bind f).Leaves t b where
  run_eq := by rw [run_bind, hx.run_eq, hf.run_eq]
  meets_eq u h := by
    obtain h | h := meets_bind h
    · exact hx.meets_eq u h
    · rw [hx.run_eq] at h
      exact hf.meets_eq u h

theorem leaves_ask {q : FileRequest} {next : q.Answer → FileTask α} {a : α}
    (hamid : ∀ u, t.Amid q u → u = t) (hafter : (t.answer q).2 = t)
    (hnext : (next (t.answer q).1).Leaves t a) : (ask q next).Leaves t a where
  run_eq := by rw [run_ask, hafter, hnext.run_eq]
  meets_eq u h := by
    cases h with
    | amid h => exact hamid u h
    | after h =>
      rw [hafter] at h
      exact hnext.meets_eq u h

end FileTask

end JackVM
