import JackVM.Proofs.BuildSteps
import Mathlib.Data.Set.Function

namespace JackVM

/-- The places of the entries that some paths lead to. -/
def FileTree.reach (t : FileTree) (paths : List String) : Set Place :=
  {p | ∃ path ∈ paths, t.LeadsTo path p}

/-- A path leads to an entry or to a directory, whatever is there. -/
def FileTree.Locates (t : FileTree) (path : String) : Prop :=
  (∃ p, t.LeadsTo path p) ∨ ∃ place, t.locate path = .ok (.directory place)

/-- A request that is about some paths only, and not about all the entries of a directory. -/
def FileRequest.IsWithin (paths : List String) : FileRequest → Prop
  | read path | write path _ | remove path | isDirectory path | isFile path => path ∈ paths
  | rename source target => source ∈ paths ∧ target ∈ paths
  | list _ => False

/-- A task all of whose requests are about some paths. -/
inductive FileTask.Confined {α : Type} (paths : List String) : FileTask α → Prop
  | done (a : α) : Confined paths (.done a)
  | ask {q : FileRequest} {next : q.Answer → FileTask α} (hq : q.IsWithin paths)
    (hnext : ∀ answer, Confined paths (next answer)) : Confined paths (.ask q next)

namespace FileTree

variable {t u v : FileTree} {path : String} {p : Place} {paths : List String} {S : Set Place}

theorem SameDirectories.reach_eq (h : t.SameDirectories u) (paths : List String) :
    u.reach paths = t.reach paths := by
  ext p
  simp only [reach, Set.mem_ofPred_eq, h.leadsTo_iff]

theorem SameDirectories.locates (h : t.SameDirectories u) (hpath : t.Locates path) :
    u.Locates path := by
  obtain ⟨p, hp⟩ | ⟨place, hplace⟩ := hpath
  · exact .inl ⟨p, h.leadsTo_iff.mpr hp⟩
  · exact .inr ⟨place, h.locate_eq_ok hplace⟩

theorem set_eqOn (hp : p ≠ []) (node : FileNode) (h : S.EqOn t.node? u.node?) :
    S.EqOn (t.set p node).node? (u.set p node).node? := by
  intro q hq
  rw [node?_set _ _ _ _ hp, node?_set _ _ _ _ hp, h hq]

theorem erase_eqOn (p : Place) (h : S.EqOn t.node? u.node?) :
    S.EqOn (t.erase p).node? (u.erase p).node? := by
  intro q hq
  rw [node?_erase, node?_erase, h hq]

/-- What a path that leads somewhere leads to in another tree with the same directories. -/
theorem SameDirectories.locate_eq (h : t.SameDirectories u) (hpath : t.Locates path) :
    u.locate path = t.locate path := by
  obtain ⟨p, parent, name, hlocate, -⟩ | ⟨place, hlocate⟩ := hpath
  all_goals rw [hlocate, h.locate_eq_ok hlocate]

section

attribute [local simp] bind Except.bind pure Except.pure throw throwThe MonadExceptOf.throw

theorem stat_congr (h : t.SameDirectories u) (hpath : t.Locates path)
    (hnode : ∀ p, t.LeadsTo path p → t.node? p = u.node? p) : t.stat path = u.stat path := by
  have hlocate := h.locate_eq hpath
  obtain ⟨p, parent, name, hp, rfl⟩ | ⟨place, hp⟩ := hpath
  · have hentry := hnode _ ⟨parent, name, hp, rfl⟩
    simp [stat, hlocate, hp, hentry]
  · simp [stat, hlocate, hp]

theorem read_congr (h : t.stat path = u.stat path) : t.read path = u.read path := by
  rw [read, read, h]

/-- One change made in two trees, which fails in both or leaves them alike in some places. -/
def ChangedAlike (S : Set Place) (t u : FileTree) (x y : Except FileFault FileTree) : Prop :=
  (t.changed x).1 = (u.changed y).1 ∧ S.EqOn (t.changed x).2.node? (u.changed y).2.node?

variable {fault : FileFault}

theorem changedAlike_error (h : S.EqOn t.node? u.node?) :
    ChangedAlike S t u (.error fault) (.error fault) :=
  ⟨rfl, h⟩

theorem changedAlike_ok {t' u' : FileTree} (h : S.EqOn t'.node? u'.node?) :
    ChangedAlike S t u (.ok t') (.ok u') :=
  ⟨rfl, h⟩

theorem write_congr (h : t.SameDirectories u) (hpath : t.Locates path)
    (hS : ∀ p, t.LeadsTo path p → p ∈ S) (heq : S.EqOn t.node? u.node?) (content : ByteArray) :
    ChangedAlike S t u (t.write path content) (u.write path content) := by
  have hlocate := h.locate_eq hpath
  obtain ⟨p, parent, name, hp, rfl⟩ | ⟨place, hp⟩ := hpath
  · have hnode := heq (hS _ ⟨parent, name, hp, rfl⟩)
    have hset := set_eqOn (List.concat_ne_nil name parent) (.file content) heq
    match hu : u.node? (parent ++ [name]) with
    | none | some (.file _) =>
      simpa [write, hlocate, hp, hnode, hu] using changedAlike_ok hset
    | some .directory => simpa [write, hlocate, hp, hnode, hu] using changedAlike_error heq
  · simpa [write, hlocate, hp] using changedAlike_error heq

theorem remove_congr (h : t.SameDirectories u) (hpath : t.Locates path)
    (hS : ∀ p, t.LeadsTo path p → p ∈ S) (heq : S.EqOn t.node? u.node?) :
    ChangedAlike S t u (t.remove path) (u.remove path) := by
  have hlocate := h.locate_eq hpath
  obtain ⟨p, parent, name, hp, rfl⟩ | ⟨place, hp⟩ := hpath
  · have hnode := heq (hS _ ⟨parent, name, hp, rfl⟩)
    match hu : u.node? (parent ++ [name]) with
    | none | some .directory =>
      simpa [remove, hlocate, hp, hnode, hu] using changedAlike_error heq
    | some (.file _) =>
      simpa [remove, hlocate, hp, hnode, hu] using changedAlike_ok (erase_eqOn _ heq)
  · simpa [remove, hlocate, hp] using changedAlike_error heq

theorem rename_congr {source target : String} (h : t.SameDirectories u)
    (hsource : t.Locates source) (htarget : t.Locates target)
    (hS : ∀ p, t.LeadsTo source p ∨ t.LeadsTo target p → p ∈ S) (heq : S.EqOn t.node? u.node?) :
    ChangedAlike S t u (t.rename source target) (u.rename source target) := by
  have hold := h.locate_eq hsource
  have hnew := h.locate_eq htarget
  obtain ⟨p, parent, name, hp, rfl⟩ | ⟨place, hp⟩ := hsource
  · obtain ⟨q, parent', name', hq, rfl⟩ | ⟨place', hq⟩ := htarget
    · have hnode := heq (hS _ (.inl ⟨parent, name, hp, rfl⟩))
      have hnode' := heq (hS _ (.inr ⟨parent', name', hq, rfl⟩))
      have hset (content : ByteArray) := set_eqOn (List.concat_ne_nil name' parent')
        (.file content) (erase_eqOn (parent ++ [name]) heq)
      match hu : u.node? (parent ++ [name]), hu' : u.node? (parent' ++ [name']) with
      | none, _ | some .directory, _ | some (.file _), some .directory =>
        simpa [rename, hold, hnew, hp, hq, hnode, hu, hnode', hu'] using changedAlike_error heq
      | some (.file content), none | some (.file content), some (.file _) =>
        simpa [rename, hold, hnew, hp, hq, hnode, hu, hnode', hu'] using
          changedAlike_ok (hset content)
    · simpa [rename, hold, hnew, hp, hq] using changedAlike_error heq
  · obtain ⟨q, parent', name', hq, rfl⟩ | ⟨place', hq⟩ := htarget
    all_goals simpa [rename, hold, hnew, hp, hq] using changedAlike_error heq

end

/-- Two trees that are alike in the places a request is about give the same answer, and are alike
there afterwards. -/
theorem answer_congr {q : FileRequest} (h : t.SameDirectories u)
    (hlocates : ∀ path ∈ paths, t.Locates path) (hq : q.IsWithin paths)
    (heq : (t.reach paths).EqOn t.node? u.node?) :
    (t.answer q).1 = (u.answer q).1 ∧
      (t.reach paths).EqOn (t.answer q).2.node? (u.answer q).2.node? := by
  have hS {path : String} (hpath : path ∈ paths) (p : Place) (hp : t.LeadsTo path p) :
      p ∈ t.reach paths := ⟨path, hpath, hp⟩
  have hstat {path : String} (hpath : path ∈ paths) : t.stat path = u.stat path :=
    stat_congr h (hlocates path hpath) fun p hp => heq (hS hpath p hp)
  cases q with
  | read path => exact ⟨read_congr (hstat hq), heq⟩
  | isDirectory path =>
    have hanswer : t.isDirectory path = u.isDirectory path := by
      rw [FileTree.isDirectory, FileTree.isDirectory, hstat hq]
    exact ⟨hanswer, heq⟩
  | isFile path =>
    have hanswer : t.isFile path = u.isFile path := by
      rw [FileTree.isFile, FileTree.isFile, hstat hq]
    exact ⟨hanswer, heq⟩
  | write path content => exact write_congr h (hlocates path hq) (hS hq) heq content
  | remove path => exact remove_congr h (hlocates path hq) (hS hq) heq
  | rename source target =>
    refine rename_congr h (hlocates source hq.1) (hlocates target hq.2) (fun p hp => ?_) heq
    exact hp.elim (hS hq.1 p) (hS hq.2 p)
  | list path => exact absurd hq id

/-- A request changes nothing but in the places it is about. -/
theorem answer_eqOn {q : FileRequest} (hq : q.IsWithin paths) :
    (t.reach paths)ᶜ.EqOn (t.answer q).2.node? t.node? := by
  intro r hr
  have hne {path : String} (hpath : path ∈ paths) {p : Place} (hp : t.LeadsTo path p) : r ≠ p := by
    rintro rfl
    exact hr ⟨path, hpath, hp⟩
  cases q with
  | read | isDirectory | isFile => rfl
  | list => exact absurd hq id
  | write path content =>
    simp only [answer]
    cases hwrite : t.write path content with
    | error fault => rfl
    | ok u =>
      obtain ⟨p, hp, -, rfl⟩ := write_eq_ok_iff.mp hwrite
      rw [changed_ok, node?_set _ _ _ _ hp.ne_nil, if_neg (hne hq hp)]
  | remove path =>
    simp only [answer]
    cases hremove : t.remove path with
    | error fault => rfl
    | ok u =>
      obtain ⟨p, hp, -, rfl⟩ := remove_eq_ok_iff.mp hremove
      rw [changed_ok, node?_erase, if_neg fun h => hne hq hp h.1]
  | rename source target =>
    simp only [answer]
    cases hrename : t.rename source target with
    | error fault => rfl
    | ok u =>
      obtain ⟨p, p', _, hp, hp', -, -, rfl⟩ := rename_eq_ok_iff.mp hrename
      rw [changed_ok, node?_set _ _ _ _ hp'.ne_nil, if_neg (hne hq.2 hp'), node?_erase,
        if_neg fun h => hne hq.1 hp h.1]

end FileTree

namespace FileTask

open FileTree

variable {α β : Type} {t u : FileTree} {paths : List String} {x : FileTask α}

theorem Confined.bind {f : α → FileTask β} (hx : x.Confined paths)
    (hf : ∀ a, (f a).Confined paths) : (x.bind f).Confined paths := by
  induction hx with
  | done a => exact hf a
  | ask hq _ ih => exact .ask hq ih

theorem run_sameDirectories (x : FileTask α) (t : FileTree) : t.SameDirectories (x.run t).2 :=
  (meets_run x t).sameDirectories

/-- A task that is about some paths does the same in trees that are alike where they lead. -/
theorem Confined.run_congr (hx : x.Confined paths) (h : t.SameDirectories u)
    (hlocates : ∀ path ∈ paths, t.Locates path) (heq : (t.reach paths).EqOn t.node? u.node?) :
    (x.run t).1 = (x.run u).1 ∧ (t.reach paths).EqOn (x.run t).2.node? (x.run u).2.node? := by
  induction hx generalizing t u with
  | done a => exact ⟨rfl, heq⟩
  | @ask q next hq _ ih =>
    obtain ⟨hanswer, hafter⟩ := answer_congr h hlocates hq heq
    have ht := answer_sameDirectories t q
    have hu := answer_sameDirectories u q
    rw [run_ask, run_ask, ← hanswer]
    rw [← ht.reach_eq] at hafter ⊢
    exact ih (t.answer q).1 (ht.symm.trans (h.trans hu))
      (fun path hpath => ht.locates (hlocates path hpath)) hafter

/-- A task that is about some paths changes nothing but where they lead. -/
theorem Confined.run_eqOn (hx : x.Confined paths) (t : FileTree) :
    (t.reach paths)ᶜ.EqOn (x.run t).2.node? t.node? := by
  induction hx generalizing t with
  | done a => exact Set.eqOn_refl _ _
  | @ask q next hq _ ih =>
    have hafter := ih (t.answer q).1 (t.answer q).2
    rw [(answer_sameDirectories t q).reach_eq] at hafter
    exact hafter.trans (answer_eqOn hq)

end FileTask

open FileTask

/-- The paths that the build of a file is about. -/
def workPaths (path : String) : List String :=
  [path, outputPath path, temporaryPath (outputPath path)]

theorem codeOfFile_confined (path : String) : (codeOfFile path).Confined (workPaths path) := by
  have hread : (readText path).Confined (workPaths path) := by
    rw [readText_eq]
    refine .ask (List.mem_cons_self ..) fun answer => ?_
    cases answer with
    | error fault => exact .done _
    | ok content =>
      dsimp only
      cases String.fromUTF8? content <;> exact .done _
  refine hread.bind fun text => ?_
  cases text with
  | error e => exact .done _
  | ok source =>
    dsimp only
    cases compileText source <;> exact .done _

theorem replaceOutput_confined (path text : String) :
    (replaceOutput (outputPath path) text).Confined (workPaths path) := by
  have houtput : outputPath path ∈ workPaths path := by simp [workPaths]
  have htemporary : temporaryPath (outputPath path) ∈ workPaths path := by simp [workPaths]
  rw [replaceOutput_eq]
  refine .ask htemporary fun written => ?_
  cases written with
  | error fault => exact .ask htemporary fun _ => .done _
  | ok _ =>
    refine .ask ⟨htemporary, houtput⟩ fun renamed => ?_
    cases renamed <;> exact .done _

theorem dropOutput_confined (path : String) :
    (dropOutput (outputPath path)).Confined (workPaths path) := by
  refine .ask (q := .remove (outputPath path)) (by simp [FileRequest.IsWithin, workPaths])
    fun removed => ?_
  cases removed with
  | ok _ => exact .done _
  | error fault => cases fault <;> exact .done _

theorem buildFile_confined (path : String) : (buildFile path).Confined (workPaths path) := by
  by_cases hs : isSource path = true
  case neg =>
    rw [buildFile, if_neg hs]
    exact .done _
  rw [buildFile_of_source hs]
  refine (codeOfFile_confined path).bind fun compiled => ?_
  cases compiled with
  | error e => exact (dropOutput_confined path).bind fun _ => .done _
  | ok code =>
    refine (replaceOutput_confined path code).bind fun replaced => ?_
    cases replaced <;> exact .done _

end JackVM
