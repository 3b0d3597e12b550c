import JackVM.Proofs.SourceListing

namespace JackVM

/-- Two trees that hold the same, and where paths start from the same place. -/
structure FileTree.Alike (t u : FileTree) : Prop where
  workDirectory : u.workDirectory = t.workDirectory
  node?_eq : ∀ p, u.node? p = t.node? p

/-- No worker has anything left to do. -/
def WorkerPool.IsStopped (p : WorkerPool) : Prop :=
  ∀ w ∈ p.workers, w = .stopped

open FileTree FileTask

variable {t u v : FileTree} {sources : List String} {target : String}

theorem FileTree.BuiltAlone.alike (hu : t.BuiltAlone sources u) (hv : t.BuiltAlone sources v) :
    u.Alike v where
  workDirectory := hv.sameDirectories.workDirectory.trans hu.sameDirectories.workDirectory.symm
  node?_eq p := hv.node?_eq hu p

namespace WorkerPool

variable {p p' p'' : WorkerPool} {t' t'' : FileTree} {k : Nat}

/-- Some schedule leads from one state of the workers and the tree to another. -/
def Reaches (p : WorkerPool) (t : FileTree) (p' : WorkerPool) (t' : FileTree) : Prop :=
  ∃ schedule, (p.follow schedule).run t = (p', t')

theorem Reaches.refl (p : WorkerPool) (t : FileTree) : p.Reaches t p t :=
  ⟨[], rfl⟩

theorem Reaches.head (hstep : (p.step k).run t = (p', t')) (h : p'.Reaches t' p'' t'') :
    p.Reaches t p'' t'' := by
  obtain ⟨schedule, hrun⟩ := h
  refine ⟨k :: schedule, ?_⟩
  rw [follow, bind_eq, run_bind, hstep, hrun]

theorem Reaches.trans (h : p.Reaches t p' t') (h' : p'.Reaches t' p'' t'') :
    p.Reaches t p'' t'' := by
  obtain ⟨schedule, hrun⟩ := h
  induction schedule generalizing p t with
  | nil =>
    cases hrun
    exact h'
  | cons k schedule ih =>
    rw [follow, bind_eq, run_bind] at hrun
    exact .head rfl (ih hrun)

/-- A worker in the middle of a file comes to its end. -/
theorem exists_idle {number : Nat} {task : FileTask (Except FileError String)}
    (hworker : p.workers[k]? = some (.busy number task)) (t : FileTree) :
    ∃ p' t', p.Reaches t p' t' ∧ p'.workers = p.workers.set k .idle ∧ p'.taken = p.taken ∧
      p'.sources = p.sources := by
  induction task generalizing p t with
  | done result =>
    have hstep : p.step k = .done ((p.setWorker k .idle).record number result) := by
      simp [step, hworker]
    refine ⟨_, t, .head (congrArg (·.run t) hstep) (.refl _ _), ?_⟩
    rw [record_eq]
    exact ⟨rfl, rfl, rfl⟩
  | ask q next ih =>
    have hstep : p.step k =
        .ask q fun answer => .done (p.setWorker k (.busy number (next answer))) := by
      simp [step, hworker]
    have hnext : (p.setWorker k (.busy number (next (t.answer q).1))).workers[k]? =
        some (.busy number (next (t.answer q).1)) := by
      obtain ⟨hk, -⟩ := List.getElem?_eq_some_iff.mp hworker
      simp [setWorker, hk]
    obtain ⟨p', t', hreach, hworkers, htaken, hsources⟩ := ih _ hnext (t.answer q).2
    refine ⟨p', t', .head (congrArg (·.run t) hstep) hreach, ?_, htaken, hsources⟩
    simpa [setWorker] using hworkers

/-- A worker between files takes those that are left, one after the other, and stops. -/
theorem exists_stopped (hworker : p.workers[k]? = some .idle) (t : FileTree) :
    ∃ p' t', p.Reaches t p' t' ∧ p'.workers = p.workers.set k .stopped := by
  induction hleft : p.sources.length - p.taken generalizing p t with
  | zero =>
    have hnone : p.sources[p.taken]? = none := List.getElem?_eq_none (by omega)
    have hstep : p.step k = .done (p.setWorker k .stopped) := by simp [step, hworker, hnone]
    exact ⟨_, t, .head (congrArg (·.run t) hstep) (.refl _ _), rfl⟩
  | succ n ih =>
    have hbound : p.taken < p.sources.length := by omega
    have hstep : p.step k = .done { p.setWorker k (.busy p.taken (buildFile p.sources[p.taken]))
        with taken := p.taken + 1 } := by
      simp [step, hworker, hbound]
    obtain ⟨hk, -⟩ := List.getElem?_eq_some_iff.mp hworker
    have hbusy : (p.workers.set k (.busy p.taken (buildFile p.sources[p.taken])))[k]? =
        some (.busy p.taken (buildFile p.sources[p.taken])) := by simp [hk]
    obtain ⟨p₁, t₁, hreach₁, hworkers₁, htaken₁, hsources₁⟩ :=
      @exists_idle { p.setWorker k (.busy p.taken (buildFile p.sources[p.taken]))
        with taken := p.taken + 1 } k _ _ hbusy t
    have hidle : p₁.workers = p.workers.set k .idle := by simpa [setWorker] using hworkers₁
    have hleft₁ : p₁.sources.length - p₁.taken = n := by
      rw [hsources₁, htaken₁]
      simp only [setWorker]
      omega
    obtain ⟨p₂, t₂, hreach₂, hworkers₂⟩ := ih (by simp [hidle, hk]) t₁ hleft₁
    refine ⟨p₂, t₂, .head (congrArg (·.run t) hstep) (hreach₁.trans hreach₂), ?_⟩
    rw [hworkers₂, hidle, List.set_set]

/-- Whatever a worker is at, it can come to a stop. -/
theorem exists_set_stopped (hk : k < p.workers.length) (t : FileTree) :
    ∃ p' t', p.Reaches t p' t' ∧ p'.workers = p.workers.set k .stopped := by
  match hworker : p.workers[k] with
  | .idle => exact exists_stopped (by simp [hworker, hk]) t
  | .stopped =>
    refine ⟨p, t, .refl p t, ?_⟩
    rw [← hworker, List.set_getElem_self]
  | .busy number task =>
    obtain ⟨p₁, t₁, hreach₁, hworkers₁, -⟩ :=
      @exists_idle p k number task (by simp [hworker, hk]) t
    obtain ⟨p₂, t₂, hreach₂, hworkers₂⟩ := @exists_stopped p₁ k (by simp [hworkers₁, hk]) t₁
    refine ⟨p₂, t₂, hreach₁.trans hreach₂, ?_⟩
    rw [hworkers₂, hworkers₁, List.set_set]

/-- However far the workers are, they can all come to a stop. -/
theorem exists_isStopped (p : WorkerPool) (t : FileTree) :
    ∃ p' t', p.Reaches t p' t' ∧ p'.IsStopped := by
  -- one worker after the other, of which one that has stopped stays so
  have hfirst (n : Nat) : n ≤ p.workers.length → ∃ p' t', p.Reaches t p' t' ∧
      p'.workers = List.replicate n .stopped ++ p.workers.drop n := by
    induction n with
    | zero => exact fun _ => ⟨p, t, .refl p t, rfl⟩
    | succ n ih =>
      intro hn
      obtain ⟨p₁, t₁, hreach₁, hworkers₁⟩ := ih (Nat.le_of_lt hn)
      have hbound : n < p₁.workers.length := by
        simp [hworkers₁]
        omega
      obtain ⟨p₂, t₂, hreach₂, hworkers₂⟩ := exists_set_stopped hbound t₁
      refine ⟨p₂, t₂, hreach₁.trans hreach₂, ?_⟩
      rw [hworkers₂, hworkers₁, List.set_append_right _ _ (by simp), List.length_replicate,
        Nat.sub_self, List.drop_eq_getElem_cons hn, List.set_cons_zero, List.replicate_succ']
      simp
  obtain ⟨p', t', hreach, hworkers⟩ := hfirst _ le_rfl
  refine ⟨p', t', hreach, fun w hw => ?_⟩
  rw [hworkers, List.drop_length, List.append_nil] at hw
  exact List.eq_of_mem_replicate hw

/-- Workers, of which one stops only when all files are taken. -/
structure StopsLast (p : WorkerPool) (count : Nat) : Prop where
  length_eq : p.workers.length = count
  taken_of_stopped : .stopped ∈ p.workers → p.sources.length ≤ p.taken

variable {count : Nat}

theorem StopsLast.setWorker (h : p.StopsLast count) {w : Worker}
    (hw : w = .stopped → p.sources.length ≤ p.taken) (k : Nat) :
    (p.setWorker k w).StopsLast count where
  length_eq := by simpa [WorkerPool.setWorker] using h.length_eq
  taken_of_stopped hmem := by
    obtain hmem | heq := List.mem_or_eq_of_mem_set hmem
    · exact h.taken_of_stopped hmem
    · exact hw heq.symm

theorem StopsLast.step (h : p.StopsLast count) (k : Nat) (t : FileTree) :
    ((p.step k).run t).1.StopsLast count := by
  cases hworker : p.workers[k]? with
  | none => simpa [WorkerPool.step, hworker, FileTask.run] using h
  | some w =>
    cases w with
    | stopped => simpa [WorkerPool.step, hworker, FileTask.run] using h
    | idle =>
      cases hsource : p.sources[p.taken]? with
      | none =>
        have hstep : p.step k = .done (p.setWorker k .stopped) := by
          simp [WorkerPool.step, hworker, hsource]
        rw [hstep]
        exact h.setWorker (fun _ => List.getElem?_eq_none_iff.mp hsource) k
      | some source =>
        have hstep : p.step k = .done
            { p.setWorker k (.busy p.taken (buildFile source)) with taken := p.taken + 1 } := by
          simp [WorkerPool.step, hworker, hsource]
        rw [hstep]
        have hset := h.setWorker (w := .busy p.taken (buildFile source)) (fun hw => by cases hw) k
        exact ⟨hset.length_eq, fun hmem => Nat.le_succ_of_le (hset.taken_of_stopped hmem)⟩
    | busy number task =>
      cases task with
      | done result =>
        have hstep : p.step k = .done ((p.setWorker k .idle).record number result) := by
          simp [WorkerPool.step, hworker]
        have hset := h.setWorker (w := .idle) (fun hw => by cases hw) k
        rw [hstep, record_eq]
        exact ⟨hset.length_eq, hset.taken_of_stopped⟩
      | ask q next =>
        have hstep : p.step k =
            .ask q fun answer => .done (p.setWorker k (.busy number (next answer))) := by
          simp [WorkerPool.step, hworker]
        rw [hstep]
        exact h.setWorker (fun hw => by cases hw) k

theorem StopsLast.follow (h : p.StopsLast count) (schedule : List Nat) (t : FileTree) :
    ((p.follow schedule).run t).1.StopsLast count := by
  induction schedule generalizing p t with
  | nil => exact h
  | cons k schedule ih =>
    rw [WorkerPool.follow, bind_eq, run_bind]
    exact ih (h.step k t) _

theorem start_stopsLast (sources : List String) (count : Nat) :
    (start sources count).StopsLast count where
  length_eq := List.length_replicate
  taken_of_stopped hmem := by cases List.eq_of_mem_replicate hmem

theorem start_keeps (t : FileTree) (sources : List String) (count : Nat) :
    (start sources count).Keeps t sources (openJobs (start sources count).workers) [] t where
  sources_eq := rfl
  tracks := by
    have hnone : openJobs (start sources count).workers = [] := by
      apply List.filterMap_eq_nil_iff.mpr
      intro w hw
      rw [List.eq_of_mem_replicate hw]
      rfl
    rw [hnone]
    exact .start t sources
  failures := .refl _

theorem openJobs_of_isStopped (h : p.IsStopped) : openJobs p.workers = [] := by
  apply List.filterMap_eq_nil_iff.mpr
  intro w hw
  rw [h w hw]
  rfl

/-- Workers that have all stopped have ended every file, each once and as if by itself. -/
theorem follow_alone {after : FileTree} {schedule : List Nat} (ha : t.Apart sources)
    (hcount : 0 < count)
    (hrun : ((start sources count).follow schedule).run t = (p, after)) (hstopped : p.IsStopped) :
    ((start sources count).endings t schedule).Perm (t.resultsAlone sources) ∧
      p.failedSources = t.failuresAlone sources ∧ t.BuiltAlone sources after := by
  have hkeeps := (start_keeps t sources count).follow ha schedule
  have hlast := (start_stopsLast sources count).follow schedule t
  rw [hrun, List.nil_append] at hkeeps
  rw [hrun] at hlast
  rw [openJobs_of_isStopped hstopped] at hkeeps
  have htaken : p.taken = sources.length := by
    have hmem : .stopped ∈ p.workers := by
      obtain ⟨w, hw⟩ := List.exists_mem_of_length_pos (hlast.length_eq ▸ hcount)
      rwa [← hstopped w hw]
    have hge := hlast.taken_of_stopped hmem
    rw [hkeeps.sources_eq] at hge
    exact Nat.le_antisymm hkeeps.tracks.taken_le hge
  exact ⟨hkeeps.ended_perm htaken, hkeeps.failedSources_eq htaken, hkeeps.builtAlone htaken⟩

end WorkerPool

open WorkerPool

/-- Workers that are stopped at any point, after which the rest is done in turn. -/
theorem buildScheduled_alone (ha : t.Apart sources) (count : Nat) (schedule : List Nat) :
    ((buildScheduled sources count schedule).run t).1 = t.failuresAlone sources ∧
      t.BuiltAlone sources ((buildScheduled sources count schedule).run t).2 := by
  rw [buildScheduled, bind_eq, run_bind, bind_eq, run_bind]
  obtain ⟨ended, hkeeps⟩ := ((start_keeps t sources count).follow ha schedule).finish ha
  exact ⟨hkeeps.failedSources_eq rfl, hkeeps.builtAlone rfl⟩

theorem buildAll_alone (ha : t.Apart sources) (jobs : Nat) :
    ((buildAll sources jobs).run t).1 = t.failuresAlone sources ∧
      t.BuiltAlone sources ((buildAll sources jobs).run t).2 := by
  rw [buildAll]
  split
  · exact buildEach_alone ha
  · exact buildScheduled_alone ha _ _

/-- The sources found in a directory are each built as if by itself, one after the other and by any
number of workers whose steps are mixed in any way. Workers can always come to a stop; when they
have, each source was ended exactly once, the failures are the same in the same order, and the tree
holds the same. -/
theorem builds_independent (hproper : t.Proper) (hdirectory : t.isDirectory target = true)
    (hsources : ((sourcesAt target).run t).1 = .ok sources) :
    (((buildEach sources).run t).1 = t.failuresAlone sources ∧
        t.BuiltAlone sources ((buildEach sources).run t).2) ∧
      (∀ jobs, 2 ≤ jobs → ∀ schedule p after,
        ((WorkerPool.start sources (min jobs sources.length)).follow schedule).run t = (p, after) →
          (∃ p' after', p.Reaches after p' after' ∧ p'.IsStopped) ∧
          (p.IsStopped →
            ((WorkerPool.start sources (min jobs sources.length)).endings t schedule).Perm
                (t.resultsAlone sources) ∧
              p.failedSources = ((buildEach sources).run t).1 ∧
              ((buildEach sources).run t).2.Alike after)) ∧
      ∀ jobs, ((buildAll sources jobs).run t).1 = ((buildEach sources).run t).1 ∧
        ((buildEach sources).run t).2.Alike ((buildAll sources jobs).run t).2 := by
  have ha := apart_of_directory hproper hdirectory hsources
  have heach := buildEach_alone ha
  refine ⟨heach, fun jobs hjobs schedule p after hrun => ⟨p.exists_isStopped after, ?_⟩,
    fun jobs => ?_⟩
  · intro hstopped
    have hcount : 0 < min jobs sources.length := by
      have hsome := List.length_pos_of_ne_nil (sources_of_directory hdirectory hsources).1
      omega
    obtain ⟨hends, hfailures, hbuilt⟩ := follow_alone ha hcount hrun hstopped
    exact ⟨hends, hfailures.trans heach.1.symm, heach.2.alike hbuilt⟩
  · obtain ⟨hfailures, hbuilt⟩ := buildAll_alone ha jobs
    exact ⟨hfailures.trans heach.1.symm, heach.2.alike hbuilt⟩

/-- Two sources, one with two dots in its name, beside an output of earlier and another file. -/
theorem builds_independent_twoSources :
    let t : FileTree := ⟨[(["A.b.jack"], .file "class A { }".toUTF8),
      (["B.jack"], .file "class".toUTF8), (["B.vm"], .file "return".toUTF8),
      (["C.txt"], .file "".toUTF8)], []⟩
    ((sourcesAt ".").run t).1 = .ok ["./A.b.jack", "./B.jack"] ∧
      t.BuiltAlone ["./A.b.jack", "./B.jack"]
        ((buildEach ["./A.b.jack", "./B.jack"]).run t).2 := by
  intro t
  have hproper : t.Proper := ⟨by decide, by decide⟩
  have hdirectory : t.isDirectory "." = true := by decide
  have hlist : t.list "." = .ok ["A.b.jack", "B.jack", "B.vm", "C.txt"] := by rfl
  have hnames : sourceNames ["A.b.jack", "B.jack", "B.vm", "C.txt"] = ["A.b.jack", "B.jack"] :=
    List.mergeSort_of_pairwise (by decide)
  have hsources : ((sourcesAt ".").run t).1 = .ok ["./A.b.jack", "./B.jack"] := by
    rw [sourcesAt_run hdirectory hlist, hnames]
    decide
  exact ⟨hsources, (builds_independent hproper hdirectory hsources).1.2⟩

end JackVM
