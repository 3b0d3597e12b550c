import Mathlib.Data.List.Sort
import JackVM.Proofs.Schedules

namespace JackVM

/-- What a worker has left to do on a file, with the file's number. -/
def Worker.job? : Worker → Option (Nat × FileTask (Except FileError String))
  | busy number task => some (number, task)
  | idle | stopped => none

def openJobs (workers : List Worker) : List (Nat × FileTask (Except FileError String)) :=
  workers.filterMap Worker.job?

def doneJobs (ended : List (Nat × Except FileError String)) :
    List (Nat × FileTask (Except FileError String)) :=
  ended.map fun (number, result) => (number, .done result)

/-- The file that the next step of a worker ends, with its number and what came of it. -/
def WorkerPool.ending (p : WorkerPool) (k : Nat) : List (Nat × Except FileError String) :=
  match p.workers[k]? with
  | some (.busy number (.done result)) => [(number, result)]
  | _ => []

/-- The files that are ended along a schedule. -/
def WorkerPool.endings (p : WorkerPool) (t : FileTree) :
    List Nat → List (Nat × Except FileError String)
  | [] => []
  | k :: schedule =>
    p.ending k ++ ((p.step k).run t).1.endings ((p.step k).run t).2 schedule

/-- Workers with some files, of which some are ended and the others as far as the open jobs say. -/
structure WorkerPool.Keeps (t₀ : FileTree) (sources : List String) (p : WorkerPool)
    (jobs : List (Nat × FileTask (Except FileError String)))
    (ended : List (Nat × Except FileError String)) (t : FileTree) : Prop where
  sources_eq : p.sources = sources
  tracks : Tracks t₀ sources p.taken (doneJobs ended ++ jobs) t
  failures : p.failures.Perm (ended.filterMap fun e => failure? e.1 e.2)

/-- What comes of the files if each is built by itself, with their numbers. -/
def FileTree.resultsAlone (t : FileTree) (sources : List String) :
    List (Nat × Except FileError String) :=
  sources.zipIdx.map fun s => (s.2, ((buildFile s.1).run t).1)

section

open FileTree FileTask

variable {t₀ t : FileTree} {sources : List String} {p : WorkerPool}
  {jobs : List (Nat × FileTask (Except FileError String))}
  {ended : List (Nat × Except FileError String)}

/-- A worker's job is one of the open ones, and the others stay if the worker changes. -/
theorem exists_otherJobs {workers : List Worker} {k : Nat} {old : Worker}
    (h : workers[k]? = some old) :
    ∃ others, (openJobs workers).Perm (old.job?.toList ++ others) ∧
      ∀ new, (openJobs (workers.set k new)).Perm (new.job?.toList ++ others) := by
  obtain ⟨hk, rfl⟩ := List.getElem?_eq_some_iff.mp h
  have hmiddle (left right : List Worker) (w : Worker) :
      (openJobs (left ++ w :: right)).Perm
        (w.job?.toList ++ (openJobs left ++ openJobs right)) := by
    have hjobs : openJobs (left ++ w :: right) =
        openJobs left ++ (w.job?.toList ++ openJobs right) := by
      simp only [openJobs, List.filterMap_append, List.filterMap_cons]
      cases w.job? <;> rfl
    rw [hjobs, ← List.append_assoc, ← List.append_assoc]
    exact List.perm_append_comm.append_right _
  refine ⟨openJobs (workers.take k) ++ openJobs (workers.drop (k + 1)), ?_, fun new => ?_⟩
  · have hsplit : workers = workers.take k ++ workers[k] :: workers.drop (k + 1) := by simp
    exact (List.Perm.of_eq (congrArg openJobs hsplit)).trans (hmiddle _ _ _)
  · rw [List.set_eq_take_append_cons_drop, if_pos hk]
    exact hmiddle _ _ _

namespace WorkerPool

theorem Keeps.perm {jobs' : List (Nat × FileTask (Except FileError String))}
    (h : p.Keeps t₀ sources jobs ended t) (hp : jobs'.Perm jobs) :
    p.Keeps t₀ sources jobs' ended t :=
  ⟨h.sources_eq, h.tracks.perm (hp.append_left _), h.failures⟩

theorem record_eq (p : WorkerPool) (number : Nat) (result : Except FileError String) :
    p.record number result =
      { p with failures := (failure? number result).toList ++ p.failures } := by
  cases result <;> rfl

/-- A job that is done is ended, and put down if it failed. -/
theorem Keeps.record {number : Nat} {result : Except FileError String}
    (h : p.Keeps t₀ sources ((number, .done result) :: jobs) ended t) :
    (p.record number result).Keeps t₀ sources jobs (ended ++ [(number, result)]) t := by
  rw [record_eq]
  refine ⟨h.sources_eq, h.tracks.perm ?_, ?_⟩
  · simp [doneJobs]
  · rw [List.filterMap_append]
    have hlast : ([(number, result)].filterMap fun e => failure? e.1 e.2) =
        (failure? number result).toList := by
      cases result <;> rfl
    rw [hlast]
    exact (List.perm_append_comm).trans (h.failures.append_right _)

theorem Keeps.take {source : String} (ha : t₀.Apart sources)
    (h : p.Keeps t₀ sources jobs ended t) (hsource : sources[p.taken]? = some source) :
    ({ p with taken := p.taken + 1 }).Keeps t₀ sources ((p.taken, buildFile source) :: jobs)
      ended t :=
  ⟨h.sources_eq, (h.tracks.take ha hsource).perm List.perm_middle, h.failures⟩

theorem Keeps.answer {number : Nat} {q : FileRequest}
    {next : q.Answer → FileTask (Except FileError String)} (ha : t₀.Apart sources)
    (h : p.Keeps t₀ sources ((number, .ask q next) :: jobs) ended t) :
    p.Keeps t₀ sources ((number, next (t.answer q).1) :: jobs) ended (t.answer q).2 :=
  ⟨h.sources_eq, ((h.tracks.perm List.perm_middle.symm).answer ha).perm List.perm_middle,
    h.failures⟩

theorem Keeps.run {number : Nat} {task : FileTask (Except FileError String)}
    (ha : t₀.Apart sources) (h : p.Keeps t₀ sources ((number, task) :: jobs) ended t) :
    p.Keeps t₀ sources ((number, .done (task.run t).1) :: jobs) ended (task.run t).2 :=
  ⟨h.sources_eq, ((h.tracks.perm List.perm_middle.symm).run ha).perm List.perm_middle, h.failures⟩

/-- What is kept does not depend on which worker does which job. -/
theorem Keeps.setWorker (h : p.Keeps t₀ sources jobs ended t) (k : Nat) (w : Worker) :
    (p.setWorker k w).Keeps t₀ sources jobs ended t :=
  ⟨h.sources_eq, h.tracks, h.failures⟩

/-- One step of any worker. -/
theorem Keeps.step (ha : t₀.Apart sources) (h : p.Keeps t₀ sources (openJobs p.workers) ended t)
    (k : Nat) :
    ((p.step k).run t).1.Keeps t₀ sources (openJobs ((p.step k).run t).1.workers)
      (ended ++ p.ending k) ((p.step k).run t).2 := by
  cases hworker : p.workers[k]? with
  | none => simpa [WorkerPool.step, ending, hworker, FileTask.run] using h
  | some w =>
    cases w with
    | stopped => simpa [WorkerPool.step, ending, hworker, FileTask.run] using h
    | idle =>
      obtain ⟨others, hold, hnew⟩ := exists_otherJobs hworker
      have hopen := h.perm hold.symm
      have hending : p.ending k = [] := by simp [ending, hworker]
      rw [hending, List.append_nil]
      cases hsource : p.sources[p.taken]? with
      | none =>
        have hstep : p.step k = .done (p.setWorker k .stopped) := by
          simp [WorkerPool.step, hworker, hsource]
        rw [hstep]
        exact (hopen.perm (hnew .stopped)).setWorker k .stopped
      | some source =>
        have hstep : p.step k = .done
            { p.setWorker k (.busy p.taken (buildFile source)) with taken := p.taken + 1 } := by
          simp [WorkerPool.step, hworker, hsource]
        rw [hstep]
        have htake := hopen.take ha (h.sources_eq ▸ hsource)
        exact (htake.perm (hnew (.busy p.taken (buildFile source)))).setWorker k _
    | busy number task =>
      cases task with
      | done result =>
        obtain ⟨others, hold, hnew⟩ := exists_otherJobs hworker
        have hrecord := ((h.perm hold.symm).setWorker k .idle).record
        have hending : p.ending k = [(number, result)] := by simp [ending, hworker]
        have hstep : p.step k = .done ((p.setWorker k .idle).record number result) := by
          simp [WorkerPool.step, hworker]
        rw [hending, hstep]
        simp only [FileTask.run]
        rw [record_eq] at hrecord ⊢
        exact hrecord.perm (hnew .idle)
      | ask q next =>
        obtain ⟨others, hold, hnew⟩ := exists_otherJobs hworker
        have hending : p.ending k = [] := by simp [ending, hworker]
        have hstep : p.step k =
            .ask q fun answer => .done (p.setWorker k (.busy number (next answer))) := by
          simp [WorkerPool.step, hworker]
        rw [hending, List.append_nil, hstep]
        have hanswer := (h.perm hold.symm).answer ha
        exact (hanswer.perm (hnew (.busy number (next (t.answer q).1)))).setWorker k _

theorem Keeps.follow (ha : t₀.Apart sources) (schedule : List Nat)
    (h : p.Keeps t₀ sources (openJobs p.workers) ended t) :
    ((p.follow schedule).run t).1.Keeps t₀ sources (openJobs ((p.follow schedule).run t).1.workers)
      (ended ++ p.endings t schedule) ((p.follow schedule).run t).2 := by
  induction schedule generalizing p t ended with
  | nil => simpa [WorkerPool.follow, endings, FileTask.run] using h
  | cons k schedule ih =>
    rw [WorkerPool.follow, bind_eq, run_bind, endings, ← List.append_assoc]
    exact ih (h.step ha k)

theorem Keeps.endTasks (ha : t₀.Apart sources) (workers : List Worker)
    (h : p.Keeps t₀ sources (openJobs workers) ended t) :
    ∃ ended', ((p.endTasks workers).run t).1.Keeps t₀ sources [] ended'
      ((p.endTasks workers).run t).2 := by
  induction workers generalizing p t ended with
  | nil => exact ⟨ended, h⟩
  | cons w workers ih =>
    cases w with
    | idle | stopped => exact ih h
    | busy number task =>
      rw [WorkerPool.endTasks, bind_eq, run_bind]
      exact ih (h.run ha).record

theorem record_withTaken (p : WorkerPool) (taken number : Nat)
    (result : Except FileError String) :
    { p.record number result with taken := taken } =
      ({ p with taken := taken }).record number result := by
  cases result <;> rfl

theorem Keeps.buildFrom (ha : t₀.Apart sources) {number : Nat} {paths : List String}
    (hpaths : sources.drop number = paths)
    (h : ({ p with taken := number }).Keeps t₀ sources [] ended t) :
    ∃ ended', ({ ((p.buildFrom number paths).run t).1 with taken := sources.length }).Keeps t₀
      sources [] ended' ((p.buildFrom number paths).run t).2 := by
  induction paths generalizing p t ended number with
  | nil =>
    have hnumber : number = sources.length :=
      Nat.le_antisymm h.tracks.taken_le (List.drop_eq_nil_iff.mp hpaths)
    subst hnumber
    exact ⟨ended, h⟩
  | cons path paths ih =>
    have hsource : sources[number]? = some path := by
      rw [← List.head?_drop, hpaths, List.head?_cons]
    have hrest : sources.drop (number + 1) = paths := by
      rw [← List.tail_drop, hpaths, List.tail_cons]
    rw [WorkerPool.buildFrom, bind_eq, run_bind]
    have hbuilt :
        ({ p.record number ((buildFile path).run t).1 with taken := number + 1 }).Keeps t₀ sources
          [] (ended ++ [(number, ((buildFile path).run t).1)]) ((buildFile path).run t).2 := by
      rw [record_withTaken]
      exact ((h.take ha hsource).run ha).record
    exact ih hrest hbuilt

theorem Keeps.finish (ha : t₀.Apart sources)
    (h : p.Keeps t₀ sources (openJobs p.workers) ended t) :
    ∃ ended', ({ ((p.finish).run t).1 with taken := sources.length }).Keeps t₀ sources [] ended'
      ((p.finish).run t).2 := by
  rw [WorkerPool.finish, bind_eq, run_bind]
  obtain ⟨ended', h'⟩ := h.endTasks ha p.workers
  exact h'.buildFrom ha (by rw [h'.sources_eq])

/-- Where no job is open any more, each file that was taken was ended once. -/
theorem Keeps.ended_perm (h : p.Keeps t₀ sources [] ended t) (htaken : p.taken = sources.length) :
    ended.Perm (t₀.resultsAlone sources) := by
  have htracks := h.tracks
  rw [List.append_nil, htaken] at htracks
  have hnumbers : (ended.map Prod.fst).Perm (List.range sources.length) := by
    simpa [doneJobs, Function.comp_def] using htracks.numbers
  have hdone {e : Nat × Except FileError String} (he : e ∈ ended) :
      (e.1, .done e.2) ∈ doneJobs ended := List.mem_map.mpr ⟨e, he, rfl⟩
  have hnodup : (t₀.resultsAlone sources).Nodup := by
    apply List.Nodup.of_map Prod.fst
    have hfst : (t₀.resultsAlone sources).map Prod.fst = sources.zipIdx.map Prod.snd := by
      simp [resultsAlone, Function.comp_def]
    rw [hfst, List.zipIdx_map_snd]
    exact List.nodup_range'
  have hnodup' := (hnumbers.nodup_iff.mpr List.nodup_range).of_map
  refine (List.perm_ext_iff_of_nodup hnodup' hnodup).mpr fun e => ?_
  constructor
  · intro he
    obtain ⟨source, hsource, hresult, -⟩ := htracks.eq_of_done (hdone he)
    refine List.mem_map.mpr ⟨(source, e.1), List.mk_mem_zipIdx_iff_getElem?.mpr hsource, ?_⟩
    rw [← hresult]
  · intro halone
    obtain ⟨⟨source, number⟩, hmem, rfl⟩ := List.mem_map.mp halone
    have hsource := List.mk_mem_zipIdx_iff_getElem?.mp hmem
    obtain ⟨hbound, -⟩ := List.getElem?_eq_some_iff.mp hsource
    have hnumber := hnumbers.mem_iff.mpr (List.mem_range.mpr hbound)
    obtain ⟨e, he, rfl⟩ := List.mem_map.mp hnumber
    obtain ⟨source', hsource', hresult, -⟩ := htracks.eq_of_done (hdone he)
    cases hsource.symm.trans hsource'
    rwa [← hresult]

theorem Keeps.builtAlone (h : p.Keeps t₀ sources [] ended t) (htaken : p.taken = sources.length) :
    t₀.BuiltAlone sources t := by
  have htracks := h.tracks
  rw [List.append_nil, htaken] at htracks
  have helsewhere := htracks.elsewhere
  rw [List.take_length] at helsewhere
  refine ⟨htracks.sameDirectories, fun source hsource => ?_, helsewhere⟩
  obtain ⟨number, hnumber⟩ := List.mem_iff_getElem?.mp hsource
  have hmem : (number, ((buildFile source).run t₀).1) ∈ ended :=
    (h.ended_perm htaken).mem_iff.mpr
      (List.mem_map.mpr ⟨(source, number), List.mk_mem_zipIdx_iff_getElem?.mpr hnumber, rfl⟩)
  obtain ⟨source', hsource', -, heq⟩ :=
    htracks.eq_of_done (List.mem_map.mpr ⟨_, hmem, rfl⟩)
  cases hnumber.symm.trans hsource'
  exact heq

/-- Failures with their numbers are sorted into the one order in which the numbers increase. -/
theorem mergeSort_failures {found sorted : List (Nat × FileError)} (hperm : found.Perm sorted)
    (hincreasing : sorted.Pairwise fun a b => a.1 < b.1) :
    found.mergeSort (fun a b => a.1 ≤ b.1) = sorted := by
  have hnodup : (sorted.map Prod.fst).Nodup :=
    List.pairwise_map.mpr (hincreasing.imp Nat.ne_of_lt)
  refine List.Perm.eq_of_pairwise ?_ (List.pairwise_mergeSort ?_ ?_ _)
    (hincreasing.imp ?_) ((List.mergeSort_perm _ _).trans hperm)
  · intro a b ha hb hab hba
    have ha' := hperm.mem_iff.mp ((List.mergeSort_perm _ _).mem_iff.mp ha)
    have heq : a.1 = b.1 := Nat.le_antisymm (of_decide_eq_true hab) (of_decide_eq_true hba)
    exact List.inj_on_of_nodup_map hnodup ha' hb heq
  · intro a b c hab hbc
    simp only [decide_eq_true_eq] at *
    omega
  · intro a b
    simp only [Bool.or_eq_true, decide_eq_true_eq]
    omega
  · intro a b hlt
    exact decide_eq_true hlt.le

theorem number_of_failure? {number : Nat} {result : Except FileError String}
    {failure : Nat × FileError} (h : failure? number result = some failure) :
    failure.1 = number := by
  cases result <;> cases h
  rfl

theorem resultsAlone_increasing (t : FileTree) (sources : List String) :
    ((t.resultsAlone sources).filterMap fun e => failure? e.1 e.2).Pairwise
      fun a b => a.1 < b.1 := by
  have hindices : sources.zipIdx.Pairwise fun s s' => s.2 < s'.2 := by
    rw [← List.pairwise_map (f := Prod.snd), List.zipIdx_map_snd]
    exact List.pairwise_lt_range' 1
  refine List.pairwise_filterMap.mpr (List.pairwise_map.mpr (hindices.imp ?_))
  intro s s' hlt b hb b' hb'
  rw [number_of_failure? hb, number_of_failure? hb']
  exact hlt

/-- The failures are put back in the order of the files. -/
theorem Keeps.failedSources_eq (h : p.Keeps t₀ sources [] ended t)
    (htaken : p.taken = sources.length) : p.failedSources = t₀.failuresAlone sources := by
  have hperm := h.failures.trans ((h.ended_perm htaken).filterMap _)
  have hsorted := mergeSort_failures hperm (resultsAlone_increasing t₀ sources)
  have hzip : t₀.failuresAlone sources =
      sources.zipIdx.filterMap fun s => failure? s.1 ((buildFile s.1).run t₀).1 := by
    conv_lhs => rw [failuresAlone, ← List.zipIdx_map_fst 0 sources, List.filterMap_map]
    rfl
  rw [failedSources, hsorted, hzip, List.filterMap_filterMap, resultsAlone, List.filterMap_map]
  apply List.filterMap_congr
  rintro ⟨source, number⟩ hmem
  have hsource := List.mk_mem_zipIdx_iff_getElem?.mp hmem
  simp only [Function.comp_apply, h.sources_eq]
  cases ((buildFile source).run t₀).1 with
  | ok _ => rfl
  | error e => simp [failure?, hsource]

end WorkerPool

end

end JackVM
