import JackVM.Proofs.SeparateBuilds

namespace JackVM

/-- A task that is some way through the build of a source file: on a tree that is like the shared
one in the places where the build is at work, it goes on as the build does by itself. -/
structure FileTree.Midway (t₀ : FileTree) (source : String)
    (task : FileTask (Except FileError String)) (t : FileTree) : Prop where
  confined : task.Confined (workPaths source)
  run_eq : ∃ u, t₀.SameDirectories u ∧ (t₀.reach (workPaths source)).EqOn t.node? u.node? ∧
    task.run u = (buildFile source).run t₀

/-- What is left to do on the first so many of some source files, each under its number. The shared
tree is as it was but for the places where these are built. -/
structure Tracks (t₀ : FileTree) (sources : List String) (taken : Nat)
    (jobs : List (Nat × FileTask (Except FileError String))) (t : FileTree) : Prop where
  sameDirectories : t₀.SameDirectories t
  midway : ∀ number task, (number, task) ∈ jobs →
    ∃ source, sources[number]? = some source ∧ t₀.Midway source task t
  numbers : (jobs.map Prod.fst).Perm (List.range taken)
  elsewhere : (t₀.reach ((sources.take taken).flatMap workPaths))ᶜ.EqOn t.node? t₀.node?

section

open FileTree

variable {t₀ t : FileTree} {source : String} {sources : List String} {number taken : Nat}
  {jobs jobs' : List (Nat × FileTask (Except FileError String))}

theorem FileTree.Apart.disjoint_of_ne (ha : t₀.Apart sources) {other : String} {number' : Nat}
    (hsource : sources[number]? = some source) (hother : sources[number']? = some other)
    (hne : number ≠ number') {p : Place} (hp : p ∈ t₀.reach (workPaths source)) :
    p ∉ t₀.reach (workPaths other) := by
  obtain ⟨hi, rfl⟩ := List.getElem?_eq_some_iff.mp hsource
  obtain ⟨hj, rfl⟩ := List.getElem?_eq_some_iff.mp hother
  have hpairs := List.pairwise_iff_getElem.mp ha.disjoint
  obtain hlt | hlt := Nat.lt_or_gt_of_ne hne
  · exact hpairs _ _ hi hj hlt p hp
  · exact fun hp' => hpairs _ _ hj hi hlt p hp' hp

/-- A task stays some way through a build while others work elsewhere. -/
theorem FileTree.Midway.of_eqOn {u : FileTree} {task : FileTask (Except FileError String)}
    (h : t₀.Midway source task t) (heq : (t₀.reach (workPaths source)).EqOn u.node? t.node?) :
    t₀.Midway source task u := by
  obtain ⟨view, hview, hlike, hrun⟩ := h.run_eq
  exact ⟨h.confined, view, hview, heq.trans hlike, hrun⟩

namespace Tracks

theorem start (t₀ : FileTree) (sources : List String) : Tracks t₀ sources 0 [] t₀ where
  sameDirectories := .refl t₀
  midway _ _ h := by cases h
  numbers := .refl _
  elsewhere _ _ := rfl

theorem perm (h : Tracks t₀ sources taken jobs t) (hp : jobs'.Perm jobs) :
    Tracks t₀ sources taken jobs' t where
  sameDirectories := h.sameDirectories
  midway number task hmem := h.midway number task (hp.mem_iff.mp hmem)
  numbers := (hp.map _).trans h.numbers
  elsewhere := h.elsewhere

/-- The next file is taken. Nothing has happened where it is built. -/
theorem take (h : Tracks t₀ sources taken jobs t) (ha : t₀.Apart sources)
    (hsource : sources[taken]? = some source) :
    Tracks t₀ sources (taken + 1) ((taken, buildFile source) :: jobs) t where
  sameDirectories := h.sameDirectories
  midway number task hmem := by
    obtain heq | hmem := List.mem_cons.mp hmem
    · cases heq
      refine ⟨source, hsource, buildFile_confined source, t₀, .refl t₀, fun p hp => ?_, rfl⟩
      apply h.elsewhere
      intro hp'
      obtain ⟨other, hother, hp'⟩ := mem_reach_flatMap.mp hp'
      obtain ⟨k, hk, rfl⟩ := List.mem_take_iff_getElem.mp hother
      have hne : k ≠ taken := by omega
      exact ha.disjoint_of_ne (List.getElem?_eq_getElem _) hsource hne hp' hp
    · exact h.midway number task hmem
  numbers := by
    rw [List.map_cons, List.range_succ]
    exact (h.numbers.cons taken).trans (List.perm_append_singleton taken _).symm
  elsewhere := by
    refine h.elsewhere.mono (Set.compl_subset_compl.mpr fun p hp => ?_)
    obtain ⟨other, hother, hp⟩ := mem_reach_flatMap.mp hp
    exact mem_reach_flatMap.mpr ⟨other, (List.take_subset_take_left _ (by omega)) hother, hp⟩

/-- One request of one task is answered by the shared tree as it would be if the task were alone,
and does not concern the others. -/
theorem answer {q : FileRequest} {next : q.Answer → FileTask (Except FileError String)}
    (h : Tracks t₀ sources taken ((number, .ask q next) :: jobs) t) (ha : t₀.Apart sources) :
    Tracks t₀ sources taken ((number, next (t.answer q).1) :: jobs) (t.answer q).2 := by
  obtain ⟨source, hsource, hconfined, view, hview, hlike, hrun⟩ :=
    h.midway number _ (List.mem_cons_self ..)
  cases hconfined with | ask hq hnext
  have hsame := h.sameDirectories
  have hafter := answer_sameDirectories t q
  have hlocates := (hsame.apart ha).locates source (List.mem_of_getElem? hsource)
  have heq : (t₀.reach (workPaths source))ᶜ.EqOn (t.answer q).2.node? t.node? := by
    rw [← hsame.reach_eq]
    exact answer_eqOn hq
  obtain ⟨hanswer, hlike'⟩ := answer_congr (hsame.symm.trans hview) hlocates hq
    (by rwa [hsame.reach_eq])
  rw [hsame.reach_eq] at hlike'
  refine ⟨hsame.trans hafter, fun number' task hmem => ?_, h.numbers, fun p hp => ?_⟩
  · obtain hmem | hmem := List.mem_cons.mp hmem
    · cases hmem
      refine ⟨source, hsource, hnext _, _, hview.trans (answer_sameDirectories view q), hlike', ?_⟩
      rw [hanswer]
      exact hrun
    · obtain ⟨other, hother, hmidway⟩ := h.midway number' task (List.mem_cons_of_mem _ hmem)
      refine ⟨other, hother, hmidway.of_eqOn (heq.mono fun p hp => ?_)⟩
      -- no file is in the hands of two workers
      have hnodup := h.numbers.nodup_iff.mpr List.nodup_range
      have hne : number ≠ number' := by
        rintro rfl
        exact (List.nodup_cons.mp hnodup).1 (List.mem_map.mpr ⟨_, hmem, rfl⟩)
      exact fun hp' => ha.disjoint_of_ne hsource hother hne hp' hp
  · have htaken : number < taken := by
      have hmem := h.numbers.mem_iff.mp (List.mem_cons_self ..)
      simpa using hmem
    have hmem : source ∈ sources.take taken := by
      apply List.mem_of_getElem?
      rw [List.getElem?_take_of_lt htaken, hsource]
    have hp' : p ∉ t₀.reach (workPaths source) := fun hp' =>
      hp (mem_reach_flatMap.mpr ⟨source, hmem, hp'⟩)
    rw [heq hp', h.elsewhere hp]

/-- What is left of one task is done at once. -/
theorem run (ha : t₀.Apart sources) {task : FileTask (Except FileError String)}
    (h : Tracks t₀ sources taken ((number, task) :: jobs) t) :
    Tracks t₀ sources taken ((number, .done (task.run t).1) :: jobs) (task.run t).2 := by
  induction task generalizing t with
  | done result => exact h
  | ask q next ih => exact ih _ (h.answer ha)

theorem taken_le (h : Tracks t₀ sources taken jobs t) : taken ≤ sources.length := by
  by_contra hlt
  have hmem : sources.length ∈ jobs.map Prod.fst :=
    h.numbers.mem_iff.mpr (List.mem_range.mpr (Nat.lt_of_not_le hlt))
  obtain ⟨⟨number, task⟩, hjob, hnumber⟩ := List.mem_map.mp hmem
  obtain ⟨source, hsource, -⟩ := h.midway number task hjob
  obtain ⟨hbound, -⟩ := List.getElem?_eq_some_iff.mp hsource
  exact absurd hnumber hbound.ne

/-- A file whose task is done was built as if by itself. -/
theorem eq_of_done {result : Except FileError String} (h : Tracks t₀ sources taken jobs t)
    (hmem : (number, .done result) ∈ jobs) :
    ∃ source, sources[number]? = some source ∧ result = ((buildFile source).run t₀).1 ∧
      (t₀.reach (workPaths source)).EqOn t.node? ((buildFile source).run t₀).2.node? := by
  obtain ⟨source, hsource, -, view, -, hlike, hrun⟩ := h.midway number _ hmem
  refine ⟨source, hsource, congrArg Prod.fst hrun, ?_⟩
  rwa [← hrun]

end Tracks

end

end JackVM
