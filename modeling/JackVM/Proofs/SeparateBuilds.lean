import JackVM.WorkerPool
import JackVM.Proofs.Confinement

namespace JackVM

/-- Source files whose builds are at work in different places. -/
structure FileTree.Apart (t : FileTree) (sources : List String) : Prop where
  locates : ∀ source ∈ sources, ∀ path ∈ workPaths source, t.Locates path
  disjoint : sources.Pairwise fun source other =>
    ∀ p ∈ t.reach (workPaths source), p ∉ t.reach (workPaths other)

/-- A tree in which each of some source files was built as on another tree by itself. -/
structure FileTree.BuiltAlone (t : FileTree) (sources : List String) (u : FileTree) : Prop where
  sameDirectories : t.SameDirectories u
  alone : ∀ source ∈ sources,
    (t.reach (workPaths source)).EqOn u.node? ((buildFile source).run t).2.node?
  elsewhere : (t.reach (sources.flatMap workPaths))ᶜ.EqOn u.node? t.node?

/-- What is reported of a build that failed. -/
def failure? {α : Type} (a : α) : Except FileError String → Option (α × FileError)
  | .ok _ => none
  | .error e => some (a, e)

/-- The source files that do not build by themselves, with their errors. -/
def FileTree.failuresAlone (t : FileTree) (sources : List String) : List (String × FileError) :=
  sources.filterMap fun source => failure? source ((buildFile source).run t).1

namespace FileTree

variable {t u v : FileTree} {source : String} {sources : List String}

theorem mem_reach_flatMap {p : Place} :
    p ∈ t.reach (sources.flatMap workPaths) ↔
      ∃ source ∈ sources, p ∈ t.reach (workPaths source) := by
  constructor
  · rintro ⟨path, hpath, hp⟩
    obtain ⟨source, hsource, hpath⟩ := List.mem_flatMap.mp hpath
    exact ⟨source, hsource, path, hpath, hp⟩
  · rintro ⟨source, hsource, path, hpath, hp⟩
    exact ⟨path, List.mem_flatMap.mpr ⟨source, hsource, hpath⟩, hp⟩

/-- There is only one way for some files to have been built each by itself. -/
theorem BuiltAlone.node?_eq (hu : t.BuiltAlone sources u) (hv : t.BuiltAlone sources v)
    (p : Place) : u.node? p = v.node? p := by
  by_cases hp : p ∈ t.reach (sources.flatMap workPaths)
  · obtain ⟨source, hsource, hp⟩ := mem_reach_flatMap.mp hp
    rw [hu.alone source hsource hp, hv.alone source hsource hp]
  · rw [hu.elsewhere hp, hv.elsewhere hp]

theorem SameDirectories.apart (h : t.SameDirectories u) (ha : t.Apart sources) :
    u.Apart sources where
  locates source hsource path hpath := h.locates (ha.locates source hsource path hpath)
  disjoint := by simpa only [h.reach_eq] using ha.disjoint

theorem Apart.tail (ha : t.Apart (source :: sources)) : t.Apart sources where
  locates other hother := ha.locates other (List.mem_cons_of_mem _ hother)
  disjoint := (List.pairwise_cons.mp ha.disjoint).2

/-- The build of a file is the same where the places it is at work in are. -/
theorem Apart.build_congr (ha : t.Apart sources) (hsource : source ∈ sources)
    (h : t.SameDirectories u) (heq : (t.reach (workPaths source)).EqOn t.node? u.node?) :
    ((buildFile source).run t).1 = ((buildFile source).run u).1 ∧
      (t.reach (workPaths source)).EqOn ((buildFile source).run t).2.node?
        ((buildFile source).run u).2.node? :=
  (buildFile_confined source).run_congr h (ha.locates source hsource) heq

end FileTree

open FileTree FileTask

variable {t : FileTree} {source : String} {sources : List String}

theorem buildEach_run_cons (source : String) (sources : List String) (t : FileTree) :
    (buildEach (source :: sources)).run t =
      ((failure? source ((buildFile source).run t).1).toList ++
          ((buildEach sources).run ((buildFile source).run t).2).1,
        ((buildEach sources).run ((buildFile source).run t).2).2) := by
  rw [buildEach, bind_eq, run_bind, bind_eq, run_bind]
  cases ((buildFile source).run t).1 <;> rfl

/-- The builds of the files that are left do not depend on one that was made before them. -/
theorem builds_after (ha : t.Apart (source :: sources)) {other : String}
    (hother : other ∈ sources) :
    ((buildFile other).run ((buildFile source).run t).2).1 = ((buildFile other).run t).1 ∧
      (t.reach (workPaths other)).EqOn
        ((buildFile other).run ((buildFile source).run t).2).2.node?
        ((buildFile other).run t).2.node? := by
  have hdisjoint := (List.pairwise_cons.mp ha.disjoint).1 other hother
  have hkeep : (t.reach (workPaths other)).EqOn t.node? ((buildFile source).run t).2.node? :=
    fun p hp => ((buildFile_confined source).run_eqOn t fun hp' => hdisjoint p hp' hp).symm
  obtain ⟨hresult, htree⟩ := ha.build_congr (List.mem_cons_of_mem _ hother)
    (run_sameDirectories (buildFile source) t) hkeep
  exact ⟨hresult.symm, htree.symm⟩

theorem failuresAlone_after (ha : t.Apart (source :: sources)) :
    ((buildFile source).run t).2.failuresAlone sources = t.failuresAlone sources := by
  apply List.filterMap_congr
  intro other hother
  rw [(builds_after ha hother).1]

theorem builtAlone_cons {u : FileTree} (ha : t.Apart (source :: sources))
    (hbuilt : ((buildFile source).run t).2.BuiltAlone sources u) :
    t.BuiltAlone (source :: sources) u := by
  have hsame := run_sameDirectories (buildFile source) t
  have hdisjoint := (List.pairwise_cons.mp ha.disjoint).1
  have halone := hbuilt.alone
  have helsewhere := hbuilt.elsewhere
  simp only [hsame.reach_eq] at halone helsewhere
  refine ⟨hsame.trans hbuilt.sameDirectories, ?_, ?_⟩
  · intro other hother p hp
    obtain rfl | hother := List.mem_cons.mp hother
    · apply helsewhere
      intro hp'
      obtain ⟨after, hafter, hp'⟩ := mem_reach_flatMap.mp hp'
      exact hdisjoint after hafter p hp hp'
    · rw [halone other hother hp, (builds_after ha hother).2 hp]
  · intro p hp
    have hfirst : p ∉ t.reach (workPaths source) := fun hmem =>
      hp (mem_reach_flatMap.mpr ⟨source, List.mem_cons_self .., hmem⟩)
    have hothers : p ∉ t.reach (sources.flatMap workPaths) := by
      intro hmem
      obtain ⟨other, hother, hmem⟩ := mem_reach_flatMap.mp hmem
      exact hp (mem_reach_flatMap.mpr ⟨other, List.mem_cons_of_mem _ hother, hmem⟩)
    rw [helsewhere hothers, (buildFile_confined source).run_eqOn t hfirst]

/-- Files that are built one after the other are each built as if by itself. -/
theorem buildEach_alone (ha : t.Apart sources) :
    ((buildEach sources).run t).1 = t.failuresAlone sources ∧
      t.BuiltAlone sources ((buildEach sources).run t).2 := by
  induction sources generalizing t with
  | nil => exact ⟨rfl, .refl t, by simp, fun _ _ => rfl⟩
  | cons source sources ih =>
    have hsame := run_sameDirectories (buildFile source) t
    obtain ⟨hfailures, hbuilt⟩ := ih (hsame.apart ha.tail)
    rw [buildEach_run_cons, hfailures, failuresAlone_after ha]
    refine ⟨?_, builtAlone_cons ha hbuilt⟩
    simp only [failuresAlone, List.filterMap_cons]
    cases failure? source ((buildFile source).run t).1 <;> rfl

end JackVM
