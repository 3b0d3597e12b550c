import JackVM.Proofs.OutputPaths

namespace JackVM

/-- What is left of a path without the slashes and the single dots behind its last part. -/
structure TrimsTo (path kept : String) : Prop where
  exists_tail : ∃ tail : String, path = kept ++ tail ∧ Trailing tail.toList
  not_slash : ¬ ['/'] <:+ kept.toList
  not_dot : ¬ ['/', '.'] <:+ kept.toList

/-- Behind its last slash a path has a stem, which is not empty, and behind the last dot an
extension. -/
def EndsIn (path front stem extension : String) : Prop :=
  PathSplit path.toList front.toList stem.toList extension.toList []

/-- The name of a path's file has an extension, and a dot for its stem. -/
def HasDotStem (path : String) : Prop :=
  ∃ front extension, EndsIn path front "." extension ∧ extension ≠ ""

section Trimming

variable {path kept other : String}

theorem dropTrailing_eq_self {back : List Char} (hslash : ¬ ['/'] <+: back)
    (hdot : ¬ ['.', '/'] <+: back) : dropTrailing back = back := by
  fun_cases dropTrailing back with
  | case1 cs => exact absurd ⟨cs, rfl⟩ hslash
  | case2 cs => exact absurd ⟨cs, rfl⟩ hdot
  | case3 => rfl

theorem dropTrailing_stops (back : List Char) :
    ¬ ['/'] <+: dropTrailing back ∧ ¬ ['.', '/'] <+: dropTrailing back := by
  fun_induction dropTrailing back with
  | case1 cs ih => exact ih
  | case2 cs ih => exact ih
  | case3 back hslash hdot =>
    constructor
    · rintro ⟨cs, rfl⟩
      exact hslash cs rfl
    · rintro ⟨cs, rfl⟩
      exact hdot cs rfl

theorem trimsTo_iff :
    TrimsTo path kept ↔ kept.toList = (dropTrailing path.toList.reverse).reverse := by
  constructor
  · rintro ⟨⟨tail, rfl, htail⟩, hslash, hdot⟩
    rw [← List.reverse_prefix] at hslash hdot
    rw [String.toList_append, dropTrailing_of_trailing htail, dropTrailing_eq_self hslash hdot,
      List.reverse_reverse]
  · intro hkept
    obtain ⟨tail, htail, heq⟩ := exists_trailing path.toList.reverse
    obtain ⟨hslash, hdot⟩ := dropTrailing_stops path.toList.reverse
    refine ⟨⟨.ofList tail, ?_, by simpa using htail⟩, ?_, ?_⟩
    · apply String.toList_inj.mp
      simpa [hkept] using heq
    · rwa [hkept, ← List.reverse_prefix, List.reverse_reverse]
    · rwa [hkept, ← List.reverse_prefix, List.reverse_reverse]

theorem TrimsTo.unique (h : TrimsTo path kept) (h' : TrimsTo path other) : kept = other :=
  String.toList_inj.mp ((trimsTo_iff.mp h).trans (trimsTo_iff.mp h').symm)

theorem existsUnique_trimsTo (path : String) : ∃! kept, TrimsTo path kept := by
  refine ⟨.ofList (dropTrailing path.toList.reverse).reverse, ?_, fun kept h => ?_⟩
  · exact trimsTo_iff.mpr String.toList_ofList
  · apply String.toList_inj.mp
    rw [trimsTo_iff.mp h, String.toList_ofList]

end Trimming

section Renewal

variable {path front ext tail new : List Char}

/-- With a new extension a path either names no file or ends in that extension. Its stem is then a
dot only if it was before and something behind the name did not count. -/
theorem renewal_cases (hslash : '/' ∉ new) (hdot : '.' ∉ new) (path : List Char) :
    isFileName (splitLast (withExtension path new)).2 = false ∨
      (∃ front stem, PathSplit (withExtension path new) front stem new [] ∧ stem ≠ ['.']) ∨
      ∃ front ext tail, PathSplit path front ['.'] ext tail ∧ ext ≠ [] ∧ tail ≠ [] := by
  obtain hnoFile | ⟨front, name, tail, hbare⟩ | ⟨front, stem, ext, tail, hsplit, hext⟩ :=
    path_cases path
  · left
    rwa [withExtension_of_noFile hnoFile]
  · obtain ⟨hne, hname, -⟩ := isFileName_iff.mp hbare.isFileName
    refine .inr (.inl ⟨front, name, ?_, hname⟩)
    rw [hbare.withExtension_eq]
    exact pathSplit_append hbare.isFront hne hbare.slash_notMem hslash hdot
  · -- only a stem that is a dot can be left as two dots, which name no file
    by_cases hstem : stem = ['.']
    · subst hstem
      by_cases htail : tail = []
      · subst htail
        left
        rw [hsplit.withExtension_dots, splitLast_dots hsplit.isFront]
        rfl
      · exact .inr (.inr ⟨front, ext, tail, hsplit, hext rfl, htail⟩)
    · refine .inr (.inl ⟨front, stem, ?_, hstem⟩)
      rw [hsplit.withExtension_eq fun h => absurd h hstem]
      exact pathSplit_append hsplit.isFront hsplit.stem_ne_nil hsplit.slash_notMem_stem hslash hdot

/-- Where the stem is a dot and something behind the name does not count, the dot comes to stand
behind another one at the second time. -/
theorem PathSplit.renewal (h : PathSplit path front ['.'] ext tail) (hext : ext ≠ [])
    (htail : tail ≠ []) (hslash : '/' ∉ new) (hdot : '.' ∉ new) :
    PathSplit (withExtension path new) front ['.'] new [] ∧
      withExtension (withExtension path new) new = front ++ ['.', '.'] := by
  have hsplit : PathSplit (withExtension path new) front ['.'] new [] := by
    rw [h.withExtension_eq fun _ => ⟨hext, htail⟩]
    exact pathSplit_append h.isFront h.stem_ne_nil h.slash_notMem_stem hslash hdot
  exact ⟨hsplit, hsplit.withExtension_dots new⟩

theorem extension?_withExtension (hslash : '/' ∉ new) (hdot : '.' ∉ new) (hnew : new ≠ [])
    (path : List Char) :
    extension? (withExtension path new) = none ∨
      extension? (withExtension path new) = some new := by
  obtain hnoFile | ⟨front, stem, hsplit, hstem⟩ | ⟨front, ext, tail, hsplit, hext, htail⟩ :=
    renewal_cases hslash hdot path
  · exact .inl (extension?_of_noFile hnoFile)
  · exact .inr (hsplit.extension?_eq fun h => absurd h hstem)
  · exact .inr ((hsplit.renewal hext htail hslash hdot).1.extension?_eq fun _ => hnew)

/-- An extension is replaced by itself, but for a stem that is a dot. -/
theorem withExtension_withExtension_iff (hslash : '/' ∉ new) (hdot : '.' ∉ new) (hnew : new ≠ [])
    (path : List Char) :
    withExtension (withExtension path new) new = withExtension path new ↔
      ¬ ∃ front ext tail, PathSplit path front ['.'] ext tail ∧ ext ≠ [] ∧ tail ≠ [] := by
  constructor
  · rintro hsame ⟨front, ext, tail, hsplit, hext, htail⟩
    obtain ⟨honce, htwice⟩ := hsplit.renewal hext htail hslash hdot
    have hpath := honce.path_eq
    rw [← hsame, htwice] at hpath
    simp [hnew] at hpath
  · intro hnot
    obtain hnoFile | ⟨front, stem, hsplit, hstem⟩ | hdots := renewal_cases hslash hdot path
    · exact withExtension_of_noFile hnoFile new
    · have htwice := hsplit.withExtension_eq (fun h => absurd h hstem) new
      rw [htwice]
      simpa using hsplit.path_eq.symm
    · exact absurd hdots hnot

end Renewal

section Sources

variable {path other kept kept' front stem extension tail : String}

/-- A path that is split at its extension is trimmed just behind it. -/
theorem PathSplit.trimsTo
    (h : PathSplit path.toList front.toList stem.toList extension.toList tail.toList) :
    TrimsTo path (front ++ stem ++ "." ++ extension) := by
  have hdot : stem.toList ++ '.' :: extension.toList ≠ ['.'] := by
    simp [List.append_eq_singleton_iff, h.stem_ne_nil]
  have hslash : '/' ∉ stem.toList ++ '.' :: extension.toList := by
    simp [h.slash_notMem_stem, h.slash_notMem_extension]
  rw [trimsTo_iff, h.path_eq, dropTrailing_of_trailing h.trailing,
    dropTrailing_of_name (by simp) hdot hslash, List.reverse_reverse]
  simp

theorem TrimsTo.eq_kept_iff (h : TrimsTo path kept)
    (hsplit : PathSplit path.toList front.toList stem.toList extension.toList tail.toList) :
    path = kept ↔ tail = "" := by
  have hpath : path.toList = kept.toList ++ tail.toList := by
    rw [h.unique hsplit.trimsTo]
    simpa using hsplit.path_eq
  rw [← String.toList_inj, hpath]
  simp

/-- What does not count stands behind the extension. -/
theorem TrimsTo.endsIn_iff (h : TrimsTo path kept) : EndsIn kept front stem extension ↔
    ∃ tail : String,
      PathSplit path.toList front.toList stem.toList extension.toList tail.toList := by
  constructor
  · intro hend
    obtain ⟨tail, rfl, htail⟩ := h.exists_tail
    refine ⟨tail, ?_⟩
    rw [String.toList_append, hend.path_eq, List.append_nil]
    exact hend.withTail htail
  · rintro ⟨tail, hsplit⟩
    obtain rfl := h.unique hsplit.trimsTo
    simpa [EndsIn] using hsplit.withTail .nil

theorem TrimsTo.isSource_iff (h : TrimsTo path kept) :
    isSource path = true ↔ ∃ front stem, EndsIn kept front stem "jack" := by
  simp only [h.endsIn_iff]
  exact JackVM.isSource_iff

theorem TrimsTo.outputPath_eq (h : TrimsTo path kept) (hend : EndsIn kept front stem "jack") :
    outputPath path =
      if stem = "." ∧ path = kept then front ++ ".." else front ++ stem ++ ".vm" := by
  obtain ⟨tail, hsplit⟩ := h.endsIn_iff.mp hend
  simp only [h.eq_kept_iff hsplit]
  split_ifs with hdots
  · obtain ⟨rfl, rfl⟩ := hdots
    exact outputPath_dots hsplit
  · exact JackVM.outputPath_eq hsplit fun hstem htail => hdots ⟨hstem, htail⟩

/-- The output of a path is never a source itself. -/
theorem isSource_outputPath (path : String) : isSource (outputPath path) = false := by
  have hcases := @extension?_withExtension codeExtension.toList (by decide) (by decide) (by decide)
    path.toList
  rw [isSource, outputPath, String.toList_ofList]
  obtain hnone | hsome := hcases
  · rw [hnone]
    rfl
  · rw [hsome]
    decide

theorem TrimsTo.exists_ending (h : TrimsTo path kept) (hs : isSource path = true) :
    ∃ base, ∃ ending ∈ [".", ".vm"], kept = base ++ ".jack" ∧ outputPath path = base ++ ending := by
  obtain ⟨front, stem, hend⟩ := h.isSource_iff.mp hs
  have hkept : kept = front ++ stem ++ ".jack" := by
    apply String.toList_inj.mp
    simpa using hend.path_eq
  have houtput := h.outputPath_eq hend
  split_ifs at houtput with hdots
  · refine ⟨front ++ stem, ".", by simp, hkept, ?_⟩
    rw [houtput, hdots.1, String.append_assoc]
    rfl
  · exact ⟨front ++ stem, ".vm", by simp, hkept, houtput⟩

/-- Sources that are different, apart from what does not count, have different outputs. -/
theorem TrimsTo.eq_of_outputPath (h : TrimsTo path kept) (h' : TrimsTo other kept')
    (hs : isSource path = true) (hs' : isSource other = true)
    (heq : outputPath path = outputPath other) : kept = kept' := by
  obtain ⟨base, ending, hending, rfl, houtput⟩ := h.exists_ending hs
  obtain ⟨base', ending', hending', rfl, houtput'⟩ := h'.exists_ending hs'
  rw [houtput, houtput'] at heq
  rw [base_eq_of_append (by decide) hending hending' heq]

theorem TrimsTo.outputPath_outputPath_iff (h : TrimsTo path kept) :
    outputPath (outputPath path) = outputPath path ↔ ¬ (path ≠ kept ∧ HasDotStem kept) := by
  have hiff := @withExtension_withExtension_iff codeExtension.toList (by decide) (by decide)
    (by decide) path.toList
  rw [outputPath, outputPath, String.toList_ofList, String.ofList_inj, hiff]
  refine not_congr ⟨?_, ?_⟩
  · rintro ⟨front, ext, tail, hsplit, hext, htail⟩
    have hsplit' : PathSplit path.toList (String.ofList front).toList ".".toList
        (String.ofList ext).toList (String.ofList tail).toList := by
      simpa using hsplit
    refine ⟨?_, _, _, h.endsIn_iff.mpr ⟨_, hsplit'⟩, by simpa using hext⟩
    rw [ne_eq, h.eq_kept_iff hsplit']
    simpa using htail
  · rintro ⟨hne, front, extension, hend, hext⟩
    obtain ⟨tail, hsplit⟩ := h.endsIn_iff.mp hend
    refine ⟨_, _, _, hsplit, by simpa using hext, ?_⟩
    rw [ne_eq, h.eq_kept_iff hsplit] at hne
    simpa using hne

end Sources

/-- A path is a source just if its last part, apart from the slashes and single dots behind it, is a
stem with the extension `jack`. Its output is told by the text up to there, with `vm` for `jack`. No
output is a source, sources whose texts up to there differ have different outputs, and the output of
an output is the same again. The exception is a stem that is a dot, since two dots name no file:
where nothing stands behind the name of the source they are all that is left of it, and where
something does, it is the output that has another output. -/
theorem outputPath_followsText (path : String) :
    (∃! kept, TrimsTo path kept) ∧ ∀ kept, TrimsTo path kept →
      (isSource path = true ↔ ∃ front stem, EndsIn kept front stem "jack") ∧
      (∀ front stem, EndsIn kept front stem "jack" → outputPath path =
        if stem = "." ∧ path = kept then front ++ ".." else front ++ stem ++ ".vm") ∧
      isSource (outputPath path) = false ∧
      (∀ other kept', TrimsTo other kept' → isSource path = true → isSource other = true →
        kept ≠ kept' → outputPath path ≠ outputPath other) ∧
      (outputPath (outputPath path) = outputPath path ↔ ¬ (path ≠ kept ∧ HasDotStem kept)) := by
  refine ⟨existsUnique_trimsTo path, fun kept h => ?_⟩
  refine ⟨h.isSource_iff, fun front stem => h.outputPath_eq, isSource_outputPath path, ?_,
    h.outputPath_outputPath_iff⟩
  intro other kept' h' hs hs' hne heq
  exact hne (h.eq_of_outputPath h' hs hs' heq)

example : outputPath "a/..jack/" = "a/..vm" ∧ outputPath "a/..vm" = "a/.." := by decide

end JackVM
