import JackVM.SourcePath
import Mathlib.Data.List.Basic
import Mathlib.Data.List.TakeWhile

namespace JackVM

/-- Whether a text can stand in front of a name in a path: it is empty or ends in a slash. -/
def IsFront (front : List Char) : Prop :=
  front = [] ∨ ∃ cs, front = cs ++ ['/']

/-- What may stand behind the last part of a path and does not count: slashes, and single dots
behind slashes. -/
inductive Trailing : List Char → Prop
  | nil : Trailing []
  | slash {cs : List Char} : Trailing cs → Trailing (cs ++ ['/'])
  | dot {cs : List Char} : Trailing cs → Trailing (cs ++ ['/', '.'])

/-- A path whose last part is a stem, a dot and an extension. -/
structure PathSplit (path front stem extension tail : List Char) : Prop where
  path_eq : path = front ++ (stem ++ '.' :: extension) ++ tail
  isFront : IsFront front
  stem_ne_nil : stem ≠ []
  slash_notMem_stem : '/' ∉ stem
  slash_notMem_extension : '/' ∉ extension
  dot_notMem_extension : '.' ∉ extension
  trailing : Trailing tail

/-- A path whose last part is the name of a file and has no extension. -/
structure BareSplit (path front name tail : List Char) : Prop where
  path_eq : path = front ++ name ++ tail
  isFront : IsFront front
  isFileName : isFileName name = true
  slash_notMem : '/' ∉ name
  splitName_eq : splitName name = (name, none)
  trailing : Trailing tail

variable {path front name stem ext tail new cs : List Char}

theorem Trailing.take (h : Trailing tail) (n : Nat) : Trailing (tail.take n) := by
  induction h generalizing n with
  | nil => simpa using Trailing.nil
  | @slash cs h ih =>
    by_cases hn : n ≤ cs.length
    · rw [List.take_append_of_le_length hn]
      exact ih n
    · rw [List.take_of_length_le (by simp; omega)]
      exact h.slash
  | @dot cs h ih =>
    by_cases hn : n ≤ cs.length
    · rw [List.take_append_of_le_length hn]
      exact ih n
    · by_cases hone : n = cs.length + 1
      · rw [hone, List.take_append, List.take_of_length_le (Nat.le_succ _),
          Nat.add_sub_cancel_left]
        exact h.slash
      · rw [List.take_of_length_le (by simp; omega)]
        exact h.dot

theorem dropTrailing_of_trailing (h : Trailing tail) (cs : List Char) :
    dropTrailing (cs ++ tail).reverse = dropTrailing cs.reverse := by
  induction h with
  | nil => rw [List.append_nil]
  | slash _ ih | dot _ ih => simpa [dropTrailing] using ih

theorem exists_trailing (back : List Char) :
    ∃ tail, Trailing tail ∧ back.reverse = (dropTrailing back).reverse ++ tail := by
  fun_induction dropTrailing back with
  | case1 cs ih =>
    obtain ⟨tail, ht, heq⟩ := ih
    exact ⟨tail ++ ['/'], ht.slash, by simp [heq]⟩
  | case2 cs ih =>
    obtain ⟨tail, ht, heq⟩ := ih
    exact ⟨tail ++ ['/', '.'], ht.dot, by simp [heq]⟩
  | case3 cs => exact ⟨[], .nil, by simp⟩

/-- A name other than a single dot ends in a character that stops the dropping. -/
theorem dropTrailing_of_name (hne : name ≠ []) (hdot : name ≠ ['.']) (hslash : '/' ∉ name) :
    dropTrailing (front ++ name).reverse = (front ++ name).reverse := by
  rw [List.reverse_append]
  have hne' : name.reverse ≠ [] := by simpa using hne
  have hdot' : name.reverse ≠ ['.'] := by simpa [List.reverse_eq_iff] using hdot
  have hslash' : '/' ∉ name.reverse := by simpa using hslash
  match hback : name.reverse with
  | [] => exact absurd hback hne'
  | ['.'] => exact absurd hback hdot'
  -- a dot is dropped only if a slash comes before it, which no other part of the name is
  | [c] => rw [List.singleton_append, dropTrailing] <;> grind
  | c :: d :: back => rw [List.cons_append, List.cons_append, dropTrailing] <;> grind

theorem notMem_takeWhile_ne (c : Char) (cs : List Char) : c ∉ cs.takeWhile (· != c) := by
  intro hmem
  have hne := List.mem_takeWhile_imp hmem
  simp at hne

theorem eq_of_dropWhile_ne {c d : Char} {rest : List Char}
    (h : cs.dropWhile (· != c) = d :: rest) : d = c := by
  simpa [h] using List.head?_dropWhile_not (· != c) cs

theorem takeWhile_dropWhile_ne_append {c : Char} (h : c ∉ cs) (rest : List Char) :
    (cs ++ rest).takeWhile (· != c) = cs ++ rest.takeWhile (· != c) ∧
      (cs ++ rest).dropWhile (· != c) = rest.dropWhile (· != c) := by
  have hpass : ∀ d ∈ cs, (d != c) = true := by
    intro d hd
    rw [bne_iff_ne]
    rintro rfl
    exact h hd
  exact ⟨List.takeWhile_append_of_pos hpass, List.dropWhile_append_of_pos hpass⟩

theorem splitLast_append (hfront : IsFront front) (hne : name ≠ []) (hdot : name ≠ ['.'])
    (hslash : '/' ∉ name) (htail : Trailing tail) :
    splitLast (front ++ name ++ tail) = (front, name) := by
  have hback : dropTrailing (front ++ name ++ tail).reverse = name.reverse ++ front.reverse := by
    rw [dropTrailing_of_trailing htail, dropTrailing_of_name hne hdot hslash, List.reverse_append]
  have hstop : front.reverse.takeWhile (· != '/') = [] ∧
      front.reverse.dropWhile (· != '/') = front.reverse := by
    rcases hfront with rfl | ⟨cs, rfl⟩ <;> simp
  have hpass := takeWhile_dropWhile_ne_append (mt List.mem_reverse.mp hslash) front.reverse
  simp only [splitLast, hback, hpass, hstop, List.append_nil, List.reverse_reverse]

theorem splitLast_dots (h : IsFront front) :
    splitLast (front ++ ['.', '.']) = (front, ['.', '.']) := by
  have hlast := splitLast_append h (List.cons_ne_nil '.' ['.']) (by simp) (by simp) .nil
  rwa [List.append_nil] at hlast

theorem exists_splitLast (path : List Char) :
    ∃ tail, path = (splitLast path).1 ++ (splitLast path).2 ++ tail ∧
      IsFront (splitLast path).1 ∧ '/' ∉ (splitLast path).2 ∧ Trailing tail := by
  obtain ⟨tail, htail, heq⟩ := exists_trailing path.reverse
  simp only [splitLast]
  refine ⟨tail, ?_, ?_, ?_, htail⟩
  · rw [← List.reverse_append, List.takeWhile_append_dropWhile, ← heq, List.reverse_reverse]
  · cases hrest : (dropTrailing path.reverse).dropWhile (· != '/') with
    | nil => exact .inl rfl
    | cons c rest =>
      exact .inr ⟨rest.reverse, by rw [List.reverse_cons, eq_of_dropWhile_ne hrest]⟩
  · exact mt List.mem_reverse.mp (notMem_takeWhile_ne '/' _)

theorem splitName_append (hstem : stem ≠ []) (hext : '.' ∉ ext) :
    splitName (stem ++ '.' :: ext) = (stem, some ext) := by
  obtain ⟨c, back, hback⟩ := List.exists_cons_of_ne_nil (List.reverse_ne_nil_iff.mpr hstem)
  have hname : (stem ++ '.' :: ext).reverse = ext.reverse ++ '.' :: c :: back := by
    rw [List.reverse_append, List.reverse_cons, hback, List.append_assoc, List.singleton_append]
  have hstem' : stem = (c :: back).reverse := by rw [← hback, List.reverse_reverse]
  have hpass := takeWhile_dropWhile_ne_append (mt List.mem_reverse.mp hext) ('.' :: c :: back)
  simp only [splitName, hname, hpass]
  simp [hstem']

theorem eq_of_splitName (h : (splitName name).2 = some ext) :
    ∃ stem, stem ≠ [] ∧ name = stem ++ '.' :: ext ∧ '.' ∉ ext := by
  simp only [splitName] at h
  split at h
  next d c back hrest =>
    cases Option.some.inj h
    refine ⟨(c :: back).reverse, by simp, ?_, mt List.mem_reverse.mp (notMem_takeWhile_ne '.' _)⟩
    have hname := List.takeWhile_append_dropWhile (p := (· != '.')) (l := name.reverse)
    rw [hrest, eq_of_dropWhile_ne hrest] at hname
    calc
      name = (name.reverse.takeWhile (· != '.') ++ '.' :: c :: back).reverse := by
        rw [hname, List.reverse_reverse]
      _ = (c :: back).reverse ++ '.' :: (name.reverse.takeWhile (· != '.')).reverse := by simp
  next => cases h

namespace PathSplit

/-- The last part of a path with an extension names a file, unless both its dots stand alone. -/
theorem splitLast_eq (h : PathSplit path front stem ext tail) :
    splitLast path = (front, stem ++ '.' :: ext) := by
  have hne : stem ++ '.' :: ext ≠ [] := by simp
  have hdot : stem ++ '.' :: ext ≠ ['.'] := by
    simp [List.append_eq_singleton_iff, h.stem_ne_nil]
  have hslash : '/' ∉ stem ++ '.' :: ext := by
    simp [h.slash_notMem_stem, h.slash_notMem_extension]
  rw [h.path_eq, splitLast_append h.isFront hne hdot hslash h.trailing]

theorem isFileName (h : PathSplit path front stem ext tail) (hdots : stem = ['.'] → ext ≠ []) :
    isFileName (stem ++ '.' :: ext) = true := by
  have hdot : stem ++ '.' :: ext ≠ ['.'] := by
    simp [List.append_eq_singleton_iff, h.stem_ne_nil]
  have htwo : stem ++ '.' :: ext ≠ ['.', '.'] := by
    intro heq
    have hstem := h.stem_ne_nil
    match stem, hstem with
    | [c], _ =>
      simp only [List.singleton_append, List.cons.injEq] at heq
      exact hdots (by rw [heq.1]) heq.2.2
    | _ :: _ :: _, _ => simp at heq
  simp [JackVM.isFileName, hdot, htwo]

theorem extension?_eq (h : PathSplit path front stem ext tail) (hdots : stem = ['.'] → ext ≠ []) :
    extension? path = some ext := by
  simp only [extension?, h.splitLast_eq, h.isFileName hdots, ↓reduceIte,
    splitName_append h.stem_ne_nil h.dot_notMem_extension]

theorem replaceExtension_eq (h : PathSplit path front stem ext tail)
    (hdots : stem = ['.'] → ext ≠ []) (new : List Char) :
    replaceExtension path new = front ++ stem ++ '.' :: new := by
  simp only [replaceExtension, h.splitLast_eq, h.isFileName hdots, ↓reduceIte,
    splitName_append h.stem_ne_nil h.dot_notMem_extension]

/-- Something else that does not count may stand behind the extension. -/
theorem withTail (h : PathSplit path front stem ext tail) (hcs : Trailing cs) :
    PathSplit (front ++ (stem ++ '.' :: ext) ++ cs) front stem ext cs :=
  { h with path_eq := rfl, trailing := hcs }

/-- What is left when as many characters as the extension has are taken off the end: behind the
name there may be enough others. -/
theorem take (h : PathSplit path front stem ext tail) :
    PathSplit (path.take (path.length - ext.length)) front stem (ext.take tail.length)
      (tail.take (tail.length - ext.length)) where
  path_eq := by
    have hlength : (front ++ (stem ++ '.' :: ext) ++ tail).length - ext.length =
        (front ++ stem ++ ['.']).length + tail.length := by
      simp
      omega
    have hsplit : front ++ (stem ++ '.' :: ext) ++ tail =
        (front ++ stem ++ ['.']) ++ (ext ++ tail) := by simp
    rw [h.path_eq, hlength, hsplit, List.take_length_add_append, List.take_append]
    simp
  isFront := h.isFront
  stem_ne_nil := h.stem_ne_nil
  slash_notMem_stem := h.slash_notMem_stem
  slash_notMem_extension := mt List.mem_of_mem_take h.slash_notMem_extension
  dot_notMem_extension := mt List.mem_of_mem_take h.dot_notMem_extension
  trailing := h.trailing.take _

theorem withExtension_eq (h : PathSplit path front stem ext tail)
    (hdots : stem = ['.'] → ext ≠ [] ∧ tail ≠ []) (new : List Char) :
    withExtension path new = front ++ stem ++ '.' :: new := by
  have hleft (hstem : stem = ['.']) : ext.take tail.length ≠ [] := by
    simp [List.take_eq_nil_iff, hdots hstem]
  simp only [withExtension, h.extension?_eq fun hstem => (hdots hstem).1]
  exact h.take.replaceExtension_eq hleft new

/-- Behind a stem that is a dot, the dot in front of an extension makes two dots, which name no file
and have no extension to replace. -/
theorem withExtension_dots (h : PathSplit path front ['.'] ext []) (new : List Char) :
    withExtension path new = front ++ ['.', '.'] := by
  have hsplit := splitLast_dots h.isFront
  have hstay : replaceExtension (front ++ ['.', '.']) new = front ++ ['.', '.'] := by
    simp [replaceExtension, hsplit, JackVM.isFileName]
  by_cases hext : ext = []
  · have hpath : path = front ++ ['.', '.'] := by simp [h.path_eq, hext]
    have hnone : extension? (front ++ ['.', '.']) = none := by
      simp [extension?, hsplit, JackVM.isFileName]
    simp only [withExtension, hpath, hnone, hstay]
  · have hleft : path.take (path.length - ext.length) = front ++ ['.', '.'] := by
      simpa using h.take.path_eq
    simp only [withExtension, h.extension?_eq fun _ => hext, hleft, hstay]

end PathSplit

theorem splitName_of_none (h : (splitName name).2 = none) : splitName name = (name, none) := by
  simp only [splitName] at h ⊢
  split at h
  next => cases h
  next => rfl

theorem isFileName_iff : isFileName name = true ↔ name ≠ [] ∧ name ≠ ['.'] ∧ name ≠ ['.', '.'] := by
  simp [isFileName, and_assoc]

/-- The last part of a path names no file, or a file without an extension, or one with one. -/
theorem path_cases (path : List Char) :
    isFileName (splitLast path).2 = false ∨ (∃ front name tail, BareSplit path front name tail) ∨
      ∃ front stem ext tail, PathSplit path front stem ext tail ∧ (stem = ['.'] → ext ≠ []) := by
  obtain ⟨tail, hpath, hfront, hslash, htail⟩ := exists_splitLast path
  cases hname : isFileName (splitLast path).2 with
  | false => exact .inl rfl
  | true =>
    right
    cases hext : (splitName (splitLast path).2).2 with
    | none => exact .inl ⟨_, _, tail, hpath, hfront, hname, hslash, splitName_of_none hext, htail⟩
    | some ext =>
      obtain ⟨stem, hstem, heq, hdot⟩ := eq_of_splitName hext
      rw [heq] at hpath hslash hname
      simp only [List.mem_append, List.mem_cons, not_or] at hslash
      refine .inr ⟨(splitLast path).1, stem, ext, tail, ?_, ?_⟩
      · exact ⟨hpath, hfront, hstem, hslash.1, hslash.2.2, hdot, htail⟩
      · rintro rfl rfl
        simp [isFileName] at hname

theorem extension?_of_noFile (h : isFileName (splitLast path).2 = false) :
    extension? path = none := by
  simp [extension?, h]

/-- The extension of a path that names no file cannot be replaced. -/
theorem withExtension_of_noFile (h : isFileName (splitLast path).2 = false) (new : List Char) :
    withExtension path new = path := by
  simp [withExtension, extension?_of_noFile h, replaceExtension, h]

namespace BareSplit

theorem splitLast_eq (h : BareSplit path front name tail) : splitLast path = (front, name) := by
  obtain ⟨hne, hdot, -⟩ := isFileName_iff.mp h.isFileName
  rw [h.path_eq, splitLast_append h.isFront hne hdot h.slash_notMem h.trailing]

theorem extension?_eq (h : BareSplit path front name tail) : extension? path = none := by
  simp [extension?, h.splitLast_eq, h.isFileName, h.splitName_eq]

theorem withExtension_eq (h : BareSplit path front name tail) (new : List Char) :
    withExtension path new = front ++ name ++ '.' :: new := by
  simp [withExtension, h.extension?_eq, replaceExtension, h.splitLast_eq, h.isFileName,
    h.splitName_eq]

end BareSplit

theorem exists_pathSplit (h : extension? path = some ext) :
    ∃ front stem tail, PathSplit path front stem ext tail := by
  obtain hnoFile | ⟨front, name, tail, hbare⟩ | ⟨front, stem, ext', tail, hsplit, hext⟩ :=
    path_cases path
  · rw [extension?_of_noFile hnoFile] at h
    cases h
  · rw [hbare.extension?_eq] at h
    cases h
  · rw [hsplit.extension?_eq hext] at h
    cases h
    exact ⟨front, stem, tail, hsplit⟩

/-- A path made of a stem and an extension is split where they meet. -/
theorem pathSplit_append (hfront : IsFront front) (hne : stem ≠ []) (hslash : '/' ∉ stem)
    (hext : '/' ∉ ext) (hdot : '.' ∉ ext) :
    PathSplit (front ++ stem ++ '.' :: ext) front stem ext [] :=
  ⟨by simp, hfront, hne, hslash, hext, hdot, .nil⟩

/-- A new extension that has a dot in it gives the file of a path another name, where it does
anything. -/
theorem withExtension_cases (hdot : '.' ∈ new) (hnew : '/' ∉ new) (path : List Char) :
    withExtension path new = path ∨
      ∃ front name tail name', path = front ++ name ++ tail ∧ IsFront front ∧ Trailing tail ∧
        name ≠ [] ∧ '/' ∉ name ∧ name' ≠ [] ∧ '/' ∉ name' ∧ name' ≠ name ∧
        withExtension path new = front ++ name' := by
  obtain hnoFile | ⟨front, name, tail, hbare⟩ | ⟨front, stem, ext, tail, hsplit, hext⟩ :=
    path_cases path
  · exact .inl (withExtension_of_noFile hnoFile new)
  · right
    have hne := (isFileName_iff.mp hbare.isFileName).1
    refine ⟨front, name, tail, name ++ '.' :: new, hbare.path_eq, hbare.isFront, hbare.trailing,
      hne, hbare.slash_notMem, by simp, by simp [hbare.slash_notMem, hnew], by simp, ?_⟩
    rw [hbare.withExtension_eq, List.append_assoc]
  · right
    have hslash : '/' ∉ stem ++ '.' :: ext := by
      simp [hsplit.slash_notMem_stem, hsplit.slash_notMem_extension]
    by_cases hdots : stem = ['.'] → ext ≠ [] ∧ tail ≠ []
    · refine ⟨front, stem ++ '.' :: ext, tail, stem ++ '.' :: new, hsplit.path_eq, hsplit.isFront,
        hsplit.trailing, by simp, hslash, by simp, by simp [hsplit.slash_notMem_stem, hnew], ?_, ?_⟩
      · rw [ne_eq, List.append_cancel_left_eq, List.cons.injEq, not_and]
        rintro - rfl
        exact hsplit.dot_notMem_extension hdot
      · rw [hsplit.withExtension_eq hdots, List.append_assoc]
    · -- two dots, which the file is then to be called, name no file
      obtain ⟨rfl, hleft⟩ := Classical.not_imp.mp hdots
      obtain rfl : tail = [] := by
        by_contra hne
        exact hleft ⟨hext rfl, hne⟩
      refine ⟨front, ['.'] ++ '.' :: ext, [], ['.', '.'], hsplit.path_eq, hsplit.isFront,
        .nil, by simp, hslash, by simp, by simp, ?_, hsplit.withExtension_dots new⟩
      simpa using (hext rfl).symm

/-- Texts with different last characters tell what is in front of them. -/
theorem base_eq_of_append {endings : List String} {base base' ending ending' : String}
    (hends : ∀ e ∈ endings, e.toList ≠ [] ∧
      ∀ e' ∈ endings, e.toList.getLast? = e'.toList.getLast? → e = e')
    (hmem : ending ∈ endings) (hmem' : ending' ∈ endings)
    (heq : base ++ ending = base' ++ ending') : base = base' := by
  have hchars := congrArg String.toList heq
  rw [String.toList_append, String.toList_append] at hchars
  have hlast := congrArg List.getLast? hchars
  rw [List.getLast?_append_of_ne_nil _ (hends _ hmem).1,
    List.getLast?_append_of_ne_nil _ (hends _ hmem').1] at hlast
  rw [(hends _ hmem).2 _ hmem' hlast, List.append_cancel_right_eq] at hchars
  exact String.toList_inj.mp hchars

/-- A path is a source if its last part is a stem with the extension of sources. -/
theorem isSource_iff {path : String} :
    isSource path = true ↔ ∃ front stem tail : String,
      PathSplit path.toList front.toList stem.toList sourceExtension.toList tail.toList := by
  constructor
  · intro h
    obtain ⟨front, stem, tail, hsplit⟩ := exists_pathSplit (beq_iff_eq.mp h)
    exact ⟨.ofList front, .ofList stem, .ofList tail, by simpa using hsplit⟩
  · rintro ⟨front, stem, tail, hsplit⟩
    exact beq_iff_eq.mpr (hsplit.extension?_eq fun _ => by decide)

section

variable {path front stem tail : String}

theorem outputPath_eq
    (h : PathSplit path.toList front.toList stem.toList sourceExtension.toList tail.toList)
    (hdots : stem = "." → tail ≠ "") : outputPath path = front ++ stem ++ ".vm" := by
  have hdots' (hstem : stem.toList = ['.']) : sourceExtension.toList ≠ [] ∧ tail.toList ≠ [] := by
    refine ⟨by decide, ?_⟩
    rw [ne_eq, String.toList_eq_nil_iff]
    exact hdots (String.toList_inj.mp hstem)
  rw [outputPath, h.withExtension_eq hdots']
  apply String.toList_inj.mp
  simp [codeExtension]

example : outputPath "a/b.c.jack/." = "a/b.c.vm" := by decide

theorem outputPath_dots
    (h : PathSplit path.toList front.toList ".".toList sourceExtension.toList "".toList) :
    outputPath path = front ++ ".." := by
  rw [outputPath, h.withExtension_dots]
  apply String.toList_inj.mp
  simp

example : outputPath "a/..jack" = "a/.." := by decide

/-- The path of an output is itself split at its extension. -/
theorem PathSplit.output {extension : String}
    (h : PathSplit path.toList front.toList stem.toList extension.toList tail.toList) :
    PathSplit (front ++ stem ++ ".vm").toList front.toList stem.toList codeExtension.toList [] where
  path_eq := by simp [codeExtension]
  isFront := h.isFront
  stem_ne_nil := h.stem_ne_nil
  slash_notMem_stem := h.slash_notMem_stem
  slash_notMem_extension := by decide
  dot_notMem_extension := by decide
  trailing := .nil

theorem temporaryPath_eq
    (h : PathSplit path.toList front.toList stem.toList sourceExtension.toList tail.toList)
    (hstem : stem ≠ ".") : temporaryPath (front ++ stem ++ ".vm") = front ++ stem ++ ".vm.tmp" := by
  have hdots (hstem' : stem.toList = ['.']) : codeExtension.toList ≠ [] ∧ ([] : List Char) ≠ [] :=
    absurd (String.toList_inj.mp hstem') hstem
  rw [temporaryPath, h.output.withExtension_eq hdots]
  apply String.toList_inj.mp
  simp [codeExtension]

theorem temporaryPath_dots (h : IsFront front.toList) :
    temporaryPath (front ++ "..") = front ++ ".." := by
  have hsplit : PathSplit (front ++ "..").toList front.toList ['.'] [] [] :=
    ⟨by simp, h, by simp, by simp, List.not_mem_nil, List.not_mem_nil, .nil⟩
  rw [temporaryPath, hsplit.withExtension_dots]
  apply String.toList_inj.mp
  simp

end

end JackVM
