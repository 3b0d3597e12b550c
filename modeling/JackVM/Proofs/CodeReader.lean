import JackVM.Proofs.LabelTexts
import JackVM.Proofs.Layouts

namespace JackVM

/-- The characters of names in code: letters, digits, underscores, dots and dollar signs. -/
def isCodeChar (c : Char) : Bool :=
  isNameChar c || c == '.' || c == '$'

/-- A name as it may stand in code, which starts with a letter or an underscore. -/
def isCodeName : List Char → Bool
  | [] => false
  | c :: cs => isNameStart c && cs.all isCodeChar

def Segment.ofText? (text : String) : Option Segment :=
  [constant, argument, localVar, staticVar, this, that, pointer, temp].find? (·.text == text)

def StackOp.ofText? (text : String) : Option StackOp :=
  [add, sub, neg, and, or, not, eq, gt, lt].find? (·.text == text)

def readNumber? (text : String) : Option Nat :=
  if text ≠ "" ∧ text.toList.all Char.isDigit then some (Nat.ofDigitChars 10 text.toList 0)
  else none

def readName? (text : String) : Option String :=
  if isCodeName text.toList then some text else none

/-- The parts of a text between the places where a character stands. -/
def partsAt (c : Char) (text : String) : List String :=
  (text.toList.splitOn c).map String.ofList

/-- The label that a name stands for, if it is one of a label. -/
def readLabel? (text : String) : Option Label := do
  let name ← readName? text
  match partsAt '$' name with
  | [place, purpose, number] =>
    match partsAt '.' place with
    | [className, subroutine] => pure ⟨className, subroutine, purpose, ← readNumber? number⟩
    | _ => none
  | _ => none

/-- The instruction that the words of a line make. -/
def readWords? : List String → Option Instruction
  | ["push", segment, index] => do pure (.push (← Segment.ofText? segment) (← readNumber? index))
  | ["pop", segment, index] => do pure (.pop (← Segment.ofText? segment) (← readNumber? index))
  | ["label", place] => do pure (.label (← readLabel? place))
  | ["goto", place] => do pure (.goto (← readLabel? place))
  | ["if-goto", place] => do pure (.ifGoto (← readLabel? place))
  | ["call", name, arguments] => do pure (.call (← readName? name) (← readNumber? arguments))
  | ["function", name, locals] => do pure (.function (← readName? name) (← readNumber? locals))
  | ["return"] => some .ret
  | [operation] => do pure (.op (← StackOp.ofText? operation))
  | _ => none

/-- The code that a text holds, of which each line ends in a line end and parts at spaces. -/
def readCode? (text : String) : Option (List Instruction) :=
  let lines := partsAt '\n' text
  if lines.getLast? = some "" then lines.dropLast.mapM fun line => readWords? (partsAt ' ' line)
  else none

/-- A text holds neither what parts words nor what parts lines. -/
def IsWhole (text : String) : Prop :=
  ' ' ∉ text.toList ∧ '\n' ∉ text.toList

instance (text : String) : Decidable (IsWhole text) :=
  inferInstanceAs (Decidable (_ ∧ _))

/-- The names in a label are identifiers. -/
structure Label.IsNamed (l : Label) : Prop where
  className : isName l.className.toList = true
  subroutine : isName l.subroutine.toList = true
  purpose : isName l.purpose.toList = true

namespace Instruction

/-- The labels and names of functions in an instruction. -/
def codeNames : Instruction → List String
  | label place | goto place | ifGoto place => [place.text]
  | call name _ | function name _ => [name]
  | push _ _ | pop _ _ | op _ | ret => []

/-- The names in an instruction are such as may stand in code. -/
def IsNamed : Instruction → Prop
  | label place | goto place | ifGoto place => place.IsNamed
  | call name _ | function name _ => isCodeName name.toList = true
  | push _ _ | pop _ _ | op _ | ret => True

def words : Instruction → List String
  | push segment index => ["push", segment.text, index.repr]
  | pop segment index => ["pop", segment.text, index.repr]
  | op operation => [operation.text]
  | label place => ["label", place.text]
  | goto place => ["goto", place.text]
  | ifGoto place => ["if-goto", place.text]
  | call name arguments => ["call", name, arguments.repr]
  | function name locals => ["function", name, locals.repr]
  | ret => ["return"]

end Instruction

/-- Texts with a character between them. -/
def joinedBy (c : Char) (parts : List String) : List Char :=
  [c].intercalate (parts.map String.toList)

section

variable {c : Char} {cs : List Char} {text : String} {parts : List String}

theorem joinedBy_cons (hne : parts ≠ []) :
    joinedBy c (text :: parts) = text.toList ++ c :: joinedBy c parts := by
  obtain ⟨next, rest, rfl⟩ := List.exists_cons_of_ne_nil hne
  simp [joinedBy, List.intercalate]

theorem mem_joinedBy {d : Char} (h : d ∈ joinedBy c parts) :
    d = c ∨ ∃ part ∈ parts, d ∈ part.toList := by
  induction parts with
  | nil => simp [joinedBy, List.intercalate] at h
  | cons part parts ih =>
    by_cases hne : parts = []
    · subst hne
      exact .inr ⟨part, by simp, by simpa [joinedBy, List.intercalate] using h⟩
    · rw [joinedBy_cons hne, List.mem_append, List.mem_cons] at h
      obtain h | h | h := h
      · exact .inr ⟨part, by simp, h⟩
      · exact .inl h
      · exact (ih h).imp_right fun ⟨other, hother, hd⟩ => ⟨other, by simp [hother], hd⟩

/-- Texts that were joined are found again where the character between them is in none. -/
theorem partsAt_of_joinedBy (htext : text.toList = joinedBy c parts) (hne : parts ≠ [])
    (h : ∀ part ∈ parts, c ∉ part.toList) : partsAt c text = parts := by
  have hparts : ∀ l ∈ parts.map String.toList, c ∉ l := by simpa using h
  rw [partsAt, htext, joinedBy, List.splitOn_intercalate c hparts (by simpa using hne)]
  simp

theorem readNumber?_repr (n : Nat) : readNumber? n.repr = some n := by
  have hdigits : n.repr.toList.all Char.isDigit = true := by
    rw [Nat.toList_repr, List.all_eq_true]
    exact fun c hc => Nat.isDigit_of_mem_toDigits (by decide) (by decide) hc
  have hne : n.repr ≠ "" := by
    rw [ne_eq, ← String.toList_eq_nil_iff, Nat.toList_repr]
    exact Nat.toDigits_ne_nil
  rw [readNumber?, if_pos ⟨hne, hdigits⟩, Nat.toList_repr, Nat.ofDigitChars_ten_toDigits]

theorem Segment.ofText?_text (s : Segment) : Segment.ofText? s.text = some s := by
  cases s <;> decide

theorem StackOp.ofText?_text (o : StackOp) : StackOp.ofText? o.text = some o := by
  cases o <;> decide

theorem isNameChar_of_isName (h : isName cs = true) (hc : c ∈ cs) : isNameChar c = true := by
  cases cs with
  | nil => cases hc
  | cons d cs =>
    simp only [isName, Bool.and_eq_true, List.all_eq_true] at h
    obtain rfl | hc := List.mem_cons.mp hc
    · exact isNameChar_of_isNameStart h.1
    · exact h.2 c hc

theorem isCodeChar_of_isNameChar (h : isNameChar c = true) : isCodeChar c = true := by
  simp [isCodeChar, h]

theorem isCodeChar_of_isCodeName (h : isCodeName cs = true) (hc : c ∈ cs) :
    isCodeChar c = true := by
  cases cs with
  | nil => cases hc
  | cons d cs =>
    simp only [isCodeName, Bool.and_eq_true, List.all_eq_true] at h
    obtain rfl | hc := List.mem_cons.mp hc
    · exact isCodeChar_of_isNameChar (isNameChar_of_isNameStart h.1)
    · exact h.2 c hc

/-- An identifier may go on with all characters of names in code. -/
theorem isCodeName_append {rest : List Char} (h : isName cs = true)
    (hrest : ∀ c ∈ rest, isCodeChar c = true) : isCodeName (cs ++ rest) = true := by
  cases cs with
  | nil => cases h
  | cons d cs =>
    simp only [isName, Bool.and_eq_true, List.all_eq_true] at h
    simp only [List.cons_append, isCodeName, h.1, Bool.true_and, List.all_append,
      Bool.and_eq_true, List.all_eq_true]
    exact ⟨fun c hc => isCodeChar_of_isNameChar (h.2 c hc), hrest⟩

theorem isCodeChar_of_mem_digits {n : Nat} (hc : c ∈ Nat.toDigits 10 n) : isCodeChar c = true := by
  have hdigit := Nat.isDigit_of_mem_toDigits (by decide) (by decide) hc
  exact isCodeChar_of_isNameChar (isNameChar_of_isDigit hdigit)

theorem isWhole_of_isCodeChar (h : ∀ c ∈ text.toList, isCodeChar c = true) : IsWhole text := by
  constructor
  · intro hmem
    exact absurd (h _ hmem) (by decide)
  · intro hmem
    exact absurd (h _ hmem) (by decide)

theorem isWhole_of_isCodeName (h : isCodeName text.toList = true) : IsWhole text :=
  isWhole_of_isCodeChar fun _ hc => isCodeChar_of_isCodeName h hc

theorem isWhole_repr (n : Nat) : IsWhole n.repr :=
  isWhole_of_isCodeChar fun _ hc => isCodeChar_of_mem_digits (Nat.toList_repr ▸ hc)

namespace Label

variable {l : Label}

theorem IsNamed.isCodeName_text (h : l.IsNamed) : isCodeName l.text.toList = true := by
  rw [l.toList_text, List.append_assoc]
  apply isCodeName_append h.className
  intro c hc
  simp only [List.mem_append, List.mem_cons] at hc
  obtain (rfl | hc | rfl | hc) | rfl | hc := hc
  · rfl
  · exact isCodeChar_of_isNameChar (isNameChar_of_isName h.subroutine hc)
  · rfl
  · exact isCodeChar_of_isNameChar (isNameChar_of_isName h.purpose hc)
  · rfl
  · exact isCodeChar_of_mem_digits hc

/-- The names in a label are told from its text, because none holds what parts them. -/
theorem IsNamed.readLabel?_text (h : l.IsNamed) : readLabel? l.text = some l := by
  have hclass (c : Char) (hc : isNameChar c = false) : c ∉ l.className.toList := fun hmem => by
    simp [isNameChar_of_isName h.className hmem] at hc
  have hroutine (c : Char) (hc : isNameChar c = false) : c ∉ l.subroutine.toList := fun hmem => by
    simp [isNameChar_of_isName h.subroutine hmem] at hc
  have hpurpose (c : Char) (hc : isNameChar c = false) : c ∉ l.purpose.toList := fun hmem => by
    simp [isNameChar_of_isName h.purpose hmem] at hc
  have hplace : partsAt '.' (l.className ++ "." ++ l.subroutine) = [l.className, l.subroutine] := by
    apply partsAt_of_joinedBy
    · simp [joinedBy, List.intercalate]
    · simp
    · simp [hclass '.' (by decide), hroutine '.' (by decide)]
  have hparts : partsAt '$' l.text =
      [l.className ++ "." ++ l.subroutine, l.purpose, l.number.repr] := by
    apply partsAt_of_joinedBy
    · simp [joinedBy, List.intercalate, l.toList_text]
    · simp
    · simp [hclass '$' (by decide), hroutine '$' (by decide), hpurpose '$' (by decide),
        dollar_notMem_digits]
  have hname : readName? l.text = some l.text := by rw [readName?, if_pos h.isCodeName_text]
  simp only [readLabel?, hname, Option.bind_eq_bind, Option.bind_some, hparts, hplace,
    readNumber?_repr]
  rfl

end Label

namespace Instruction

variable {i : Instruction}

theorem IsNamed.isCodeName_of_mem {name : String} (h : i.IsNamed) (hname : name ∈ i.codeNames) :
    isCodeName name.toList = true := by
  cases i with
  | push | pop | op | ret => cases hname
  | label place | goto place | ifGoto place =>
    cases List.mem_singleton.mp hname
    exact Label.IsNamed.isCodeName_text h
  | call name number | function name number =>
    cases List.mem_singleton.mp hname
    exact h

theorem IsNamed.readWords?_words (h : i.IsNamed) : readWords? i.words = some i := by
  cases i with
  | push segment index | pop segment index =>
    simp [words, readWords?, Segment.ofText?_text, readNumber?_repr]
  | op operation => cases operation <;> rfl
  | label place | goto place | ifGoto place => simp [words, readWords?, h.readLabel?_text]
  | call name number | function name number =>
    have hname : readName? name = some name := if_pos h
    simp [words, readWords?, hname, readNumber?_repr]
  | ret => rfl

theorem toList_text (i : Instruction) : i.text.toList = joinedBy ' ' i.words := by
  cases i <;> simp [text, words, joinedBy, List.intercalate, toString]

/-- No word of an instruction holds what parts words and lines. -/
theorem IsNamed.isWhole_of_mem_words (h : i.IsNamed) : ∀ word ∈ i.words, IsWhole word := by
  cases i with
  | push segment index | pop segment index =>
    have hsegment : IsWhole segment.text := by cases segment <;> decide
    simpa [words, hsegment, isWhole_repr] using (by decide)
  | op operation =>
    have hoperation : IsWhole operation.text := by cases operation <;> decide
    simpa [words] using hoperation
  | label place | goto place | ifGoto place =>
    have hplace := isWhole_of_isCodeName (Label.IsNamed.isCodeName_text h)
    simpa [words, hplace] using (by decide)
  | call name number | function name number =>
    have hname := isWhole_of_isCodeName h
    simpa [words, hname, isWhole_repr] using (by decide)
  | ret => decide

/-- The line of an instruction is read as the instruction. -/
theorem IsNamed.readWords?_text (h : i.IsNamed) : readWords? (partsAt ' ' i.text) = some i := by
  have hne : i.words ≠ [] := by cases i <;> simp [words]
  have hwords : partsAt ' ' i.text = i.words :=
    partsAt_of_joinedBy i.toList_text hne fun word hword => (h.isWhole_of_mem_words word hword).1
  rw [hwords, h.readWords?_words]

theorem IsNamed.newline_notMem_text (h : i.IsNamed) : '\n' ∉ i.text.toList := by
  intro hmem
  rw [toList_text] at hmem
  obtain hspace | ⟨word, hword, hmem⟩ := mem_joinedBy hmem
  · exact absurd hspace (by decide)
  · exact (h.isWhole_of_mem_words word hword).2 hmem

end Instruction

theorem toList_linesOf (code : List Instruction) :
    (linesOf code).toList = joinedBy '\n' (code.map Instruction.text ++ [""]) := by
  induction code with
  | nil => rfl
  | cons i code ih =>
    have hcons : linesOf (i :: code) = i.text ++ "\n" ++ linesOf code := by
      simp [linesOf]
    rw [hcons, List.map_cons, List.cons_append, joinedBy_cons (by simp), ← ih]
    simp

theorem mapM_readWords? {code : List Instruction} (h : ∀ i ∈ code, i.IsNamed) :
    (code.map Instruction.text).mapM (fun line => readWords? (partsAt ' ' line)) = some code := by
  induction code with
  | nil => rfl
  | cons i code ih =>
    have hi : i.IsNamed := h i (by simp)
    have hcode := ih fun j hj => h j (List.mem_cons_of_mem i hj)
    rw [List.map_cons, List.mapM_cons, hi.readWords?_text, hcode]
    rfl

/-- The lines of code are found again in its text, and the code in the lines. -/
theorem readCode?_linesOf {code : List Instruction} (h : ∀ i ∈ code, i.IsNamed) :
    partsAt '\n' (linesOf code) = code.map Instruction.text ++ [""] ∧
      readCode? (linesOf code) = some code := by
  have hlines : partsAt '\n' (linesOf code) = code.map Instruction.text ++ [""] := by
    refine partsAt_of_joinedBy (toList_linesOf code) (by simp) fun line hline => ?_
    obtain hline | hline := List.mem_append.mp hline
    · obtain ⟨i, hi, rfl⟩ := List.mem_map.mp hline
      exact (h i hi).newline_notMem_text
    · simp [List.mem_singleton.mp hline]
  refine ⟨hlines, ?_⟩
  rw [readCode?, hlines, if_pos (by simp), List.dropLast_concat, mapM_readWords? h]

example : readCode? "function A.f 0\nif-goto A.f$IF_FALSE$12\n" =
    some [.function "A.f" 0, .ifGoto ⟨"A", "f", "IF_FALSE", 12⟩] := by
  decide +kernel

end

end JackVM
