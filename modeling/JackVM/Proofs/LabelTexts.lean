import Mathlib.Data.List.Nodup
import JackVM.Proofs.LabelNumbers

namespace JackVM

/-- The number at the end of a text, after its last dollar sign. -/
def numberAtEnd (text : String) : Nat :=
  Nat.ofDigitChars 10 (text.toList.reverse.takeWhile (· ≠ '$')).reverse 0

theorem dollar_notMem_digits (n : Nat) : '$' ∉ Nat.toDigits 10 n := by
  intro h
  have hdigit := Nat.isDigit_of_mem_toDigits (by decide) (by decide) h
  exact absurd hdigit (by decide)

theorem Label.toList_text (l : Label) : l.text.toList =
    (l.className.toList ++ '.' :: (l.subroutine.toList ++ '$' :: l.purpose.toList)) ++
      '$' :: Nat.toDigits 10 l.number := by
  simp [Label.text, toString]

/-- The text of a label tells its number, whatever the names before it are made of. -/
theorem Label.numberAtEnd_text (l : Label) : numberAtEnd l.text = l.number := by
  have hdigits : ∀ c ∈ (Nat.toDigits 10 l.number).reverse, decide (c ≠ '$') = true := by
    intro c hc
    have hne : c ≠ '$' := by
      rintro rfl
      exact dollar_notMem_digits l.number (List.mem_reverse.mp hc)
    simpa using hne
  rw [numberAtEnd, Label.toList_text, List.reverse_append, List.reverse_cons, List.append_assoc,
    List.singleton_append, List.takeWhile_append_of_pos hdigits,
    List.takeWhile_cons_of_neg (by simp), List.append_nil, List.reverse_reverse,
    Nat.ofDigitChars_ten_toDigits]

theorem map_numberAtEnd (labels : List Label) :
    (labels.map Label.text).map numberAtEnd = labels.map Label.number := by
  rw [List.map_map]
  exact List.map_congr_left fun l _ => l.numberAtEnd_text

/-- Labels with different numbers also have different texts. -/
theorem nodup_texts {labels : List Label} (h : (labels.map Label.number).Nodup) :
    (labels.map Label.text).Nodup := by
  rw [← map_numberAtEnd] at h
  exact List.Nodup.of_map _ h

/-- The texts of the labels that have their place in some code. -/
def labelTexts (code : List Instruction) : List String :=
  (labelsOf code).map Label.text

theorem nodup_labelTexts {code : List Instruction} (h : (labelNumbers code).Nodup) :
    (labelTexts code).Nodup :=
  nodup_texts h

/-- What a label is wanted for. -/
structure LabelRequest where
  className : String
  subroutine : String
  purpose : String

namespace LabelRequest

/-- The label for a request that is given a number. -/
def label (r : LabelRequest) (n : Nat) : Label :=
  ⟨r.className, r.subroutine, r.purpose, n⟩

end LabelRequest

namespace LabelSupply

/-- The labels for requests that come one after the other, and the supply after them. -/
def freshAll (s : LabelSupply) : List LabelRequest → List Label × LabelSupply
  | [] => ([], s)
  | r :: rs =>
    let (label, next) := s.fresh r.className r.subroutine r.purpose
    let (labels, last) := next.freshAll rs
    (label :: labels, last)

/-- The numbers are counted on from the supply's next one, whatever the labels are for. -/
theorem freshAll_eq (s : LabelSupply) (rs : List LabelRequest) : s.freshAll rs =
    ((rs.zipIdx s.nextNumber).map fun (r, n) => r.label n, ⟨s.nextNumber + rs.length⟩) := by
  induction rs generalizing s with
  | nil => rfl
  | cons r rs ih =>
    simp only [freshAll, fresh, ih, List.zipIdx_cons, List.map_cons, List.length_cons]
    rw [Nat.add_right_comm, Nat.add_assoc]
    rfl

theorem numbers_freshAll (s : LabelSupply) (rs : List LabelRequest) :
    (s.freshAll rs).1.map Label.number = List.range' s.nextNumber rs.length := by
  rw [freshAll_eq, List.map_map]
  exact List.zipIdx_map_snd s.nextNumber rs

end LabelSupply

/-- The labels that one supply hands out have texts of the form `class.subroutine$purpose$number`,
and no two texts are the same, even if there are dots, dollar signs and digits in what the labels
are for. -/
theorem freshTexts_distinct (s : LabelSupply) (requests : List LabelRequest) :
    (s.freshAll requests).1.map Label.text =
        ((requests.zipIdx s.nextNumber).map fun (r, n) =>
          s!"{r.className}.{r.subroutine}${r.purpose}${n}") ∧
      ((s.freshAll requests).1.map Label.text).Nodup := by
  constructor
  · rw [s.freshAll_eq, List.map_map]
    rfl
  · apply nodup_texts
    rw [s.numbers_freshAll]
    exact List.nodup_range'

/-- A text may be the beginning of another one. -/
example :
    (LabelSupply.start.freshAll [⟨"A", "f", "IF$1"⟩, ⟨"A", "f", "IF"⟩]).1.map Label.text =
      ["A.f$IF$1$0", "A.f$IF$1"] := by
  decide

end JackVM
