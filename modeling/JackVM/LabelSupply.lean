import JackVM.Instruction

namespace JackVM

/-- Hands out labels. The number is counted on over all subroutines, so that no label of a supply
is like an earlier one. -/
structure LabelSupply where
  nextNumber : Nat
  deriving DecidableEq, Repr

namespace LabelSupply

def start : LabelSupply :=
  ⟨0⟩

/-- The next label for a subroutine and a purpose, and the supply after it. -/
def fresh (s : LabelSupply) (className subroutine purpose : String) : Label × LabelSupply :=
  (⟨className, subroutine, purpose, s.nextNumber⟩, ⟨s.nextNumber + 1⟩)

end LabelSupply

end JackVM
