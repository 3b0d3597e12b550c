import JackVM.Proofs.Syntax

namespace JackVM

mutual

/-- The statements of a subroutine give back a value where it has a type, and none where it has
none. -/
def Statement.Returns (isVoid : Bool) : Statement → Prop
  | .branch _ yes none => StatementsReturn isVoid yes
  | .branch _ yes (some no) => StatementsReturn isVoid yes ∧ StatementsReturn isVoid no
  | .loop _ body => StatementsReturn isVoid body
  | .giveBack value => value.isNone = isVoid
  | _ => True

def StatementsReturn (isVoid : Bool) : List Statement → Prop
  | [] => True
  | s :: ss => s.Returns isVoid ∧ StatementsReturn isVoid ss

end

def RoutineTree.Grammatical (r : RoutineTree) : Prop :=
  StatementsReturn r.returned.isNone r.body

def ClassTree.Grammatical (c : ClassTree) : Prop :=
  ∀ r ∈ c.routines, r.Grammatical

/-- The tokens of a class, whatever its names stand for. -/
def IsSentence (xs : List Lexeme) : Prop :=
  ∃ c : ClassTree, c.Grammatical ∧ c.lexemes = xs

/-- More tokens can make a sentence of these. -/
def BeginsSentence (xs : List Lexeme) : Prop :=
  ∃ ys, IsSentence (xs ++ ys)

end JackVM
