import JackVM.Instruction

namespace JackVM

/-- A place that takes instructions in order and may refuse one. -/
class CodeSink (σ : Type) where
  put? : σ → Instruction → Option σ

/-- Keeps the instructions themselves. -/
instance : CodeSink (Array Instruction) where
  put? code i := some (code.push i)

/-- The text of code, one line for each instruction. -/
structure CodeText where
  text : String
  deriving DecidableEq, Repr

def CodeText.empty : CodeText :=
  ⟨""⟩

def CodeText.push (t : CodeText) (i : Instruction) : CodeText :=
  ⟨t.text ++ i.text ++ "\n"⟩

instance : CodeSink CodeText where
  put? t i := some (t.push i)

/-- Another sink, of which only so many more instructions may be put. -/
structure Limited (σ : Type) where
  inner : σ
  room : Nat
  deriving DecidableEq, Repr

instance {σ : Type} [CodeSink σ] : CodeSink (Limited σ) where
  put? s i :=
    match s.room with
    | 0 => none
    | room + 1 => (CodeSink.put? s.inner i).map fun inner => ⟨inner, room⟩

end JackVM
