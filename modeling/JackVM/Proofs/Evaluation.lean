import JackVM.Proofs.Machine
import JackVM.Proofs.TreeCode

namespace JackVM

/-- Works out something in a memory that calls may change. -/
abbrev Evaluation := StateM Memory

def Library.call (lib : Library) (name : String) (vs : List Word) : Evaluation Word := fun μ =>
  ((lib name vs μ).value, (lib name vs μ).memory)

/-- The object of a method is its first argument, that of a constructor is the one it points to. -/
def Frame.object (φ : Frame) : RoutineKind → Word
  | .method => φ.arguments 0
  | .constructor => φ.this
  | .function => 0

namespace Scope

/-- The value of the variable that a name stands for. -/
def valueOf (ρ : Scope) (φ : Frame) (name : String) : Evaluation Word := do
  let μ ← get
  match ρ.find? name with
  | some v => pure (Store.valueOf ⟨φ, μ⟩ v)
  | none => pure 0

/-- The object that a call is made on, which counts as its first argument. -/
def receiver (ρ : Scope) (φ : Frame) : Option String → Evaluation (List Word)
  | none => pure [φ.this]
  | some q => do
    if ρ.Declares q then
      let v ← ρ.valueOf φ q
      pure [v]
    else pure []

end Scope

/-- A string is made empty, and then its characters are added one by one. -/
def stringValue (lib : Library) (text : String) : Evaluation Word := do
  let s ← lib.call "String.new" [BitVec.ofNat 16 text.length]
  text.toList.foldlM (fun s c => lib.call "String.appendChar" [s, BitVec.ofNat 16 c.toNat]) s

def Constant.eval (lib : Library) : Constant → Evaluation Word
  | integer digits => pure (BitVec.ofNat 16 (digitsValue digits.toList))
  | string text => stringValue lib text
  | true => pure (-1)
  | false | null => pure 0

def UnaryOperator.apply : UnaryOperator → Word → Word
  | negate, v => -v
  | complement, v => ~~~v

def BinaryOperator.apply (lib : Library) : BinaryOperator → Word → Word → Evaluation Word
  | add, v, w => pure (v + w)
  | subtract, v, w => pure (v - w)
  | multiply, v, w => lib.call "Math.multiply" [v, w]
  | divide, v, w => lib.call "Math.divide" [v, w]
  | and, v, w => pure (v &&& w)
  | or, v, w => pure (v ||| w)
  | less, v, w => pure (truth (v.slt w))
  | greater, v, w => pure (truth (w.slt v))
  | equal, v, w => pure (truth (v == w))

mutual

def Term.eval (lib : Library) (ρ : Scope) (φ : Frame) : Term → Evaluation Word
  | .constant c => c.eval lib
  | .this => pure (φ.object ρ.routine.kind)
  | .variable x => ρ.valueOf φ x
  | .element x i => do
    let base ← ρ.valueOf φ x
    let index ← i.eval lib ρ φ
    let μ ← get
    pure (μ.heap (base + index))
  | .call q f es => do
    let object ← ρ.receiver φ q
    let vs ← argumentValues lib ρ φ es
    lib.call (ρ.callee q f) (object ++ vs)
  | .parens e => e.eval lib ρ φ
  | .unary op t => do
    let v ← t.eval lib ρ φ
    pure (op.apply v)

/-- Operators have no precedence: each takes the value so far and the next term. -/
def Expression.eval (lib : Library) (ρ : Scope) (φ : Frame) : Expression → Evaluation Word
  | .chain t rest => do
    let v ← t.eval lib ρ φ
    operationValue lib ρ φ rest v

def operationValue (lib : Library) (ρ : Scope) (φ : Frame) :
    List (BinaryOperator × Term) → Word → Evaluation Word
  | [], v => pure v
  | (op, t) :: rest, v => do
    let w ← t.eval lib ρ φ
    let u ← op.apply lib v w
    operationValue lib ρ φ rest u

def argumentValues (lib : Library) (ρ : Scope) (φ : Frame) :
    List Expression → Evaluation (List Word)
  | [] => pure []
  | e :: es => do
    let v ← e.eval lib ρ φ
    let vs ← argumentValues lib ρ φ es
    pure (v :: vs)

end

namespace Evaluation

variable {α β : Type} {x : Evaluation α} {f : α → Evaluation β} {a b : α} {c : β} {μ ν : Memory}

theorem of_bind (h : (x >>= f) μ = (c, ν)) : ∃ a ξ, x μ = (a, ξ) ∧ f a ξ = (c, ν) :=
  ⟨(x μ).1, (x μ).2, rfl, h⟩

theorem of_pure (h : (pure a : Evaluation α) μ = (b, ν)) : b = a ∧ ν = μ := by
  obtain ⟨rfl, rfl⟩ := Prod.mk.inj h
  exact ⟨rfl, rfl⟩

theorem of_get {ξ : Memory} (h : (get : Evaluation Memory) μ = (ξ, ν)) : ξ = μ ∧ ν = μ := by
  obtain ⟨rfl, rfl⟩ := Prod.mk.inj h
  exact ⟨rfl, rfl⟩

theorem of_call {lib : Library} {name : String} {vs : List Word} {v : Word}
    (h : lib.call name vs μ = (v, ν)) :
    v = (lib name vs μ).value ∧ ν = (lib name vs μ).memory := by
  obtain ⟨rfl, rfl⟩ := Prod.mk.inj h
  exact ⟨rfl, rfl⟩

end Evaluation

end JackVM
