import Mathlib.Data.BitVec
import Mathlib.Logic.Function.Basic
import JackVM.Instruction

namespace JackVM

abbrev Word := BitVec 16

/-- What a subroutine keeps while others run: its arguments, its variables and its object. -/
structure Frame where
  arguments : Nat → Word
  locals : Nat → Word
  this : Word

/-- What all subroutines share. -/
structure Memory where
  statics : Nat → Word
  heap : Word → Word

structure Store where
  frame : Frame
  memory : Memory

namespace Store

def valueOf (σ : Store) (v : Variable) : Word :=
  match v.kind with
  | .staticVar => σ.memory.statics v.index
  | .field => σ.memory.heap (σ.frame.this + BitVec.ofNat 16 v.index)
  | .argument => σ.frame.arguments v.index
  | .localVar => σ.frame.locals v.index

def setHeap (σ : Store) (address w : Word) : Store :=
  { σ with memory.heap := Function.update σ.memory.heap address w }

def set (σ : Store) (v : Variable) (w : Word) : Store :=
  match v.kind with
  | .staticVar => { σ with memory.statics := Function.update σ.memory.statics v.index w }
  | .field => σ.setHeap (σ.frame.this + BitVec.ofNat 16 v.index) w
  | .argument => { σ with frame.arguments := Function.update σ.frame.arguments v.index w }
  | .localVar => { σ with frame.locals := Function.update σ.frame.locals v.index w }

end Store

structure Machine extends Store where
  stack : List Word
  that : Word
  temp : Nat → Word

/-- What a call comes to. It may use the `temp` segment for itself. -/
structure Reply where
  value : Word
  memory : Memory
  temp : (Nat → Word) → Nat → Word

/-- What calls do, from the name of the subroutine and its arguments in order. -/
abbrev Library := String → List Word → Memory → Reply

def Library.KeepsTemp (lib : Library) : Prop :=
  ∀ name vs μ, (lib name vs μ).temp = id

/-- A condition is all ones or all zeros. -/
def truth (b : Bool) : Word :=
  if b then -1 else 0

/-- The value of an operation, whose last operand is on top of the stack. -/
def StackOp.work : StackOp → List Word → Option (List Word)
  | add, w :: v :: vs => some ((v + w) :: vs)
  | sub, w :: v :: vs => some ((v - w) :: vs)
  | and, w :: v :: vs => some ((v &&& w) :: vs)
  | or, w :: v :: vs => some ((v ||| w) :: vs)
  | eq, w :: v :: vs => some (truth (v == w) :: vs)
  | gt, w :: v :: vs => some (truth (w.slt v) :: vs)
  | lt, w :: v :: vs => some (truth (v.slt w) :: vs)
  | neg, v :: vs => some (-v :: vs)
  | not, v :: vs => some (~~~v :: vs)
  | _, _ => none

namespace Machine

def read (m : Machine) : Segment → Nat → Option Word
  | .constant, k => some (BitVec.ofNat 16 k)
  | .argument, k => some (m.frame.arguments k)
  | .localVar, k => some (m.frame.locals k)
  | .staticVar, k => some (m.memory.statics k)
  | .this, k => some (m.memory.heap (m.frame.this + BitVec.ofNat 16 k))
  | .that, k => some (m.memory.heap (m.that + BitVec.ofNat 16 k))
  | .pointer, 0 => some m.frame.this
  | .pointer, 1 => some m.that
  | .pointer, _ => none
  | .temp, k => some (m.temp k)

/-- No value can be written to the constants. -/
def write (m : Machine) (v : Word) : Segment → Nat → Option Machine
  | .constant, _ => none
  | .argument, k =>
    some { m with frame.arguments := Function.update m.frame.arguments k v }
  | .localVar, k => some { m with frame.locals := Function.update m.frame.locals k v }
  | .staticVar, k => some { m with memory.statics := Function.update m.memory.statics k v }
  | .this, k =>
    some { m with
      memory.heap := Function.update m.memory.heap (m.frame.this + BitVec.ofNat 16 k) v }
  | .that, k =>
    some { m with memory.heap := Function.update m.memory.heap (m.that + BitVec.ofNat 16 k) v }
  | .pointer, 0 => some { m with frame.this := v }
  | .pointer, 1 => some { m with that := v }
  | .pointer, _ => none
  | .temp, k => some { m with temp := Function.update m.temp k v }

/-- The arguments of a call are on the stack, the last one on top. -/
def call (lib : Library) (m : Machine) (name : String) (arguments : Nat) : Option Machine :=
  if arguments ≤ m.stack.length then
    let reply := lib name (m.stack.take arguments).reverse m.memory
    some { m with
      stack := reply.value :: m.stack.drop arguments
      memory := reply.memory
      temp := reply.temp m.temp }
  else none

end Machine

/-- The effect of an instruction after which the next one is run. -/
def Instruction.execute (lib : Library) : Instruction → Machine → Option Machine
  | push segment k, m =>
    (m.read segment k).map fun v => { m with stack := v :: m.stack }
  | pop segment k, m =>
    match m.stack with
    | [] => none
    | v :: vs => { m with stack := vs }.write v segment k
  | op o, m => (o.work m.stack).map fun vs => { m with stack := vs }
  | call name arguments, m => m.call lib name arguments
  | _, _ => none

/-- Runs code without jumps. -/
def run (lib : Library) : List Instruction → Machine → Option Machine
  | [], m => some m
  | i :: code, m => (i.execute lib m).bind (run lib code)

section OfVariables

variable {σ : Store} {stack : List Word} {that : Word} {temp : Nat → Word}

theorem read_variable (v : Variable) :
    Machine.read ⟨σ, stack, that, temp⟩ v.segment v.index = some (σ.valueOf v) := by
  unfold Variable.segment Store.valueOf
  cases v.kind <;> rfl

theorem write_variable (v : Variable) (w : Word) :
    Machine.write ⟨σ, stack, that, temp⟩ w v.segment v.index =
      some ⟨σ.set v w, stack, that, temp⟩ := by
  unfold Variable.segment Store.set
  cases v.kind <;> rfl

end OfVariables

section Run

variable {lib : Library} {m : Machine} {i : Instruction} {xs ys code : List Instruction}

@[simp] theorem run_nil : run lib [] m = some m := rfl

theorem run_cons : run lib (i :: code) m = (i.execute lib m).bind (run lib code) := rfl

theorem run_append : run lib (xs ++ ys) m = (run lib xs m).bind (run lib ys) := by
  induction xs generalizing m with
  | nil => rfl
  | cons i xs ih =>
    rw [List.cons_append, run_cons, run_cons, Option.bind_assoc]
    congr 1
    funext m'
    exact ih

theorem run_singleton : run lib [i] m = i.execute lib m := by
  rw [run_cons]
  cases i.execute lib m <;> rfl

end Run

end JackVM
