namespace JackVM

/-- The reserved words of the language. -/
inductive Keyword where
  | kwClass
  | kwConstructor
  | kwFunction
  | kwMethod
  | kwField
  | kwStatic
  | kwVar
  | kwInt
  | kwChar
  | kwBoolean
  | kwVoid
  | kwTrue
  | kwFalse
  | kwNull
  | kwThis
  | kwLet
  | kwDo
  | kwIf
  | kwElse
  | kwWhile
  | kwReturn
  deriving DecidableEq, Repr

namespace Keyword

def text : Keyword → String
  | kwClass => "class"
  | kwConstructor => "constructor"
  | kwFunction => "function"
  | kwMethod => "method"
  | kwField => "field"
  | kwStatic => "static"
  | kwVar => "var"
  | kwInt => "int"
  | kwChar => "char"
  | kwBoolean => "boolean"
  | kwVoid => "void"
  | kwTrue => "true"
  | kwFalse => "false"
  | kwNull => "null"
  | kwThis => "this"
  | kwLet => "let"
  | kwDo => "do"
  | kwIf => "if"
  | kwElse => "else"
  | kwWhile => "while"
  | kwReturn => "return"

def all : List Keyword :=
  [.kwClass, .kwConstructor, .kwFunction, .kwMethod, .kwField, .kwStatic, .kwVar, .kwInt,
   .kwChar, .kwBoolean, .kwVoid, .kwTrue, .kwFalse, .kwNull, .kwThis, .kwLet, .kwDo, .kwIf,
   .kwElse, .kwWhile, .kwReturn]

def ofText? (s : String) : Option Keyword :=
  all.find? fun k => k.text = s

theorem mem_all (k : Keyword) : k ∈ all := by
  cases k <;> decide

theorem text_injective {j k : Keyword} (h : j.text = k.text) : j = k := by
  revert h
  cases j <;> cases k <;> decide

theorem ofText?_eq_some_iff {s : String} {k : Keyword} : ofText? s = some k ↔ k.text = s := by
  constructor
  · intro h
    simpa using List.find?_some h
  · intro h
    cases hf : ofText? s with
    | none =>
      have hn := List.find?_eq_none.mp hf k (mem_all k)
      simp [h] at hn
    | some j =>
      have hj : j.text = s := by simpa using List.find?_some hf
      rw [text_injective (hj.trans h.symm)]

end Keyword

end JackVM
