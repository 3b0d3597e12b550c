namespace JackVM

/-- The characters that are tokens of their own. -/
inductive Symbol where
  | openBrace
  | closeBrace
  | openParen
  | closeParen
  | openBracket
  | closeBracket
  | dot
  | comma
  | semicolon
  | plus
  | minus
  | star
  | slash
  | ampersand
  | bar
  | less
  | greater
  | equal
  | tilde
  deriving DecidableEq, Repr

namespace Symbol

def char : Symbol → Char
  | openBrace => '{'
  | closeBrace => '}'
  | openParen => '('
  | closeParen => ')'
  | openBracket => '['
  | closeBracket => ']'
  | dot => '.'
  | comma => ','
  | semicolon => ';'
  | plus => '+'
  | minus => '-'
  | star => '*'
  | slash => '/'
  | ampersand => '&'
  | bar => '|'
  | less => '<'
  | greater => '>'
  | equal => '='
  | tilde => '~'

def all : List Symbol :=
  [.openBrace, .closeBrace, .openParen, .closeParen, .openBracket, .closeBracket, .dot, .comma,
   .semicolon, .plus, .minus, .star, .slash, .ampersand, .bar, .less, .greater, .equal, .tilde]

def ofChar? (c : Char) : Option Symbol :=
  all.find? fun s => s.char = c

theorem mem_all (s : Symbol) : s ∈ all := by
  cases s <;> decide

theorem char_injective {s t : Symbol} (h : s.char = t.char) : s = t := by
  revert h
  cases s <;> cases t <;> decide

theorem ofChar?_eq_some_iff {c : Char} {s : Symbol} : ofChar? c = some s ↔ s.char = c := by
  constructor
  · intro h
    simpa using List.find?_some h
  · intro h
    cases hf : ofChar? c with
    | none =>
      have hn := List.find?_eq_none.mp hf s (mem_all s)
      simp [h] at hn
    | some t =>
      have ht : t.char = c := by simpa using List.find?_some hf
      rw [char_injective (ht.trans h.symm)]

end Symbol

end JackVM
