import Mathlib.Computability.RegularExpressions
import Mathlib.Data.Nat.Digits.Defs
import JackVM.Proofs.Layouts

namespace JackVM

def reservedWords : List String :=
  ["class", "constructor", "function", "method", "field", "static", "var", "int", "char", "boolean",
   "void", "true", "false", "null", "this", "let", "do", "if", "else", "while", "return"]

def letters : List Char :=
  "ABCDEFGHIJKLMNOPQRSTUVWXYZabcdefghijklmnopqrstuvwxyz".toList

/-- The digits in the order of their values. -/
def decimalDigits : List Char :=
  "0123456789".toList

/-- The number that is written with these digits. -/
def decimalValue (cs : List Char) : Nat :=
  Nat.ofDigits 10 (cs.reverse.map decimalDigits.idxOf)

def oneOf (cs : List Char) : RegularExpression Char :=
  (cs.map .char).sum

/-- A letter or an underscore, and then letters, underscores and digits. -/
def namePattern : RegularExpression Char :=
  oneOf ('_' :: letters) * (oneOf ('_' :: letters ++ decimalDigits)).star

/-- What a word on a line means: a reserved word, else a number or one that is too large, else a
name, else nothing. -/
inductive WordMeans (line : Nat) (word : String) : Except TokenError Lexeme → Prop
  | reserved {k : Keyword} (reserved : word ∈ reservedWords) (text : k.text = word) :
    WordMeans line word (.ok (.keyword k))
  | number (free : word ∉ reservedWords) (digits : ∀ c ∈ word.toList, c ∈ decimalDigits)
    (fits : decimalValue word.toList ≤ 32767) : WordMeans line word (.ok (.integer word))
  | largeNumber (free : word ∉ reservedWords) (digits : ∀ c ∈ word.toList, c ∈ decimalDigits)
    (large : 32767 < decimalValue word.toList) :
    WordMeans line word (.error (.largeInteger line word))
  | name (free : word ∉ reservedWords) (other : ∃ c ∈ word.toList, c ∉ decimalDigits)
    (pattern : word.toList ∈ namePattern.matches') : WordMeans line word (.ok (.identifier word))
  | nothing (free : word ∉ reservedWords) (other : ∃ c ∈ word.toList, c ∉ decimalDigits)
    (pattern : word.toList ∉ namePattern.matches') :
    WordMeans line word (.error (.unknownWord line word))

section Characters

variable {c : Char}

theorem mem_decimalDigits_iff : c ∈ decimalDigits ↔ isDigit c = true := by
  have hall : decimalDigits.all isDigit = true := by decide
  constructor
  · exact List.all_eq_true.mp hall c
  · intro h
    refine forall_ascii (p := fun c => isDigit c = true → c ∈ decimalDigits) ?_
      (toNat_lt_of_isNameChar (isNameChar_of_isDigit h)) h
    decide

theorem mem_nameStart_iff : c ∈ '_' :: letters ↔ isNameStart c = true := by
  have hall : ('_' :: letters).all isNameStart = true := by decide
  constructor
  · exact List.all_eq_true.mp hall c
  · intro h
    refine forall_ascii (p := fun c => isNameStart c = true → c ∈ '_' :: letters) ?_
      (toNat_lt_of_isNameChar (isNameChar_of_isNameStart h)) h
    decide

theorem mem_nameChar_iff : c ∈ '_' :: letters ++ decimalDigits ↔ isNameChar c = true := by
  rw [List.mem_append, mem_nameStart_iff, mem_decimalDigits_iff, isNameChar, Bool.or_eq_true]

end Characters

section Names

variable {cs word : List Char}

theorem mem_oneOf_iff : word ∈ (oneOf cs).matches' ↔ ∃ c ∈ cs, word = [c] := by
  induction cs with
  | nil => simp [oneOf, RegularExpression.matches'_zero]
  | cons c cs ih =>
    have hsum : oneOf (c :: cs) = .char c + oneOf cs := List.sum_cons
    have hchar : word ∈ (RegularExpression.char c).matches' ↔ word = [c] := Set.mem_singleton_iff
    rw [hsum, RegularExpression.matches'_add, Language.mem_add, hchar, ih]
    simp

theorem mem_star_oneOf_iff : word ∈ (oneOf cs).star.matches' ↔ ∀ c ∈ word, c ∈ cs := by
  rw [RegularExpression.matches'_star, Language.mem_kstar]
  constructor
  · rintro ⟨parts, rfl, hparts⟩ c hc
    obtain ⟨part, hpart, hc⟩ := List.mem_flatten.mp hc
    obtain ⟨d, hd, rfl⟩ := mem_oneOf_iff.mp (hparts part hpart)
    rwa [List.mem_singleton.mp hc]
  · intro h
    refine ⟨word.map fun c => [c], (List.flatMap_singleton' word).symm, fun part hpart => ?_⟩
    obtain ⟨c, hc, rfl⟩ := List.mem_map.mp hpart
    exact mem_oneOf_iff.mpr ⟨c, h c hc, rfl⟩

theorem mem_namePattern_iff : word ∈ namePattern.matches' ↔ isName word = true := by
  rw [namePattern, RegularExpression.matches'_mul, Language.mem_mul]
  cases word with
  | nil =>
    have hnone : ¬∃ front ∈ (oneOf ('_' :: letters)).matches', ∃ back ∈
        (oneOf ('_' :: letters ++ decimalDigits)).star.matches', front ++ back = [] := by
      rintro ⟨front, hfront, back, -, hnil⟩
      obtain ⟨c, -, rfl⟩ := mem_oneOf_iff.mp hfront
      cases hnil
    simpa [isName] using hnone
  | cons c cs =>
    rw [isName, Bool.and_eq_true, List.all_eq_true, ← mem_nameStart_iff]
    simp only [← mem_nameChar_iff, ← mem_star_oneOf_iff]
    constructor
    · rintro ⟨front, hfront, back, hback, heq⟩
      obtain ⟨d, hd, rfl⟩ := mem_oneOf_iff.mp hfront
      obtain ⟨rfl, rfl⟩ := List.cons.inj heq
      exact ⟨hd, hback⟩
    · rintro ⟨hc, hcs⟩
      exact ⟨[c], mem_oneOf_iff.mpr ⟨c, hc, rfl⟩, cs, hcs, rfl⟩

end Names

section Words

variable {cs : List Char} {word : String} {line : Nat}

theorem digitsValue_concat (cs : List Char) (c : Char) :
    digitsValue (cs ++ [c]) = 10 * digitsValue cs + (c.toNat - '0'.toNat) := by
  simp [digitsValue, digitsValueFrom]

theorem decimalValue_concat (cs : List Char) (c : Char) :
    decimalValue (cs ++ [c]) = 10 * decimalValue cs + decimalDigits.idxOf c := by
  simp [decimalValue, Nat.ofDigits_cons, Nat.add_comm]

theorem idxOf_decimalDigits {c : Char} (h : c ∈ decimalDigits) :
    decimalDigits.idxOf c = c.toNat - '0'.toNat := by
  have hall : (decimalDigits.all fun c => decimalDigits.idxOf c == c.toNat - '0'.toNat) = true := by
    decide
  exact beq_iff_eq.mp (List.all_eq_true.mp hall c h)

theorem digitsValue_eq (h : ∀ c ∈ cs, c ∈ decimalDigits) : digitsValue cs = decimalValue cs := by
  induction cs using List.reverseRecOn with
  | nil => rfl
  | append_singleton cs c ih =>
    have hcs := ih fun d hd => h d (List.mem_append_left _ hd)
    rw [digitsValue_concat, decimalValue_concat, hcs, idxOf_decimalDigits (h c (by simp))]

theorem mem_reservedWords_iff : word ∈ reservedWords ↔ ∃ k, Keyword.ofText? word = some k := by
  have hall : reservedWords = Keyword.all.map Keyword.text := rfl
  rw [hall, List.mem_map]
  simp [Keyword.mem_all, Keyword.ofText?_eq_some_iff]

theorem all_isDigit_iff : cs.all isDigit = true ↔ ∀ c ∈ cs, c ∈ decimalDigits := by
  simp [mem_decimalDigits_iff]

theorem wordMeans_readWord (word : String) (line : Nat) :
    WordMeans line word (readWord word line) := by
  unfold readWord
  cases hk : Keyword.ofText? word with
  | some k =>
    exact .reserved (mem_reservedWords_iff.mpr ⟨k, hk⟩) (Keyword.ofText?_eq_some_iff.mp hk)
  | none =>
    have hfree : word ∉ reservedWords := by simp [mem_reservedWords_iff, hk]
    dsimp only
    split
    next hdigits =>
      have hdigits := all_isDigit_iff.mp hdigits
      rw [digitsValue_eq hdigits]
      split
      next hfits => exact .number hfree hdigits hfits
      next hlarge => exact .largeNumber hfree hdigits (Nat.lt_of_not_le hlarge)
    next hother =>
      have hother : ∃ c ∈ word.toList, c ∉ decimalDigits := by
        simpa [mem_decimalDigits_iff] using hother
      split
      next hname => exact .name hfree hother (mem_namePattern_iff.mpr hname)
      next hname => exact .nothing hfree hother (mt mem_namePattern_iff.mp hname)

theorem WordMeans.readWord_eq {r : Except TokenError Lexeme} (h : WordMeans line word r) :
    readWord word line = r := by
  have hnone (free : word ∉ reservedWords) : Keyword.ofText? word = none :=
    Option.eq_none_iff_forall_ne_some.mpr fun k hk => free (mem_reservedWords_iff.mpr ⟨k, hk⟩)
  have hother (other : ∃ c ∈ word.toList, c ∉ decimalDigits) : word.toList.all isDigit = false := by
    obtain ⟨c, hc, hnot⟩ := other
    rw [← Bool.not_eq_true, all_isDigit_iff]
    exact fun digits => hnot (digits c hc)
  unfold readWord
  cases h with
  | reserved _ text => rw [Keyword.ofText?_eq_some_iff.mpr text]
  | number free digits fits =>
    have hfits : digitsValue word.toList ≤ maxConstant := digitsValue_eq digits ▸ fits
    simp [hnone free, all_isDigit_iff.mpr digits, hfits]
  | largeNumber free digits large =>
    have hlarge : ¬digitsValue word.toList ≤ maxConstant :=
      Nat.not_le_of_lt (digitsValue_eq digits ▸ large)
    simp [hnone free, all_isDigit_iff.mpr digits, hlarge]
  | name free other pattern =>
    simp [hnone free, hother other, mem_namePattern_iff.mp pattern]
  | nothing free other pattern =>
    simp [hnone free, hother other, mt mem_namePattern_iff.mpr pattern]

end Words

section Registers

variable {limit n : Nat} {cs : List Char} {word : String}

/-- Reads digits into a register that holds no number above a limit, after a number already read. -/
def registerFrom? (limit : Nat) : Nat → List Char → Option Nat
  | n, [] => some n
  | n, c :: cs =>
    let next := 10 * n + (c.toNat - '0'.toNat)
    if next ≤ limit then registerFrom? limit next cs else none

/-- The number that digits denote, if it fits into a register. Without digits there is none. -/
def registerValue? (limit : Nat) (cs : List Char) : Option Nat :=
  if cs = [] then none else registerFrom? limit 0 cs

/-- What a word is, when its number is read into a register. -/
def readWordWithin (limit : Nat) (word : String) (line : Nat) : Except TokenError Lexeme :=
  match Keyword.ofText? word with
  | some k => .ok (.keyword k)
  | none =>
    if word.toList.all isDigit then
      match registerValue? limit word.toList with
      | some n =>
        if n ≤ maxConstant then .ok (.integer word) else .error (.largeInteger line word)
      | none => .error (.largeInteger line word)
    else if isName word.toList then .ok (.identifier word)
    else .error (.unknownWord line word)

theorem le_digitsValueFrom (n : Nat) (cs : List Char) : n ≤ digitsValueFrom n cs := by
  induction cs generalizing n with
  | nil => exact Nat.le_refl n
  | cons c cs ih =>
    have hnext := ih (10 * n + (c.toNat - '0'.toNat))
    have hcons : digitsValueFrom n (c :: cs) =
        digitsValueFrom (10 * n + (c.toNat - '0'.toNat)) cs := rfl
    omega

/-- A register that is too small on the way is too small for the number. -/
theorem registerFrom?_eq (hn : n ≤ limit) (cs : List Char) : registerFrom? limit n cs =
    if digitsValueFrom n cs ≤ limit then some (digitsValueFrom n cs) else none := by
  induction cs generalizing n with
  | nil => exact (if_pos hn).symm
  | cons c cs ih =>
    have hcons : digitsValueFrom n (c :: cs) =
        digitsValueFrom (10 * n + (c.toNat - '0'.toNat)) cs := rfl
    rw [registerFrom?, hcons]
    split
    next hnext => exact ih hnext
    next hnext =>
      have hlarge := le_digitsValueFrom (10 * n + (c.toNat - '0'.toNat)) cs
      rw [if_neg (by omega)]

/-- Any register that holds the constants of the machine is wide enough. -/
theorem readWordWithin_eq (hlimit : maxConstant ≤ limit) (hword : word ≠ "") (line : Nat) :
    readWordWithin limit word line = readWord word line := by
  have hne : word.toList ≠ [] := mt String.toList_eq_nil_iff.mp hword
  have hvalue : registerValue? limit word.toList =
      if digitsValue word.toList ≤ limit then some (digitsValue word.toList) else none := by
    rw [registerValue?, if_neg hne, registerFrom?_eq (Nat.zero_le limit)]
    rfl
  rw [readWordWithin, readWord, hvalue]
  cases Keyword.ofText? word with
  | some k => rfl
  | none =>
    by_cases hfits : digitsValue word.toList ≤ limit
    · simp only [if_pos hfits]
    · have hlarge : ¬digitsValue word.toList ≤ maxConstant := by omega
      simp only [if_neg hfits, if_neg hlarge]

end Registers

section Reading

variable {classify : String → Nat → Except TokenError Lexeme}

/-- A word has characters, and none of them is white space, a quote or a symbol. -/
structure IsWord (word : String) : Prop where
  ne_empty : word ≠ ""
  chars : ∀ c ∈ word.toList, isWordChar c = true

/-- Reads a token as `readToken` does, with another way to tell what a word is. -/
def readTokenBy (classify : String → Nat → Except TokenError Lexeme) (c : Char) (cs : List Char)
    (line : Nat) : EStateM.Result TokenError Cursor (Option Token) :=
  match Symbol.ofChar? c with
  | some s => .ok (some ⟨.symbol s, line⟩) ⟨cs, line⟩
  | none =>
    if c = stringQuote then
      match cs.dropWhile isStringChar with
      | '"' :: after => deliver (stringConstant (cs.takeWhile isStringChar) line) line ⟨after, line⟩
      | _ => .error (.openString line) (Cursor.toEnd ⟨cs, line⟩)
    else
      deliver (classify (String.ofList (c :: cs.takeWhile isWordChar)) line) line
        ⟨cs.dropWhile isWordChar, line⟩

/-- Reads the next token, with another way to tell what a word is. -/
def Cursor.readBy (classify : String → Nat → Except TokenError Lexeme) :
    EStateM TokenError Cursor (Option Token) := fun c =>
  match skipGap .blank c.rest c.line with
  | .error opened => .error (.openComment opened) c.toEnd
  | .ok ⟨[], line⟩ => .ok none ⟨[], line⟩
  | .ok ⟨ch :: cs, line⟩ => readTokenBy classify ch cs line

/-- Reading depends only on what non-empty words are. -/
theorem Cursor.readBy_congr {classify' : String → Nat → Except TokenError Lexeme}
    (h : ∀ word line, IsWord word → classify word line = classify' word line) :
    Cursor.readBy classify = Cursor.readBy classify' := by
  funext c
  unfold readBy
  cases hgap : skipGap .blank c.rest c.line with
  | error opened => rfl
  | ok found =>
    obtain ⟨rest, line⟩ := found
    cases rest with
    | nil => rfl
    | cons ch cs =>
      dsimp only
      unfold readTokenBy
      cases hsymbol : Symbol.ofChar? ch with
      | some s => rfl
      | none =>
        by_cases hquote : ch = stringQuote
        · simp only [if_pos hquote]
        · have hch : isWordChar ch = true := by
            simp [isWordChar, isWhitespace_of_skipGap hgap, hquote, hsymbol]
          have hword : IsWord (String.ofList (ch :: cs.takeWhile isWordChar)) := by
            refine ⟨by simp, ?_⟩
            rw [String.toList_ofList]
            refine List.forall_mem_cons.mpr ⟨hch, fun d hd => ?_⟩
            exact List.all_eq_true.mp List.all_takeWhile d hd
          simp only [if_neg hquote, h _ _ hword]

end Reading

/-- A word means just what it is read as, whatever register of at least the width of constants its
number is read into, and no word that is read is empty. -/
theorem words_classified :
    (∀ word line, IsWord word →
      (∀ r, readWord word line = r ↔ WordMeans line word r) ∧
        (∀ digits, readWord word line = .ok (.integer digits) →
          (Lexeme.integer digits).value? = some (decimalValue word.toList)) ∧
        ∀ limit, maxConstant ≤ limit → readWordWithin limit word line = readWord word line) ∧
      ∀ classify, (∀ word line, IsWord word → classify word line = readWord word line) →
        Cursor.readBy classify = Cursor.read := by
  refine ⟨fun word line hword => ⟨fun r => ?_, fun digits hr => ?_, fun limit hlimit => ?_⟩,
    fun classify h => ?_⟩
  · constructor
    · rintro rfl
      exact wordMeans_readWord word line
    · exact WordMeans.readWord_eq
  · have hmeans := wordMeans_readWord word line
    rw [hr] at hmeans
    cases hmeans with
    | number _ hdigits => exact congrArg some (digitsValue_eq hdigits)
  · exact readWordWithin_eq hlimit hword.ne_empty line
  · exact Cursor.readBy_congr h

/-- Zeros in front do not make a number too large, also for a register of sixteen bits, but twenty
nines do. -/
theorem words_classified_zeros :
    readWord "000000000000000000000032767" 1 = .ok (.integer "000000000000000000000032767") ∧
      readWordWithin 65535 "000000000000000000000032767" 1 =
        .ok (.integer "000000000000000000000032767") ∧
      readWord "99999999999999999999" 1 = .error (.largeInteger 1 "99999999999999999999") := by
  have hzeros : IsWord "000000000000000000000032767" :=
    ⟨by decide, List.all_eq_true.mp (by decide)⟩
  have hnines : IsWord "99999999999999999999" := ⟨by decide, List.all_eq_true.mp (by decide)⟩
  obtain ⟨hmeans, -, hwithin⟩ := words_classified.1 _ 1 hzeros
  have hread := (hmeans _).mpr (.number (by decide) (all_isDigit_iff.mp (by decide)) (by decide))
  refine ⟨hread, (hwithin 65535 (by decide)).trans hread, ?_⟩
  exact ((words_classified.1 _ 1 hnines).1 _).mpr
    (.largeNumber (by decide) (all_isDigit_iff.mp (by decide)) (by decide))

end JackVM
