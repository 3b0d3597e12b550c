import JackVM.Proofs.LabelNumbers
import JackVM.Proofs.Subroutines
import JackVM.Proofs.Unambiguity

namespace JackVM

/-- The same label with its number counted on from another one. -/
def Label.raise (k : Nat) (l : Label) : Label :=
  { l with number := l.number + k }

def Instruction.raise (k : Nat) : Instruction → Instruction
  | .label l => .label (l.raise k)
  | .goto l => .goto (l.raise k)
  | .ifGoto l => .ifGoto (l.raise k)
  | i => i

/-- Codes one after another, with the numbers of the labels in each raised by the number of labels
that have their place before it. -/
def joined (n : Nat) : List (List Instruction) → List Instruction
  | [] => []
  | code :: codes => code.map (Instruction.raise n) ++ joined (n + (labelsOf code).length) codes

section Raised

variable {k : Nat} {code : List Instruction}

theorem Instruction.raise_of_isStraight {i : Instruction} (h : i.isStraight = true) :
    i.raise k = i := by
  cases i with
  | push | pop | op | call => rfl
  | label | goto | ifGoto | function | ret => cases h

theorem Straight.map_raise (h : Straight code) : code.map (Instruction.raise k) = code := by
  induction code with
  | nil => rfl
  | cons i code ih =>
    obtain ⟨hi, hcode⟩ := straight_cons.mp h
    rw [List.map_cons, Instruction.raise_of_isStraight hi, ih hcode]

end Raised

section Code

variable (ρ : Scope) (k : Nat)

theorem Scope.raise_label (purpose : String) (n : Nat) :
    (ρ.label purpose n).raise k = ρ.label purpose (n + k) := rfl

mutual

theorem raise_statement : (st : Statement) → (n : Nat) →
    (st.code ρ n).map (Instruction.raise k) = st.code ρ (n + k)
  | .assign x e, n => by
    have hcode : Straight ((Statement.assign x e).code ρ n) := by
      simp [Statement.code, straight_expression, straight_popCode]
    exact hcode.map_raise
  | .assignElement x i e, n => by
    have hcode : Straight ((Statement.assignElement x i e).code ρ n) := by
      simp [Statement.code, storeCode, straight_pushCode, straight_expression,
        Instruction.isStraight]
    exact hcode.map_raise
  | .branch c yes none, n => by
    have hc := (straight_expression ρ c).map_raise (k := k)
    have hyes := raise_statements yes (n + 1)
    rw [Nat.add_right_comm] at hyes
    simp [Statement.code, Instruction.raise, Scope.raise_label, hc, hyes]
  | .branch c yes (some no), n => by
    have hc := (straight_expression ρ c).map_raise (k := k)
    have hyes := raise_statements yes (n + 1)
    have hno := raise_statements no (n + 1 + labelCount yes + 1)
    have hend : n + 1 + labelCount yes + k = n + k + 1 + labelCount yes := by omega
    have hafter : n + 1 + labelCount yes + 1 + k = n + k + 1 + labelCount yes + 1 := by omega
    rw [Nat.add_right_comm] at hyes
    rw [hafter] at hno
    simp [Statement.code, Instruction.raise, Scope.raise_label, hc, hyes, hno, hend]
  | .loop c body, n => by
    have hc := (straight_expression ρ c).map_raise (k := k)
    have hbody := raise_statements body (n + 2)
    rw [Nat.add_right_comm] at hbody
    simp [Statement.code, Instruction.raise, Scope.raise_label, hc, hbody, Nat.add_right_comm]
  | .perform q f es, n => by
    have hcode : Straight ((Statement.perform q f es).code ρ n) := by
      simp [Statement.code, straight_call, Instruction.isStraight]
    exact hcode.map_raise
  | .giveBack none, _ => rfl
  | .giveBack (some e), n => by
    have he := (straight_expression ρ e).map_raise (k := k)
    simp [Statement.code, Instruction.raise, he]

/-- Only the labels of statements depend on the number they start from. -/
theorem raise_statements : (ss : List Statement) → (n : Nat) →
    (statementCode ρ ss n).map (Instruction.raise k) = statementCode ρ ss (n + k)
  | [], _ => rfl
  | st :: ss, n => by
    have hrest := raise_statements ss (n + st.labels)
    rw [Nat.add_right_comm] at hrest
    rw [statementCode, statementCode, List.map_append, raise_statement st n, hrest]

end

end Code

namespace ClassHead

variable (c : ClassHead)

theorem raise_routineCode (r : RoutineTree) (n k : Nat) :
    (c.routineCode r n).map (Instruction.raise k) = c.routineCode r (n + k) := by
  have hprologue := (straight_prologue r.kind c.objectSize).map_raise (k := k)
  rw [routineCode, routineCode, bodyCode, bodyCode, List.map_cons, List.map_append, hprologue,
    raise_statements]
  rfl

theorem length_labelsOf_routineCode (r : RoutineTree) (n : Nat) :
    (labelsOf (c.routineCode r n)).length = labelCount r.body := by
  have hperm := c.labelNumbers_bodyCode r n
  have hlength := hperm.length_eq
  rw [List.length_range', labelNumbers, List.length_map] at hlength
  exact hlength

/-- The code of a class is that of its subroutines, each translated alone. -/
theorem routinesCode_eq_joined (rs : List RoutineTree) (n : Nat) :
    c.routinesCode rs n = joined n (rs.map fun r => c.routineCode r 0) := by
  induction rs generalizing n with
  | nil => rfl
  | cons r rs ih =>
    rw [routinesCode, List.map_cons, joined, raise_routineCode, Nat.zero_add, ih,
      length_labelsOf_routineCode]

end ClassHead

namespace ClassTree

variable {c d : ClassTree} {source : String}

theorem IsReadFrom.unique (hc : c.IsReadFrom source) (hd : d.IsReadFrom source) : c = d := by
  obtain ⟨ts, hts, hc⟩ := hc
  obtain ⟨us, hus, hd⟩ := hd
  have htokens : ts = us := by
    have hmap : ts.map (Except.ok (ε := TokenError)) = us.map .ok := hts.symm.trans hus
    exact List.map_injective_iff.mpr (fun _ _ => Except.ok.inj) hmap
  exact lexemes_injective (by rw [← hc, ← hd, htokens])

/-- The class that a source is read as decides on its own whether and to what it is compiled. -/
theorem IsReadFrom.compiles_iff (hc : c.IsReadFrom source) {code : List Instruction} :
    compileInstructions source = .ok code ↔ c.Valid ∧ code = c.code := by
  constructor
  · intro h
    obtain ⟨d, hd, hvalid, rfl⟩ := reference_of_compileInstructions h
    obtain rfl := hc.unique hd
    exact ⟨hvalid, rfl⟩
  · rintro ⟨hvalid, rfl⟩
    exact compileInstructions_of_reference hc hvalid

theorem IsReadFrom.compiles (hc : c.IsReadFrom source) :
    (∃ code, compileInstructions source = .ok code) ↔ c.Valid :=
  ⟨fun ⟨_, h⟩ => (hc.compiles_iff.mp h).1, fun h => ⟨c.code, hc.compiles_iff.mpr ⟨h, rfl⟩⟩⟩

end ClassTree

section Parts

variable {c : ClassHead} {rs : List RoutineTree} {source : String} {parts : List String}
  {codes : List (List Instruction)}

theorem code_singleton (c : ClassHead) (r : RoutineTree) :
    (⟨c, [r]⟩ : ClassTree).code = c.routineCode r 0 :=
  List.append_nil _

/-- A class with subroutines keeps to the rules when it does with each of them alone. -/
theorem valid_iff_forall (hrs : rs ≠ []) :
    (⟨c, rs⟩ : ClassTree).Valid ↔ ∀ r ∈ rs, (⟨c, [r]⟩ : ClassTree).Valid := by
  constructor
  · intro h r hr
    exact ⟨h.names, fun q hq => h.routines q (List.mem_singleton.mp hq ▸ hr)⟩
  · intro h
    obtain ⟨r, hr⟩ := List.exists_mem_of_ne_nil rs hrs
    exact ⟨(h r hr).names, fun q hq => (h q hq).routines q (List.mem_singleton_self q)⟩

theorem parts_compile_iff
    (hparts : List.Forall₂ (fun r part => (⟨c, [r]⟩ : ClassTree).IsReadFrom part) rs parts) :
    (∀ part ∈ parts, ∃ code, compileInstructions part = .ok code) ↔
      ∀ r ∈ rs, (⟨c, [r]⟩ : ClassTree).Valid := by
  induction hparts with
  | nil => simp
  | cons hpart _ ih => rw [List.forall_mem_cons, List.forall_mem_cons, hpart.compiles, ih]

theorem codes_of_parts
    (hparts : List.Forall₂ (fun r part => (⟨c, [r]⟩ : ClassTree).IsReadFrom part) rs parts)
    (hcodes : List.Forall₂ (fun part code => compileInstructions part = .ok code) parts codes) :
    (∀ r ∈ rs, (⟨c, [r]⟩ : ClassTree).Valid) ∧ codes = rs.map fun r => c.routineCode r 0 := by
  induction hparts generalizing codes with
  | nil =>
    cases hcodes
    exact ⟨by simp, rfl⟩
  | cons hpart _ ih =>
    cases hcodes with
    | cons hcode hrest =>
      obtain ⟨hvalid, rfl⟩ := hpart.compiles_iff.mp hcode
      obtain ⟨hall, rfl⟩ := ih hrest
      rw [code_singleton, List.map_cons]
      exact ⟨List.forall_mem_cons.mpr ⟨hvalid, hall⟩, rfl⟩

/-- A class with some subroutines is compiled if each of them is as the only one of the class, and
then its code is their codes one after another, with the labels numbered on. -/
theorem subroutines_independent (hrs : rs ≠ [])
    (hwhole : (⟨c, rs⟩ : ClassTree).IsReadFrom source)
    (hparts : List.Forall₂ (fun r part => (⟨c, [r]⟩ : ClassTree).IsReadFrom part) rs parts) :
    ((∃ code, compileInstructions source = .ok code) ↔
      ∀ part ∈ parts, ∃ code, compileInstructions part = .ok code) ∧
    ∀ codes, List.Forall₂ (fun part code => compileInstructions part = .ok code) parts codes →
      compileInstructions source = .ok (joined 0 codes) := by
  constructor
  · rw [hwhole.compiles, parts_compile_iff hparts, valid_iff_forall hrs]
  · intro codes hcodes
    obtain ⟨hvalid, rfl⟩ := codes_of_parts hparts hcodes
    refine hwhole.compiles_iff.mpr ⟨(valid_iff_forall hrs).mpr hvalid, ?_⟩
    exact (c.routinesCode_eq_joined rs 0).symm

end Parts

/-- A class with a loop in a method and a branch in a function. -/
def waiting : ClassHead where
  name := "A"
  variableGroups := []

def waitingLoop : RoutineTree :=
  ⟨.method, none, "f", [⟨.int, "x"⟩], [], [.loop (.chain (.variable "x") []) []]⟩

def waitingBranch : RoutineTree :=
  ⟨.function, some .int, "g", [], [⟨.int, "x", []⟩], [.branch (.chain (.variable "x") []) [] none]⟩

/-- Neither the parameter of the first subroutine nor its labels get in the way of the second. -/
theorem independent_waiting : compileInstructions
    "class A { method void f(int x) { while (x) { } } function int g() { var int x; if (x) { } } }" =
      .ok (joined 0
        [[.function "A.f" 0, .push .argument 0, .pop .pointer 0, .label ⟨"A", "f", "WHILE_TOP", 0⟩,
          .push .argument 1, .op .not, .ifGoto ⟨"A", "f", "WHILE_END", 1⟩,
          .goto ⟨"A", "f", "WHILE_TOP", 0⟩, .label ⟨"A", "f", "WHILE_END", 1⟩],
         [.function "A.g" 1, .push .localVar 0, .op .not, .ifGoto ⟨"A", "g", "IF_FALSE", 0⟩,
          .label ⟨"A", "g", "IF_FALSE", 0⟩]]) := by
  have hparts : List.Forall₂ (fun r part => (⟨waiting, [r]⟩ : ClassTree).IsReadFrom part)
      [waitingLoop, waitingBranch]
      ["class A { method void f(int x) { while (x) { } } }",
        "class A { function int g() { var int x; if (x) { } } }"] :=
    .cons (.of_line (by decide +kernel)) (.cons (.of_line (by decide +kernel)) .nil)
  exact (subroutines_independent (by simp) (.of_line (by decide +kernel)) hparts).2 _
    (.cons (ok_of_toOption (by decide +kernel)) (.cons (ok_of_toOption (by decide +kernel)) .nil))

end JackVM
